import LinearProbe.Map.Basic

/-!
# Changing a map

Every operation that stores a value given by the caller refuses the missing value before it looks
for the key (`Map.permit`). The operations that store what a function computes treat the missing
value as a wish to have no entry: `getOrInsertWith` inserts nothing, `modify` and `combine` erase
the entry.

The forms with a question mark answer with an `Option`; those without answer with the missing
value where there is nothing else to answer.

`insertMany` and `insertMap` insert one entry after the other and stop at the first that fails;
what was inserted before it stays. They differ in what a refused value means: for a map of
entries it is a refusal, for a list of entries it ends the call. `filterWith` keeps the entries that
a predicate with a state of its own accepts. It goes over the entries with a cursor and erases as it
goes, so that the predicate is asked once for each entry.
-/

namespace LinearProbe.Map

variable {K : Type}

/-- The map with its table changed as an operation on the table leaves it. -/
def lift {α : Type} (m : Map K) (o : Outcome Abort (Table K) α) : Outcome Failure (Map K) α :=
  o.within .aborted fun t => { m with table := t }

/-- Refuses the missing value. -/
def permit (m : Map K) (v : Int32) : Except Error Unit :=
  if v = m.missing then .error (.missingValue v) else .ok ()

/-- The operation on the map, if the value may be stored. -/
def permitting {α : Type} (m : Map K) (v : Int32) (act : Map K → Outcome Failure (Map K) α) :
    Outcome Failure (Map K) α :=
  match m.permit v with
  | .error e => .error (.refused e) m
  | .ok _ => act m

/-! ## The whole map -/

/-- All entries removed. -/
def clear (m : Map K) : Map K :=
  { m with table := m.table.clear }

/-- The entries moved to as few slots as their number allows. -/
def compact [Stored K] (m : Map K) : Outcome Failure (Map K) Unit :=
  m.lift (m.table.compact m.hash)

section Equality

variable [BEq K]

/-! ## Storing -/

/-- The value of a key set; the answer is the value before. A key that is held stays as it was
inserted first. -/
def insert? [Stored K] (m : Map K) (k : K) (v : Int32) : Outcome Failure (Map K) (Option Int32) :=
  m.permitting v fun m => m.lift (m.table.insert? m.hash (m.hash k) (· == k) k v)

/-- The value of a key set; the answer is the value before, or the missing value. -/
def insert [Stored K] (m : Map K) (k : K) (v : Int32) : Outcome Failure (Map K) Int32 :=
  (m.insert? k v).map fun old? => old?.getD m.missing

/-- The value of a key set if it has one; the answer is the value before. -/
def replace? (m : Map K) (k : K) (v : Int32) : Outcome Failure (Map K) (Option Int32) :=
  m.permitting v fun m => m.lift (m.table.replace? (m.hash k) (· == k) v)

/-! ## Erasing -/

/-- A key erased; the answer is the stored key with its value. -/
def erasePair? (m : Map K) (k : K) : Outcome Failure (Map K) (Option (K × Int32)) :=
  m.lift (m.table.erase? m.hash (m.hash k) (· == k))

/-- A key erased; the answer is its value. -/
def erase? (m : Map K) (k : K) : Outcome Failure (Map K) (Option Int32) :=
  (m.erasePair? k).map fun e? => e?.map Prod.snd

/-- A key erased; the answer is its value, or the missing value. -/
def erase (m : Map K) (k : K) : Outcome Failure (Map K) Int32 :=
  (m.erase? k).map fun v? => v?.getD m.missing

/-! ## Computing values -/

/-- The entry in slot `i` given the computed value, or erased if that is the missing value; the
answer is the computed value. -/
def settle (m : Map K) (i : Nat) (v : Int32) : Outcome Failure (Map K) Int32 :=
  if v = m.missing then (m.lift (m.table.eraseAt? m.hash i)).map fun _ => v
  else .ok v { m with table := m.table.writeValue i v }

/-- The value of a key. A key without one gets the value that `f` computes, unless that is the
missing value; the answer is the value computed in either case. -/
def getOrInsertWith [Stored K] (m : Map K) (k : K) (f : K → Int32) :
    Outcome Failure (Map K) Int32 :=
  match m.table.locate (m.hash k) (· == k) with
  | .error a => .error (.aborted a) m
  | .ok (.held i) => .ok (m.table.value i) m
  | .ok (.free i) =>
    let v := f k
    if v = m.missing then .ok v m
    else (m.lift (m.table.insertAt m.hash i k v)).map fun _ => v

/-- The value of a key that has one replaced by what `f` computes from the stored key and the
value; the answer is the computed value, or the missing value if the key has none. -/
def modify (m : Map K) (k : K) (f : K → Int32 → Int32) : Outcome Failure (Map K) Int32 :=
  match m.table.indexOf? (m.hash k) (· == k) with
  | .error a => .error (.aborted a) m
  | .ok none => .ok m.missing m
  | .ok (some i) =>
    match m.table.slot? i with
    | none => .ok m.missing m
    | some (k', old) => m.settle i (f k' old)

/-- The value of a key combined with `v` by `f`; a key without a value gets `v`. The answer is the
combined value. -/
def combine [Stored K] (m : Map K) (k : K) (v : Int32) (f : Int32 → Int32 → Int32) :
    Outcome Failure (Map K) Int32 :=
  m.permitting v fun m =>
    match m.table.locate (m.hash k) (· == k) with
    | .error a => .error (.aborted a) m
    | .ok (.held i) => m.settle i (f (m.table.value i) v)
    | .ok (.free i) => (m.lift (m.table.insertAt m.hash i k v)).map fun _ => v

end Equality

/-! ## Inserting many entries -/

section Insert

variable [BEq K] [Stored K]

/-- The entries inserted in order, up to the first that fails. -/
def insertList (m : Map K) : List (K × Int32) → Outcome Failure (Map K) Unit
  | [] => .ok () m
  | (k, v) :: rest =>
    match m.insert? k v with
    | .ok _ m' => insertList m' rest
    | .error e m' => .error e m'

/-- The entries of another map inserted in the order of its traversal, up to the first that
fails. -/
def insertMap (m other : Map K) : Outcome Failure (Map K) Unit :=
  m.insertList other.toList

/-- A failure of an operation that may not be refused. -/
def insist : Failure → Failure
  | .refused e => .aborted (.rejected e)
  | .aborted a => .aborted a

/-- The entries inserted in order; a value that may not be stored aborts. -/
def insertMany (m : Map K) (es : List (K × Int32)) : Outcome Failure (Map K) Unit :=
  (m.insertList es).within insist id

end Insert

/-! ## Filtering -/

/-- Asks `p` for each entry that the cursor meets, in at most `n` steps, and erases those it does
not accept. -/
def filterFrom {σ : Type} (p : σ → K → Int32 → Bool × σ) :
    Nat → Map K → Cursor → σ → Outcome Failure (Map K) σ
  | 0, m, _, _ => .error (.aborted .endless) m
  | n + 1, m, c, s =>
    match c.advance m.table with
    | (none, _) => .ok s m
    | (some i, c') =>
      match m.table.slot? i with
      | none => .ok s m
      | some (k, v) =>
        let (keep, s') := p s k v
        if keep then filterFrom p n m c' s'
        else
          match c'.erase m.hash m.table with
          | .ok _ (t, c'') => filterFrom p n { m with table := t } c'' s'
          | .error a (t, _) => .error (.aborted a) { m with table := t }

/-- The entries that `p` accepts kept and the others erased; `p` passes a state from entry to
entry, and the answer is the last one. Every step of the cursor but the last looks at a slot for
the last time or erases an entry, which bounds the steps. -/
def filterWith {σ : Type} (m : Map K) (p : σ → K → Int32 → Bool × σ) (s : σ) :
    Outcome Failure (Map K) σ :=
  filterFrom p (2 * m.capacity + 1) m (Cursor.new m.table) s

/-- The entries that `p` accepts kept and the others erased. -/
def filter (m : Map K) (p : K → Int32 → Bool) : Outcome Failure (Map K) Unit :=
  m.filterWith (fun _ k v => (p k v, ())) ()

end LinearProbe.Map
