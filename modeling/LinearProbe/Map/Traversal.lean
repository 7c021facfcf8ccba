import LinearProbe.Map.Update
import LinearProbe.Table.Traversal

/-!
# Traversing a map

The iterators of a map are those of its table: `Map.iter` over entries, of which keys and values
are the parts, `Map.visits` over the slots that hold entries, and `Map.drain`, which empties the
map first. `nextInt` yields values and then the missing value for ever, so that a loop over plain
integers knows where to stop (`collectInts`).

Values can be written while visits go on, by the slot that the visit is at (`Map.setAt`); like
every write that refuses the missing value.

A `Map.Walk` is a map with a cursor over it. Its steps (`Walk.Step`) move the cursor to the next
entry, read the entry that the cursor stands on, overwrite its value, and erase it. Overwriting
refuses the missing value, and both refuse where the cursor stands on no entry.
-/

namespace LinearProbe

/-- The next value, or the missing value behind the last entry, with the iterator after it. -/
def Entries.nextInt {K : Type} (it : Entries K) (missing : Int32) : Int32 × Entries K :=
  match it.next? with
  | some (e, it') => (e.2, it')
  | none => (missing, it)

/-- What a loop collects that calls `nextInt` until it first sees the missing value, if that
happens within `n` calls. -/
def Entries.collectInts {K : Type} (missing : Int32) : Nat → Entries K → Option (List Int32)
  | 0, _ => none
  | n + 1, it =>
    let (v, it') := it.nextInt missing
    if v = missing then some [] else (collectInts missing n it').map (v :: ·)

namespace Map

variable {K : Type}

/-! ## Iterators and visits -/

/-- An iterator over the entries. -/
def iter (m : Map K) : Entries K :=
  m.table.iter

/-- An iterator over the slots with entries. -/
def visits (m : Map K) : Visits :=
  m.table.visits

/-- The map emptied, and an iterator over what was in it. -/
def drain (m : Map K) : Entries K × Map K :=
  let (it, t) := m.table.drain
  (it, { m with table := t })

/-- The value in the slot that a visit is at overwritten; the answer is the value before. -/
def setAt (m : Map K) (i : Nat) (v : Int32) : Outcome Failure (Map K) Int32 :=
  m.permitting v fun m => .ok (m.table.value i) { m with table := m.table.writeValue i v }

/-- The entry in the slot that a visit is at, as a record. -/
def inspectAt [Shown K] (layout : Layout) (m : Map K) (i : Nat) : Option String :=
  (m.table.slot? i).map fun (k, v) =>
    layout.record "EntryMut" [("key", Shown.inspect k), ("value", toString v)]

/-! ## Walks -/

/-- A map and a cursor over it. -/
structure Walk (K : Type) where
  map : Map K
  cursor : Cursor

/-- The map with a cursor in front of its first entry. -/
def walk (m : Map K) : Walk K :=
  ⟨m, Cursor.new m.table⟩

namespace Walk

/-- The cursor moved to the next entry, and that entry. -/
def next (w : Walk K) : Option (K × Int32) × Walk K :=
  let (i?, c) := w.cursor.advance w.map.table
  (i?.bind w.map.table.slot?, { w with cursor := c })

/-- The entry that the cursor stands on. -/
def current? (w : Walk K) : Option (K × Int32) :=
  w.cursor.current.bind w.map.table.slot?

/-- The value of the entry that the cursor stands on overwritten; the answer is the value
before. -/
def set (w : Walk K) (v : Int32) : Outcome Failure (Walk K) Int32 :=
  match w.map.permit v with
  | .error e => .error (.refused e) w
  | .ok _ =>
    match w.cursor.current with
    | none => .error (.refused .noCurrentEntry) w
    | some i =>
      match (w.map.lift (w.map.table.replaceAt? i v)).within id fun m => { w with map := m } with
      | .error e w' => .error e w'
      | .ok none w' => .error (.refused .noCurrentEntry) w'
      | .ok (some old) w' => .ok old w'

/-- The entry that the cursor stands on erased; the answer is that entry. -/
def erase (w : Walk K) : Outcome Failure (Walk K) (K × Int32) :=
  match (w.cursor.erase w.map.hash w.map.table).within .aborted
      fun (t, c) => (⟨{ w.map with table := t }, c⟩ : Walk K) with
  | .error e w' => .error e w'
  | .ok none w' => .error (.refused .noCurrentEntry) w'
  | .ok (some e) w' => .ok e w'

/-- One step of a walk. -/
inductive Step where
  | next
  | current?
  | set (value : Int32)
  | erase
deriving DecidableEq, Repr

/-- What a step answers. -/
inductive Reply (K : Type) where
  | value (v : Int32)
  | pair (e : K × Int32)
  | pair? (e? : Option (K × Int32))
deriving DecidableEq, Repr

/-- Takes a step. -/
def take (w : Walk K) : Step → Outcome Failure (Walk K) (Reply K)
  | .next => .ok (.pair? w.next.1) w.next.2
  | .current? => .ok (.pair? w.current?) w
  | .set v => (w.set v).map .value
  | .erase => w.erase.map .pair

/-- Takes steps one after the other, each from where the one before it led, whether that one
answered or failed: their results and the last position. -/
def takeAll (w : Walk K) : List Step → List (Except Failure (Reply K)) × Walk K
  | [] => ([], w)
  | s :: ss =>
    let o := w.take s
    let (rs, w') := takeAll o.state ss
    (o.result :: rs, w')

end Walk

end Map

end LinearProbe
