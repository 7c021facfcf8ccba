import LinearProbe.Map.Command

/-!
# Dictionaries

A `Dictionary` is what a map is about without its slots: a list of entries with unequal keys, and
the value that stands for absence. It answers the same commands as a map
(`Dictionary.perform`), by going through the list. An entry keeps the key it was inserted with
when its value is overwritten with an equal key.
-/

namespace LinearProbe

/-- A finite association of keys with 32-bit integers, one of which stands for absence. -/
structure Dictionary (K : Type) where
  entries : List (K × Int32)
  missing : Int32
deriving Repr

namespace Dictionary

variable {K : Type}

/-- The entries that are accepted. -/
def filter (d : Dictionary K) (p : K → Int32 → Bool) : Dictionary K :=
  { d with entries := d.entries.filter fun e => p e.1 e.2 }

variable [BEq K]

/-- The entry of a key. -/
def find? (d : Dictionary K) (k : K) : Option (K × Int32) :=
  d.entries.find? fun e => e.1 == k

/-- The value of a key. -/
def get? (d : Dictionary K) (k : K) : Option Int32 :=
  (d.find? k).map Prod.snd

/-- The value of a key set. -/
def set (d : Dictionary K) (k : K) (v : Int32) : Dictionary K :=
  match d.find? k with
  | none => { d with entries := d.entries ++ [(k, v)] }
  | some _ =>
    { d with entries := d.entries.map fun e => if e.1 == k then (e.1, v) else e }

/-- A key erased. -/
def erase (d : Dictionary K) (k : K) : Dictionary K :=
  d.filter fun k' _ => !(k' == k)

/-- The value of a key set, or the key erased if the value is the missing one. -/
def settle (d : Dictionary K) (k : K) (v : Int32) : Dictionary K :=
  if v = d.missing then d.erase k else d.set k v

/-- Carries out an operation if its value may be stored. -/
def permitting {α : Type} (d : Dictionary K) (v : Int32) (o : Outcome Failure (Dictionary K) α) :
    Outcome Failure (Dictionary K) α :=
  if v = d.missing then .error (.refused (.missingValue v)) d else o

/-- Sets the values of keys in order, up to the first that is the missing value. -/
def setMany (d : Dictionary K) : List (K × Int32) → Outcome Failure (Dictionary K) Unit
  | [] => .ok () d
  | (k, v) :: rest =>
    if v = d.missing then .error (.aborted (.rejected (.missingValue v))) d
    else setMany (d.set k v) rest

/-- Carries out a command. -/
def perform (d : Dictionary K) : Map.Command K → Outcome Failure (Dictionary K) (Map.Answer K)
  | .get k => .ok (.value ((d.get? k).getD d.missing)) d
  | .get? k => .ok (.value? (d.get? k)) d
  | .getD k v => .ok (.value ((d.get? k).getD v)) d
  | .getPair? k => .ok (.pair? (d.find? k)) d
  | .contains k => .ok (.flag (d.find? k).isSome) d
  | .containsValue v => .ok (.flag (d.entries.any fun e => e.2 = v)) d
  | .require k =>
    match d.get? k with
    | some v => .ok (.value v) d
    | none => .error (.aborted .keyNotFound) d
  | .insert k v => d.permitting v (.ok (.value ((d.get? k).getD d.missing)) (d.set k v))
  | .insert? k v => d.permitting v (.ok (.value? (d.get? k)) (d.set k v))
  | .insertMany es => (d.setMany es).map fun _ => .done
  | .replace? k v =>
    d.permitting v (.ok (.value? (d.get? k)) (if (d.get? k).isSome then d.set k v else d))
  | .erase k => .ok (.value ((d.get? k).getD d.missing)) (d.erase k)
  | .erase? k => .ok (.value? (d.get? k)) (d.erase k)
  | .erasePair? k => .ok (.pair? (d.find? k)) (d.erase k)
  | .getOrInsertWith k f =>
    match d.get? k with
    | some v => .ok (.value v) d
    | none => .ok (.value (f k)) (d.settle k (f k))
  | .modify k f =>
    match d.find? k with
    | some (k', v) => .ok (.value (f k' v)) (d.settle k (f k' v))
    | none => .ok (.value d.missing) d
  | .combine k v f =>
    let combined := match d.get? k with
      | some old => f old v
      | none => v
    d.permitting v (.ok (.value combined) (d.settle k combined))
  | .filter p => .ok .done (d.filter p)
  | .compact => .ok .done d
  | .clear => .ok .done { d with entries := [] }

/-- Carries out commands one after the other, each on what the one before it left: their results
and the last dictionary. -/
def performAll (d : Dictionary K) :
    List (Map.Command K) → List (Except Failure (Map.Answer K)) × Dictionary K
  | [] => ([], d)
  | c :: cs =>
    let o := d.perform c
    let (rs, d') := performAll o.state cs
    (o.result :: rs, d')

end Dictionary

end LinearProbe
