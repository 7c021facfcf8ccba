import LinearProbe.Table.Session

/-!
# Operations with every step checked

The operations on a table are total : a slot outside the row reads as empty and cannot be written,
and no count falls below zero. The operations of this module do the same, and end with a `Fault`
where one of these cases would arise, where an assertion does not hold, or where a case is met that
had to be impossible.

They are also given closures that may answer otherwise each time they are asked : a closure is a
function of how often it was asked before. A `Request` is a call with such closures, and
`Checked.perform` carries it out. `Command.steady` is the request of a command, whose closures
answer always the same.
-/

namespace LinearProbe

/-- What must not happen while an operation runs. -/
inductive Fault where
  /-- A slot outside the row. -/
  | outOfRange (size index : Nat)
  /-- A count below zero. -/
  | underflow
  /-- An assertion that does not hold. -/
  | violated
  /-- A case that had to be impossible. -/
  | unreachable
deriving DecidableEq, Repr

/-- Why a checked operation does not answer. -/
inductive Mishap where
  | fault (fault : Fault)
  | abort (abort : Abort)
deriving DecidableEq, Repr

/-- Ends with a fault unless the condition holds. -/
def require (p : Prop) [Decidable p] (fault : Fault) : Except Mishap Unit :=
  if p then .ok () else .error (.fault fault)

/-- A closure after it was asked once. -/
def later {α : Type} (f : Nat → α) : Nat → α :=
  fun n => f (n + 1)

namespace Table.Checked

variable {K : Type}

/-! ## Cells -/

/-- The key in a slot. -/
def key (t : Table K) (i : Nat) : Except Mishap (Option K) := do
  require (i < t.keys.size) (.outOfRange t.keys.size i)
  return t.key? i

/-- The value cell of a slot. -/
def value (t : Table K) (i : Nat) : Except Mishap Int32 := do
  require (i < t.values.size) (.outOfRange t.values.size i)
  return t.value i

/-- An entry written into a slot. -/
def write (t : Table K) (i : Nat) (k : K) (v : Int32) : Except Mishap (Table K) := do
  require (i < t.keys.size) (.outOfRange t.keys.size i)
  require (i < t.values.size) (.outOfRange t.values.size i)
  return t.write i k v

/-- A value written into the value cell of a slot. -/
def writeValue (t : Table K) (i : Nat) (v : Int32) : Except Mishap (Table K) := do
  require (i < t.values.size) (.outOfRange t.values.size i)
  return t.writeValue i v

/-- A slot made empty. -/
def vacate (t : Table K) (i : Nat) : Except Mishap (Table K) := do
  require (i < t.keys.size) (.outOfRange t.keys.size i)
  require (i < t.values.size) (.outOfRange t.values.size i)
  return t.vacate i

/-- The largest slot index, by which positions are cut off, is not below zero. -/
def masked (t : Table K) : Except Mishap Unit :=
  require (0 < t.keys.size) .underflow

/-! ## Look-ups -/

/-- Probes at most `n` slots, from slot `i` on. -/
def locateFrom (t : Table K) : Nat → (Nat → K → Bool) → Nat → Except Mishap Spot
  | 0, _, _ => .error (.abort .endless)
  | n + 1, accepts, i => do
    match ← key t i with
    | none => return .free i
    | some k =>
      if accepts 0 k then return .held i else locateFrom t n (later accepts) (t.next i)

/-- Where the probe for a hash stops. -/
def locate (t : Table K) (h : UInt64) (accepts : Nat → K → Bool) : Except Mishap Spot := do
  masked t
  locateFrom t t.capacity accepts (t.home h)

/-- The key that is held, with its value. -/
def find? (t : Table K) (h : UInt64) (accepts : Nat → K → Bool) :
    Except Mishap (Option (K × Int32)) := do
  match ← locate t h accepts with
  | .free _ => return none
  | .held i =>
    match ← key t i with
    | none => .error (.fault .unreachable)
    | some k => return some (k, ← value t i)

/-- The value in a slot, if the slot holds an entry. -/
def valueAt? (t : Table K) (i : Nat) : Except Mishap (Option Int32) := do
  match ← key t i with
  | none => return none
  | some _ => return some (← value t i)

/-! ## Overwriting -/

/-- The value of the key overwritten, if the key is held. -/
def replace? (t : Table K) (h : UInt64) (accepts : Nat → K → Bool) (v : Int32) :
    Except Mishap (Option Int32 × Table K) := do
  match ← locate t h accepts with
  | .free _ => return (none, t)
  | .held i =>
    let old ← value t i
    return (some old, ← writeValue t i v)

/-- The value in a slot overwritten, if the slot holds an entry. -/
def replaceAt? (t : Table K) (i : Nat) (v : Int32) :
    Except Mishap (Option Int32 × Table K) := do
  match ← key t i with
  | none => return (none, t)
  | some _ =>
    let old ← value t i
    return (some old, ← writeValue t i v)

/-! ## Erasing -/

/-- The entry of slot `i` moved to the slot `gap`. -/
def shift (t : Table K) (i gap : Nat) (k : K) : Except Mishap (Table K) := do
  let v ← value t i
  let t' ← write t gap k v
  vacate t' i

/-- Closes the gap in at most `n` steps. In the end the gap has to be empty. -/
def closeGapFrom : Nat → (Nat → K → UInt64) → Table K → Nat → Nat → Except Mishap (Table K)
  | 0, _, _, _, _ => .error (.abort .endless)
  | n + 1, hash, t, gap, i => do
    let j := t.next i
    match ← key t j with
    | none =>
      let last? ← key t gap
      require (last?.isNone = true) .violated
      return t
    | some k =>
      if t.distance gap j ≤ t.displacement (hash 0 k) j then
        let t' ← shift t j gap k
        closeGapFrom n (later hash) t' j j
      else closeGapFrom n (later hash) t gap j

/-- Moves the entries behind an empty slot back over it. -/
def closeGap (hash : Nat → K → UInt64) (t : Table K) (gap : Nat) : Except Mishap (Table K) := do
  masked t
  closeGapFrom t.gapSteps hash t gap gap

/-- The entry in a slot erased and the gap closed. -/
def eraseAt? (hash : Nat → K → UInt64) (t : Table K) (i : Nat) :
    Except Mishap (Option (K × Int32) × Table K) := do
  match ← key t i with
  | none => return (none, t)
  | some k =>
    let v ← value t i
    let t' ← vacate t i
    require (0 < t'.size) .underflow
    return (some (k, v), ← closeGap hash { t' with size := t'.size - 1 } i)

/-- The key erased. Where a probe found it there has to be an entry. -/
def erase? (hash : Nat → K → UInt64) (t : Table K) (h : UInt64) (accepts : Nat → K → Bool) :
    Except Mishap (Option (K × Int32) × Table K) := do
  match ← locate t h accepts with
  | .free _ => return (none, t)
  | .held i =>
    match ← eraseAt? hash t i with
    | (none, _) => .error (.fault .unreachable)
    | (some e, t') => return (some e, t')

/-! ## Inserting and resizing -/

/-- An entry placed in the first empty slot from its home on. -/
def place (h : UInt64) (t : Table K) (e : K × Int32) : Except Mishap (Table K) := do
  let spot ← locate t h fun _ _ => false
  write t spot.index e.1 e.2

/-- Entries placed one after the other. -/
def placeAll : (Nat → K → UInt64) → List (K × Int32) → Table K → Except Mishap (Table K)
  | _, [], t => return t
  | hash, e :: es, t => do
    let t' ← place (hash 0 e.1) t e
    placeAll (later hash) es t'

/-- All entries moved to a new row of slots, which has to admit them. -/
def rehash [Stored K] (hash : Nat → K → UInt64) (slots : Nat) (t : Table K) :
    Except Mishap (Table K) :=
  if isAllocatable K slots then do
    let t' ← placeAll hash t.entries { (empty slots t.loadFactor : Table K) with size := t.size }
    require (t'.size ≤ t'.threshold) .violated
    return t'
  else .error (.abort .capacityOverflow)

/-- The entries moved to a row of at least twice as many slots. -/
def grow [Stored K] (hash : Nat → K → UInt64) (t : Table K) : Except Mishap (Table K) :=
  match fitting? t.loadFactor t.size (2 * t.capacity) with
  | some slots => rehash hash slots t
  | none => .error (.abort .capacityOverflow)

/-- The entries moved to the least row that admits them, unless the row is as small already. -/
def compact [Stored K] (hash : Nat → K → UInt64) (t : Table K) : Except Mishap (Table K) :=
  match fitting? t.loadFactor t.size minCapacity with
  | none => .error (.abort .capacityOverflow)
  | some slots => if slots < t.capacity then rehash hash slots t else return t

/-- An entry inserted into the slot `i`, which has to be empty. -/
def insertAt [Stored K] (hash : Nat → K → UInt64) (t : Table K) (i : Nat) (k : K) (v : Int32) :
    Except Mishap (Table K) := do
  let k? ← key t i
  require (k?.isNone = true) .violated
  let t' ← write t i k v
  let stored := { t' with size := t'.size + 1 }
  if stored.threshold < stored.size then grow hash stored else return stored

/-- An entry inserted, or its value overwritten if the key is held. -/
def insert? [Stored K] (hash : Nat → K → UInt64) (t : Table K) (h : UInt64)
    (accepts : Nat → K → Bool) (k : K) (v : Int32) : Except Mishap (Option Int32 × Table K) := do
  match ← locate t h accepts with
  | .held i =>
    let old ← value t i
    return (some old, ← writeValue t i v)
  | .free i => return (none, ← insertAt hash t i k v)

/-! ## Traversals and cursors -/

/-- The first slot of a traversal. -/
def start (t : Table K) : Except Mishap Nat := do
  masked t
  let _ ← key t (t.capacity - 1)
  return t.start

/-- Both rows are split at the first slot of a traversal. -/
def split (t : Table K) : Except Mishap Unit := do
  let s ← start t
  require (s ≤ t.keys.size) (.outOfRange t.keys.size s)
  require (s ≤ t.values.size) (.outOfRange t.values.size s)

/-- The entries in the order of a traversal. -/
def toList (t : Table K) : Except Mishap (List (K × Int32)) := do
  split t
  return t.toList

/-- The value of the entry that is visited after `n` others overwritten. -/
def setVisited (t : Table K) (n : Nat) (v : Int32) : Except Mishap (Option Int32 × Table K) := do
  split t
  match (t.visits.toList t)[n]? with
  | none => return (none, t)
  | some i =>
    let old ← value t i
    return (some old, ← writeValue t i v)

/-- A cursor in front of the first entry. -/
def newCursor (t : Table K) : Except Mishap Cursor := do
  return ⟨← start t, 0, none⟩

/-- The first slot with an entry among the next `n` ones. -/
def seek (t : Table K) (s : Nat) : Nat → Nat → Except Mishap (Option (Nat × Nat))
  | 0, _ => return none
  | n + 1, visited => do
    let i := (s + visited) % t.capacity
    match ← key t i with
    | some _ => return some (i, visited + 1)
    | none => seek t s n (visited + 1)

/-- The cursor moved to the next entry. -/
def advance (t : Table K) (c : Cursor) : Except Mishap (Option Nat × Cursor) := do
  masked t
  match ← seek t c.start (t.capacity - c.visited) c.visited with
  | some (i, visited) => return (some i, ⟨c.start, visited, some i⟩)
  | none => return (none, ⟨c.start, max c.visited t.capacity, none⟩)

/-- The entry that the cursor stands on erased. -/
def eraseCursor (hash : Nat → K → UInt64) (t : Table K) (c : Cursor) :
    Except Mishap (Option (K × Int32) × Table K × Cursor) :=
  match c.current with
  | none => return (none, t, c)
  | some i => do
    match ← eraseAt? hash t i with
    | (none, t') => return (none, t', { c with current := none })
    | (some e, t') =>
      require (0 < c.visited) .underflow
      return (some e, t', ⟨c.start, c.visited - 1, none⟩)

/-! ## Probe lengths -/

/-- One more entry of displacement `d` counted, after the counts are filled up to its place. -/
def add (counts : Array Nat) (d : Nat) : Except Mishap (Array Nat) := do
  let filled := counts ++ Array.replicate (d + 1 - counts.size) 0
  require (d < filled.size) (.outOfRange filled.size d)
  return filled.modify d (· + 1)

/-- The displacements of the entries in the slots added to the counts. -/
def countAll (t : Table K) :
    (Nat → K → UInt64) → List Nat → Array Nat → Except Mishap (Array Nat)
  | _, [], counts => return counts
  | hash, i :: is, counts => do
    match ← key t i with
    | none => countAll t hash is counts
    | some k =>
      let counts' ← add counts (t.displacement (hash 0 k) i)
      countAll t (later hash) is counts'

/-- The entries counted by displacement. -/
def histogram (hash : Nat → K → UInt64) (t : Table K) : Except Mishap Histogram := do
  masked t
  return ⟨← countAll t hash (List.range t.capacity) #[]⟩

end Table.Checked

/-! ## Requests -/

namespace Table

variable {K : Type}

/-- A call of an operation on a table or its cursor, with closures that may change while they are
asked. -/
inductive Request (K : Type) where
  | insert? (hash : Nat → K → UInt64) (h : UInt64) (accepts : Nat → K → Bool) (key : K)
      (value : Int32)
  | replace? (h : UInt64) (accepts : Nat → K → Bool) (value : Int32)
  | replaceAt? (index : Nat) (value : Int32)
  | erase? (hash : Nat → K → UInt64) (h : UInt64) (accepts : Nat → K → Bool)
  | eraseAt? (hash : Nat → K → UInt64) (index : Nat)
  | compact (hash : Nat → K → UInt64)
  | clear
  | drain (taken : Nat)
  | startCursor
  | advanceCursor
  | eraseCursor (hash : Nat → K → UInt64)
  | find? (h : UInt64) (accepts : Nat → K → Bool)
  | valueAt? (index : Nat)
  | toList
  | setVisited (n : Nat) (value : Int32)
  | histogram (hash : Nat → K → UInt64)

/-- The command as a request, with closures that answer always the same. -/
def Command.steady : Command K → Request K
  | insert? hash h p k v => .insert? (fun _ => hash) h (fun _ => p) k v
  | replace? h p v => .replace? h (fun _ => p) v
  | replaceAt? i v => .replaceAt? i v
  | erase? hash h p => .erase? (fun _ => hash) h fun _ => p
  | eraseAt? hash i => .eraseAt? (fun _ => hash) i
  | compact hash => .compact fun _ => hash
  | clear => .clear
  | drain n => .drain n
  | startCursor => .startCursor
  | advanceCursor => .advanceCursor
  | eraseCursor hash => .eraseCursor fun _ => hash

namespace Checked

/-- Carries out a request. -/
def perform [Stored K] (s : Session K) : Request K → Except Mishap (Answer K × Session K)
  | .insert? hash h p k v => do
    let (old?, t) ← insert? hash s.table h p k v
    return (.value? old?, { s with table := t })
  | .replace? h p v => do
    let (old?, t) ← replace? s.table h p v
    return (.value? old?, { s with table := t })
  | .replaceAt? i v => do
    let (old?, t) ← replaceAt? s.table i v
    return (.value? old?, { s with table := t })
  | .erase? hash h p => do
    let (e?, t) ← erase? hash s.table h p
    return (.pair? e?, { s with table := t })
  | .eraseAt? hash i => do
    let (e?, t) ← eraseAt? hash s.table i
    return (.pair? e?, { s with table := t })
  | .compact hash => return (.done, { s with table := ← compact hash s.table })
  | .clear => return (.done, { s with table := s.table.clear })
  | .drain n =>
    let (it, t) := s.table.drain
    return (.pairs (it.toList.take n), { s with table := t })
  | .startCursor => return (.done, { s with cursor := ← newCursor s.table })
  | .advanceCursor => do
    let (i?, c) ← advance s.table s.cursor
    return (.index? i?, { s with cursor := c })
  | .eraseCursor hash => do
    let (e?, t, c) ← eraseCursor hash s.table s.cursor
    return (.pair? e?, ⟨t, c⟩)
  | .find? h p => return (.pair? (← find? s.table h p), s)
  | .valueAt? i => return (.value? (← valueAt? s.table i), s)
  | .toList => return (.pairs (← toList s.table), s)
  | .setVisited n v => do
    let (old?, t) ← setVisited s.table n v
    return (.value? old?, { s with table := t })
  | .histogram hash => return (.histogram (← histogram hash s.table), s)

/-- Carries out requests one after the other up to the first that does not answer. -/
def run [Stored K] (s : Session K) : List (Request K) → Except Mishap (List (Answer K) × Session K)
  | [] => return ([], s)
  | r :: rs => do
    let (a, s') ← perform s r
    let (as, s'') ← run s' rs
    return (a :: as, s'')

end Checked

end Table

end LinearProbe
