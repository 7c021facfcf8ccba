import LinearProbe.Table.Probe

/-!
# Inserting, resizing and erasing

An insert writes its entry into the free spot of the key and counts it. If that brings the number
of entries above the threshold, the table then grows: `Table.grow` looks for the first doubling
of the slots whose threshold admits the entries, and `Table.rehash` moves every entry to a new
row of that many slots. `Table.compact` moves them to the least row that admits them, if that is
a smaller one. The new row is asked for before anything is moved, so a resize that aborts leaves the
table it was given. An insert whose growth aborts leaves the table with the entry inserted.

Erasing leaves a gap in the run of entries that follows. An entry whose probe path passes over
the gap would no longer be found, so `Table.closeGap` walks the run up to the next empty slot and
moves such entries back: an entry that lies at least as far from its home as from the gap moves
into it and leaves the gap where it was. Entries whose home lies behind the gap stay, but the
walk goes on behind them. Each move brings an entry nearer to its home and no more than one lap of
the row lies between two moves, so with `n` slots the walk ends within `n ^ 3 + n` steps,
`Table.gapSteps`.
-/

namespace LinearProbe.Table

variable {K : Type}

/-! ## Moving all entries -/

/-- An entry placed in the first empty slot from its home on. The number of entries is not
touched. -/
def place (hash : K → UInt64) (t : Table K) (e : K × Int32) : Except Abort (Table K) :=
  (t.locate (hash e.1) fun _ => false).map fun spot => t.write spot.index e.1 e.2

/-- All entries moved, by index, to a new row of slots. -/
def rehash [Stored K] (hash : K → UInt64) (slots : Nat) (t : Table K) : Except Abort (Table K) :=
  if isAllocatable K slots then
    t.entries.foldlM (place hash) { (empty slots t.loadFactor : Table K) with size := t.size }
  else .error .capacityOverflow

/-- The entries moved to a row of at least twice as many slots. -/
def grow [Stored K] (hash : K → UInt64) (t : Table K) : Except Abort (Table K) :=
  match fitting? t.loadFactor t.size (2 * t.capacity) with
  | some slots => t.rehash hash slots
  | none => .error .capacityOverflow

/-- The entries moved to the least row that admits them, unless the row is as small already. -/
def compact [Stored K] (hash : K → UInt64) (t : Table K) : Outcome Abort (Table K) Unit :=
  match fitting? t.loadFactor t.size minCapacity with
  | none => .error .capacityOverflow t
  | some slots =>
    if slots < t.capacity then
      match t.rehash hash slots with
      | .ok t' => .ok () t'
      | .error e => .error e t
    else .ok () t

/-! ## Inserting -/

/-- An entry written into an empty slot and counted. -/
def store (t : Table K) (i : Nat) (k : K) (v : Int32) : Table K :=
  { t.write i k v with size := t.size + 1 }

/-- An entry inserted into the free spot `i` of its key. The table grows if it then holds more
entries than its threshold. -/
def insertAt [Stored K] (hash : K → UInt64) (t : Table K) (i : Nat) (k : K) (v : Int32) :
    Outcome Abort (Table K) Unit :=
  let stored := t.store i k v
  if stored.threshold < stored.size then
    match stored.grow hash with
    | .ok t' => .ok () t'
    | .error e => .error e stored
  else .ok () stored

/-- An entry inserted, or its value overwritten if the key is held; the answer is the value
before. -/
def insert? [Stored K] (hash : K → UInt64) (t : Table K) (h : UInt64) (p : K → Bool) (k : K)
    (v : Int32) : Outcome Abort (Table K) (Option Int32) :=
  match t.locate h p with
  | .error e => .error e t
  | .ok (.held i) => .ok (some (t.value i)) (t.writeValue i v)
  | .ok (.free i) => (t.insertAt hash i k v).map fun _ => none

/-! ## Erasing -/

/-- The entry of slot `i` moved to the empty slot `gap`. -/
def shift (t : Table K) (i gap : Nat) (k : K) : Table K :=
  (t.write gap k (t.value i)).vacate i

/-- Closes the gap, looking at the slots after slot `i` in at most `n` steps. -/
def closeGapFrom (hash : K → UInt64) : Nat → Table K → Nat → Nat → Except Abort (Table K)
  | 0, _, _, _ => .error .endless
  | n + 1, t, gap, i =>
    let j := t.next i
    match t.key? j with
    | none => .ok t
    | some k =>
      if t.distance gap j ≤ t.displacement (hash k) j then
        closeGapFrom hash n (t.shift j gap k) j j
      else closeGapFrom hash n t gap j

/-- A bound on the steps of closing a gap. -/
def gapSteps (t : Table K) : Nat :=
  t.capacity * t.capacity * t.capacity + t.capacity

/-- Moves the entries behind an empty slot back over it, as far as their probe paths cross it. -/
def closeGap (hash : K → UInt64) (t : Table K) (gap : Nat) : Except Abort (Table K) :=
  closeGapFrom hash t.gapSteps t gap gap

/-- The slot made empty and the entry in it no longer counted. -/
def takeOut (t : Table K) (i : Nat) : Table K :=
  { t.vacate i with size := t.size - 1 }

/-- The entry in a slot of the row erased and the gap closed; the answer is the entry. -/
def eraseAt? (hash : K → UInt64) (t : Table K) (i : Nat) :
    Outcome Abort (Table K) (Option (K × Int32)) :=
  match t.checkIndex i with
  | .error e => .error e t
  | .ok _ =>
    match t.slot? i with
    | none => .ok none t
    | some e =>
      let t' := t.takeOut i
      match t'.closeGap hash i with
      | .ok t'' => .ok (some e) t''
      | .error a => .error a t'

/-- The key erased; the answer is its entry. -/
def erase? (hash : K → UInt64) (t : Table K) (h : UInt64) (p : K → Bool) :
    Outcome Abort (Table K) (Option (K × Int32)) :=
  match t.indexOf? h p with
  | .error e => .error e t
  | .ok none => .ok none t
  | .ok (some i) => t.eraseAt? hash i

end LinearProbe.Table
