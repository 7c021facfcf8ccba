import LinearProbe.Capacity

/-!
# Tables of slots

A `Table` is a cyclic row of slots. Each slot has a key cell, empty or holding a key, and a value
cell, zero while the slot is empty; the two rows of cells are aligned by index. Beside them stand
the number of entries (`size`), the number of entries above which an insert grows the table
(`threshold`), and the load factor.

A table never hashes a key itself and never compares two. Every operation that looks for a key is
given its hash and a predicate that accepts it, and every operation that moves keys is given the
function that hashes them.

Indices are taken modulo the number of slots: `next` is the slot after a slot, `distance` counts
the steps from one slot forward to another, and `home` is the slot where the probe for a hash
begins. Hash functions often leave their low bits poorly distributed; a small integer that hashes to
itself is the usual case. Since the low bits choose the home, `spread` first mixes all bits of a
hash into one another: it folds the upper half onto the lower, multiplies by an odd constant, and
folds again.
-/

namespace LinearProbe

/-! ## Spreading a hash -/

/-- The upper bits folded onto the lower ones. -/
def foldUpper (x : UInt64) : UInt64 :=
  x ^^^ (x >>> 33)

/-- The odd multiplier between the two folds. -/
def spreadMultiplier : UInt64 :=
  0xff51afd7ed558ccd

/-- A hash with its bits mixed. -/
def spread (hash : UInt64) : UInt64 :=
  foldUpper (foldUpper hash * spreadMultiplier)

/-! ## Tables -/

/-- A row of slots, with the bookkeeping of its entries. -/
structure Table (K : Type) where
  keys : Array (Option K)
  values : Array Int32
  size : Nat
  threshold : Nat
  loadFactor : Single
deriving DecidableEq, Repr

namespace Table

variable {K : Type}

/-! ## Slots -/

/-- The number of slots. -/
def capacity (t : Table K) : Nat :=
  t.keys.size

/-- The table has no entries. -/
def isEmpty (t : Table K) : Bool :=
  t.size = 0

/-- The key in a slot. -/
def key? (t : Table K) (i : Nat) : Option K :=
  t.keys.getD i none

/-- The value cell of a slot. -/
def value (t : Table K) (i : Nat) : Int32 :=
  t.values.getD i 0

/-- The entry in a slot. -/
def slot? (t : Table K) (i : Nat) : Option (K × Int32) :=
  (t.key? i).map fun k => (k, t.value i)

/-- The slots that hold an entry, by index. -/
def occupied (t : Table K) : List Nat :=
  (List.range t.capacity).filter fun i => (t.key? i).isSome

/-- The entries by index of their slots. -/
def entries (t : Table K) : List (K × Int32) :=
  (List.range t.capacity).filterMap t.slot?

/-! ## Positions -/

/-- The slot after a slot. -/
def next (t : Table K) (i : Nat) : Nat :=
  (i + 1) % t.capacity

/-- The number of steps from slot `i` forward to slot `j`. -/
def distance (t : Table K) (i j : Nat) : Nat :=
  (j + t.capacity - i) % t.capacity

/-- The slot where the probe for a hash begins. -/
def home (t : Table K) (hash : UInt64) : Nat :=
  (spread hash).toNat % t.capacity

/-- How far the entry in slot `i` with a key of the given hash is from its home. -/
def displacement (t : Table K) (hash : UInt64) (i : Nat) : Nat :=
  t.distance (t.home hash) i

/-! ## Writing cells -/

/-- An entry written into a slot. -/
def write (t : Table K) (i : Nat) (k : K) (v : Int32) : Table K :=
  { t with keys := t.keys.setIfInBounds i (some k), values := t.values.setIfInBounds i v }

/-- A value written into the value cell of a slot. -/
def writeValue (t : Table K) (i : Nat) (v : Int32) : Table K :=
  { t with values := t.values.setIfInBounds i v }

/-- A slot made empty. -/
def vacate (t : Table K) (i : Nat) : Table K :=
  { t with keys := t.keys.setIfInBounds i none, values := t.values.setIfInBounds i 0 }

/-! ## Construction -/

/-- A table of that many empty slots. -/
def empty (slots : Nat) (loadFactor : Single) : Table K where
  keys := Array.replicate slots none
  values := Array.replicate slots 0
  size := 0
  threshold := LinearProbe.threshold slots loadFactor
  loadFactor := loadFactor

/-- An empty table for a hint. -/
def ofHint [Stored K] (hint : UInt64) (loadFactor : Single) : Except Abort (Table K) :=
  match capacityFor hint with
  | .error e => .error e
  | .ok slots => if isAllocatable K slots then .ok (empty slots loadFactor)
    else .error .capacityOverflow

/-- All entries removed, the slots kept. -/
def clear (t : Table K) : Table K :=
  { t with
    keys := Array.replicate t.keys.size none
    values := Array.replicate t.values.size 0
    size := 0 }

end Table

end LinearProbe
