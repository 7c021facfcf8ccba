import LinearProbe.Table.Basic
import Mathlib.Algebra.Ring.Nat

/-!
# What a table keeps true

`Table.WellFormed` gathers what every operation keeps true of a table under a hash function, as
long as that function is the only one used: the two rows are aligned and have a power of two of
cells (`Aligned`), the entries are counted (`Counted`), there are no more of them than the load
factor allows, which leaves an empty slot (`Loaded`), every entry is met by the probe for its key
(`Reachable`), no two slots hold equal keys (`Distinct`), and the value cells of empty slots are
zero (`Zeroed`).

`exactThreshold` is the threshold computed without rounding.
-/

namespace LinearProbe

/-- The whole part of the exact product of a number of slots and a finite load factor. -/
def exactThreshold (slots : Nat) (loadFactor : Single) : Nat :=
  slots * loadFactor.units / Single.unitsPerOne

namespace Table

variable {K : Type}

/-- The slot holds an entry. -/
def Occupied (t : Table K) (i : Nat) : Prop :=
  (t.key? i).isSome

instance (t : Table K) : DecidablePred t.Occupied :=
  fun i => inferInstanceAs (Decidable ((t.key? i).isSome = true))

/-- Some slot of the row is empty. -/
def HasGap (t : Table K) : Prop :=
  ∃ i, i < t.capacity ∧ ¬t.Occupied i

instance (t : Table K) : Decidable t.HasGap :=
  inferInstanceAs (Decidable (∃ i, i < t.capacity ∧ ¬t.Occupied i))

/-- Both rows have as many cells, a power of two and at least the least number of slots. -/
structure Aligned (t : Table K) : Prop where
  size_values : t.values.size = t.capacity
  isPowerOfTwo : ∃ n, t.capacity = 2 ^ n
  minCapacity_le : minCapacity ≤ t.capacity

/-- The number of entries is the number of occupied slots. -/
def Counted (t : Table K) : Prop :=
  t.size = t.occupied.length

instance (t : Table K) : Decidable t.Counted :=
  inferInstanceAs (Decidable (t.size = t.occupied.length))

/-- The entries are no more than the load factor allows. -/
structure Loaded (t : Table K) : Prop where
  size_le : t.size ≤ t.threshold
  threshold_eq : t.threshold = exactThreshold t.capacity t.loadFactor
  threshold_lt : t.threshold < t.capacity

/-- Every slot from the home of an entry up to the entry is occupied. -/
def Reachable (hash : K → UInt64) (t : Table K) : Prop :=
  ∀ i k, i < t.capacity → t.key? i = some k →
    ∀ d, d < t.displacement (hash k) i → t.Occupied ((t.home (hash k) + d) % t.capacity)

instance (hash : K → UInt64) (t : Table K) : Decidable (t.Reachable hash) :=
  decidable_of_iff (∀ i, i < t.capacity → ∀ k ∈ t.key? i, ∀ d, d < t.displacement (hash k) i →
      t.Occupied ((t.home (hash k) + d) % t.capacity))
    ⟨fun h i k hi hk => h i hi k hk, fun h i hi k hk => h i k hi hk⟩

/-- No two slots hold equal keys. -/
def Distinct [BEq K] (t : Table K) : Prop :=
  ∀ i j k l, t.key? i = some k → t.key? j = some l → (k == l) = true → i = j

/-- The value cells of empty slots are zero. -/
def Zeroed (t : Table K) : Prop :=
  ∀ i, t.key? i = none → t.value i = 0

/-- What every operation keeps true under one hash function. -/
structure WellFormed [BEq K] (hash : K → UInt64) (t : Table K) : Prop where
  aligned : t.Aligned
  counted : t.Counted
  loaded : t.Loaded
  reachable : t.Reachable hash
  distinct : t.Distinct
  zeroed : t.Zeroed

end Table

end LinearProbe
