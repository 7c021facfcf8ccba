import LinearProbe.Failure
import LinearProbe.Key

/-!
# Slot counts, thresholds and construction parameters

A table has a power of two of slots, at least `minCapacity`, and every count of slots is below
`wordSize`. `capacityFor` is the least such count that a hint asks for; `isAllocatable` says
whether that many slots fit into memory.

A load factor turns a count of slots into a `threshold`, the number of entries above which a
table grows. It is computed as the product of two doubles, cut to a whole number. `fitting?` is
the first of the counts `c, 2 c, 4 c, …` whose threshold admits a number of entries.

A `Config` holds what a map is built from: a hint for the number of slots, a load factor, and the
value that stands for absence. `Config.validate` refuses a load factor that is not strictly
between 0 and 1; `Config.capacity` and `Config.threshold` are what a map built from the
parameters starts with.
-/

namespace LinearProbe

/-! ## Slot counts -/

/-- The least number of slots. -/
def minCapacity : Nat :=
  8

/-- Sizes and counts are below this. -/
def wordSize : Nat :=
  UInt64.size

/-- The bytes of a slot's value cell. -/
def valueBytes : Nat :=
  4

/-- The most bytes that one allocation can have. -/
def maxAllocation : Nat :=
  0x7fffffffffffffff

/-- The least power of two that is not below `n`. -/
def leastPowerOfTwo (n : Nat) : Nat :=
  if n ≤ 1 then 1 else 1 <<< ((n - 1).log2 + 1)

/-- The number of slots for a hint: the least power of two that is neither below the hint nor
below `minCapacity`, if it is a size. -/
def capacityFor (hint : UInt64) : Except Abort Nat :=
  let slots := leastPowerOfTwo (max hint.toNat minCapacity)
  if slots < wordSize then .ok slots else .error .capacityOverflow

/-- Key cells and value cells of that many slots can each be allocated. -/
def isAllocatable (K : Type) [Stored K] (slots : Nat) : Bool :=
  slots * Stored.cellBytes K ≤ maxAllocation && slots * valueBytes ≤ maxAllocation

/-- The number of entries that so many slots may hold under a load factor: the product as a
double, its fraction cut off, and held to the range of sizes. -/
def threshold (slots : Nat) (loadFactor : Single) : Nat :=
  match loadFactor.magnitude with
  | .nan => 0
  | .infinite => if loadFactor.isNegative || slots = 0 then 0 else wordSize - 1
  | .finite _ =>
    if loadFactor.isNegative then 0
    else min ((Binary.ofNat slots).mul loadFactor.toBinary).floor (wordSize - 1)

/-- The count and its doublings, as far as any of them can be a size. -/
def doublings (slots : Nat) : List Nat :=
  (List.range 64).map fun j => slots <<< j

/-- The first of the count and its doublings that is a size and may hold that many entries. -/
def fitting? (loadFactor : Single) (entries slots : Nat) : Option Nat :=
  (doublings slots).find? fun c => c < wordSize && entries ≤ threshold c loadFactor

/-! ## Parameters -/

/-- The load factor used when none is given, 0.65. -/
def defaultLoadFactor : Single :=
  ⟨1059481190⟩

/-- The value that stands for absence when none is given. -/
def defaultMissing : Int32 :=
  -1

/-- Parameters of a map. -/
structure Config where
  /-- How many slots to start with, before rounding up. -/
  capacityHint : UInt64 := 8
  /-- The fraction of slots that may be occupied. -/
  loadFactor : Single := defaultLoadFactor
  /-- The value that stands for absence. -/
  missing : Int32 := defaultMissing
deriving DecidableEq, Repr

namespace Config

/-- Refuses a load factor that is not strictly between 0 and 1. -/
def validate (c : Config) : Except Error Unit :=
  if c.loadFactor.isFraction then .ok () else .error (.invalidLoadFactor c.loadFactor)

/-- The number of slots to start with. -/
def capacity (c : Config) : Except Abort Nat :=
  capacityFor c.capacityHint

/-- The threshold to start with. -/
def threshold (c : Config) : Except Abort Nat :=
  c.capacity.map fun slots => LinearProbe.threshold slots c.loadFactor

/-- The parameters as a record. -/
def inspect (c : Config) : String :=
  Layout.inline.record "MapConfig"
    [("initial_capacity", toString c.capacityHint), ("load_factor", c.loadFactor.inspect),
     ("missing_value", toString c.missing)]

/-- The parameters agree, the load factors compared as numbers. -/
def sameAs (c d : Config) : Bool :=
  c.capacityHint = d.capacityHint && c.loadFactor.numEq d.loadFactor && c.missing = d.missing

end Config

end LinearProbe
