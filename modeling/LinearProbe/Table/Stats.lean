import LinearProbe.Table.Basic

/-!
# Probe lengths, statistics and pictures

The displacement of an entry is the number of slots that a look-up passes over before it finds
the entry. `Table.histogram` counts the entries by displacement; the counts end at the largest
displacement that occurs, so the largest is one less than their number. From the counts follow
the mean displacement and a printed table with the share of each displacement.

`Table.stats` collects how far a table is filled, how far its entries are from their homes, and
how many bytes its slots take; `Stats.report` prints them. A table is inspected as a record whose
last field draws the slots, sixteen a row, with a mark for each occupied one (`Table.picture`).
-/

namespace LinearProbe

/-! ## Probe lengths -/

/-- The number of entries of each displacement, from zero to the largest one. -/
structure Histogram where
  counts : Array Nat
deriving DecidableEq, Repr

namespace Histogram

/-- One more entry of displacement `d`. The counts are filled up with zeros as far as needed. -/
def add (counts : Array Nat) (d : Nat) : Array Nat :=
  (counts ++ Array.replicate (d + 1 - counts.size) 0).modify d (· + 1)

/-- The largest displacement, zero without entries. -/
def maxDisplacement (h : Histogram) : Nat :=
  h.counts.size - 1

/-- The number of entries counted. -/
def total (h : Histogram) : Nat :=
  h.counts.foldr (· + ·) 0

/-- The sum of all displacements. -/
def totalDisplacement (h : Histogram) : Nat :=
  (h.counts.mapIdx fun d n => d * n).foldr (· + ·) 0

/-- The mean displacement, zero without entries. -/
def mean (h : Histogram) : Binary :=
  if h.total = 0 then ⟨0, 0⟩
  else (Binary.ofNat h.totalDisplacement).div (Binary.ofNat h.total)

/-- A part of a whole in percent. -/
def percent (part whole : Nat) : Binary :=
  ((Binary.ofNat part).div (Binary.ofNat whole)).mul (Binary.ofNat 100)

/-- The line for one displacement. -/
def line (h : Histogram) (d count : Nat) : String :=
  alignRight 4 (toString d) ++ ": " ++ alignRight 8 (toString count) ++ " (" ++
    (percent count h.total).fixed 2 ++ "%)\n"

/-- The counts as a table, without the displacements that no entry has. -/
def report (h : Histogram) : String :=
  "=== Probe Length Histogram ===\n" ++
    String.join ((h.counts.toList.zipIdx.filter fun c => c.1 ≠ 0).map fun c => h.line c.2 c.1)

end Histogram

namespace Table

variable {K : Type}

/-- The displacements of the entries under a hash function, by index of their slots. -/
def displacements (hash : K → UInt64) (t : Table K) : List Nat :=
  (List.range t.capacity).filterMap fun i =>
    (t.key? i).map fun k => t.displacement (hash k) i

/-- The entries counted by displacement. -/
def histogram (hash : K → UInt64) (t : Table K) : Histogram :=
  ⟨(t.displacements hash).foldl Histogram.add #[]⟩

end Table

/-! ## Statistics -/

/-- Occupancy, probe lengths and memory of a table. -/
structure Stats where
  size : Nat
  capacity : Nat
  threshold : Nat
  loadFactor : Single
  /-- Entries per slot. -/
  utilization : Binary
  maxDisplacement : Nat
  meanDisplacement : Binary
  /-- The bytes of all slots. -/
  totalBytes : Nat
  /-- The bytes of the empty slots. -/
  wastedBytes : Nat
deriving DecidableEq, Repr

/-- The statistics of a table under a hash function. -/
def Table.stats {K : Type} [Stored K] (hash : K → UInt64) (t : Table K) : Stats :=
  let histogram := t.histogram hash
  let slotBytes := Stored.cellBytes K + valueBytes
  { size := t.size
    capacity := t.capacity
    threshold := t.threshold
    loadFactor := t.loadFactor
    utilization :=
      if t.capacity = 0 then ⟨0, 0⟩ else (Binary.ofNat t.size).div (Binary.ofNat t.capacity)
    maxDisplacement := histogram.maxDisplacement
    meanDisplacement := histogram.mean
    totalBytes := t.capacity * slotBytes
    wastedBytes := (t.capacity - t.size) * slotBytes }

namespace Stats

/-- The share of the bytes that empty slots take, in percent. -/
def wastedPercent (s : Stats) : Binary :=
  if s.totalBytes = 0 then ⟨0, 0⟩ else Histogram.percent s.wastedBytes s.totalBytes

/-- The statistics as text. -/
def report (s : Stats) : String :=
  "=== Int Table Debug Statistics ===\n" ++
  "Population: " ++ toString s.size ++ "/" ++ toString s.capacity ++ " (threshold " ++
    toString s.threshold ++ ", load factor " ++ s.loadFactor.fixed 2 ++ ")\n" ++
  "Slot Usage: " ++ (s.utilization.mul (Binary.ofNat 100)).fixed 2 ++ "% utilization\n" ++
  "Probe Length: max " ++ toString s.maxDisplacement ++ ", mean " ++
    s.meanDisplacement.fixed 3 ++ "\n" ++
  "Total Allocated: " ++ toString s.totalBytes ++ " bytes\n" ++
  "Memory: " ++ toString s.wastedBytes ++ " bytes wasted (" ++ s.wastedPercent.fixed 2 ++ "%)\n"

end Stats

/-! ## Pictures -/

namespace Table

variable {K : Type}

/-- The number of slots drawn in a row. -/
def pictureWidth : Nat :=
  16

/-- A mark for each slot from `first` on, up to the end of the row of the picture or of the table. -/
def pictureRow (t : Table K) (first : Nat) : String :=
  String.ofList ((List.range (min pictureWidth (t.capacity - first))).map fun d =>
    if (t.key? (first + d)).isSome then '#' else '.')

/-- The rows of the picture. -/
def picture (t : Table K) : List String :=
  (List.range ((t.capacity + pictureWidth - 1) / pictureWidth)).map fun r =>
    t.pictureRow (r * pictureWidth)

/-- The table as a record. -/
def inspect (layout : Layout) (t : Table K) : String :=
  layout.record "IntTable"
    [("populated", toString t.size), ("capacity", toString t.capacity),
     ("resize_threshold", toString t.threshold), ("load_factor", t.loadFactor.inspect),
     ("slots", layout.sequence (t.picture.map quote))]

end Table

end LinearProbe
