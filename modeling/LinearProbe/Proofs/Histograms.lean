import LinearProbe.Table.Stats
import Mathlib.Algebra.Ring.Nat

/-!
# What the counts of a histogram add up to

A histogram counts the displacements one after the other, so each count says how often its place
occurs among them (`Table.getD_counts_histogram`), and the counts end at the largest one
(`Table.lt_size_counts_histogram`). The counts add up to the number of entries
(`Table.total_histogram`), and weighted with their places to the sum of all displacements
(`Table.totalDisplacement_histogram`).
-/

namespace LinearProbe

namespace Histogram

theorem foldr_add (counts : Array Nat) : counts.foldr (· + ·) 0 = counts.toList.sum := by
  rw [← Array.foldr_toList]
  rfl

theorem toList_add (counts : Array Nat) (d : Nat) : (add counts d).toList =
    (counts.toList ++ List.replicate (d + 1 - counts.size) 0).modify d (· + 1) := by
  simp [add]

theorem sum_modify {l : List Nat} {d : Nat} (hd : d < l.length) :
    (l.modify d (· + 1)).sum = l.sum + 1 := by
  induction l generalizing d with
  | nil => simp at hd
  | cons n l ih =>
    cases d with
    | zero => simp; omega
    | succ d =>
      have := ih (d := d) (by simpa using hd)
      simp only [List.modify_succ_cons, List.sum_cons]
      omega

/-- Counts weighted by their places, the first of which is `o`. -/
def weighted (o : Nat) (l : List Nat) : Nat :=
  (l.mapIdx fun i n => (o + i) * n).sum

theorem weighted_cons (o n : Nat) (l : List Nat) :
    weighted o (n :: l) = o * n + weighted (o + 1) l := by
  simp [weighted, List.mapIdx_cons, Nat.add_assoc, Nat.add_comm 1]

theorem weighted_append_zeros (o : Nat) (l : List Nat) (m : Nat) :
    weighted o (l ++ List.replicate m 0) = weighted o l := by
  induction l generalizing o with
  | nil =>
    induction m generalizing o with
    | zero => rfl
    | succ m ih =>
      rw [List.nil_append] at ih ⊢
      rw [List.replicate_succ, weighted_cons, ih, Nat.mul_zero]
      rfl
  | cons n l ih => rw [List.cons_append, weighted_cons, weighted_cons, ih]

theorem weighted_modify (o : Nat) {l : List Nat} {d : Nat} (hd : d < l.length) :
    weighted o (l.modify d (· + 1)) = weighted o l + (o + d) := by
  induction l generalizing o d with
  | nil => simp at hd
  | cons n l ih =>
    cases d with
    | zero =>
      rw [List.modify_zero_cons, weighted_cons, weighted_cons, Nat.mul_add]
      omega
    | succ d =>
      rw [List.modify_succ_cons, weighted_cons, weighted_cons, ih (o + 1) (by simpa using hd)]
      omega

theorem totalDisplacement_eq (counts : Array Nat) :
    totalDisplacement ⟨counts⟩ = weighted 0 counts.toList := by
  rw [totalDisplacement, foldr_add]
  simp [weighted]

theorem totalDisplacement_add (counts : Array Nat) (d : Nat) :
    totalDisplacement ⟨add counts d⟩ = totalDisplacement ⟨counts⟩ + d := by
  rw [totalDisplacement_eq, totalDisplacement_eq, toList_add, weighted_modify,
    weighted_append_zeros, Nat.zero_add]
  simp only [List.length_append, Array.length_toList, List.length_replicate]
  omega

theorem total_add (counts : Array Nat) (d : Nat) :
    total ⟨add counts d⟩ = total ⟨counts⟩ + 1 := by
  rw [total, total, foldr_add, foldr_add, toList_add, sum_modify]
  · simp
  · simp only [List.length_append, Array.length_toList, List.length_replicate]
    omega

/-- Counting displacements one after the other adds them up. -/
theorem totalDisplacement_foldl (ds : List Nat) (counts : Array Nat) :
    totalDisplacement ⟨ds.foldl add counts⟩ = totalDisplacement ⟨counts⟩ + ds.sum := by
  induction ds generalizing counts with
  | nil => rfl
  | cons d ds ih =>
    rw [List.foldl_cons, ih, totalDisplacement_add, List.sum_cons, Nat.add_assoc]

theorem total_foldl (ds : List Nat) (counts : Array Nat) :
    total ⟨ds.foldl add counts⟩ = total ⟨counts⟩ + ds.length := by
  induction ds generalizing counts with
  | nil => rfl
  | cons d ds ih =>
    rw [List.foldl_cons, ih, total_add, List.length_cons, Nat.add_assoc, Nat.add_comm 1]

theorem lt_size_add (counts : Array Nat) (d e : Nat) :
    e < (add counts d).size ↔ e < counts.size ∨ e ≤ d := by
  simp only [add, Array.size_modify, Array.size_append, Array.size_replicate]
  omega

/-- One more displacement adds one at its place and nothing elsewhere. -/
theorem getD_add (counts : Array Nat) (d e : Nat) :
    (add counts d).getD e 0 = counts.getD e 0 + if d = e then 1 else 0 := by
  have hfill : (counts ++ Array.replicate (d + 1 - counts.size) 0).getD e 0 = counts.getD e 0 := by
    simp only [Array.getD_eq_getD_getElem?, Array.getElem?_append, Array.getElem?_replicate]
    split
    · rfl
    · next h =>
      rw [Array.getElem?_eq_none (Nat.le_of_not_lt h)]
      split <;> rfl
  rw [← hfill]
  simp only [add, Array.getD_eq_getD_getElem?, Array.getElem?_modify]
  split
  · next h =>
    subst h
    rw [Array.getElem?_eq_getElem (by simp; omega)]
    rfl
  · rfl

theorem getD_foldl (ds : List Nat) (counts : Array Nat) (e : Nat) :
    (ds.foldl add counts).getD e 0 = counts.getD e 0 + ds.count e := by
  induction ds generalizing counts with
  | nil => rfl
  | cons d ds ih =>
    rw [List.foldl_cons, ih, getD_add, List.count_cons, Nat.add_assoc, Nat.add_comm (ite _ _ _)]
    simp

/-- The counts go up to the largest displacement and no further. -/
theorem lt_size_foldl (ds : List Nat) (counts : Array Nat) (e : Nat) :
    e < (ds.foldl add counts).size ↔ e < counts.size ∨ ∃ d ∈ ds, e ≤ d := by
  induction ds generalizing counts with
  | nil => simp
  | cons d ds ih =>
    simp only [List.foldl_cons, ih, lt_size_add, List.mem_cons, exists_eq_or_imp, or_assoc]

end Histogram

namespace Table

variable {K : Type} {hash : K → UInt64} {t : Table K}

theorem totalDisplacement_histogram :
    (t.histogram hash).totalDisplacement = (t.displacements hash).sum := by
  rw [histogram, Histogram.totalDisplacement_foldl]
  exact Nat.zero_add _

theorem total_histogram : (t.histogram hash).total = (t.displacements hash).length := by
  rw [histogram, Histogram.total_foldl]
  exact Nat.zero_add _

theorem getD_counts_histogram (d : Nat) :
    (t.histogram hash).counts.getD d 0 = (t.displacements hash).count d := by
  rw [histogram, Histogram.getD_foldl]
  exact Nat.zero_add _

theorem lt_size_counts_histogram {d : Nat} :
    d < (t.histogram hash).counts.size ↔ ∃ e ∈ t.displacements hash, d ≤ e := by
  rw [histogram, Histogram.lt_size_foldl]
  exact or_iff_right (Nat.not_lt_zero _)

end Table

end LinearProbe
