import LinearProbe.Map.Basic
import LinearProbe.Proofs.Erasing
import LinearProbe.Proofs.Resizing

/-!
# Intact tables

`Intact` is what remains of well-formedness when nothing is known about hashes and comparisons : the
rows are aligned, the entries are counted, and the threshold is the one that the load factor
gives. A table may hold `slack` more entries than its threshold. Erasing (`Removed.intact`), moving
all entries to another row (`intact_of_moved`), overwriting a value (`Intact.writeValue`) and
clearing (`Intact.clear`) keep the slack; an insert keeps it if it is carried out, and adds one to
it if the table can not grow (`Intact.insertAt_cases`), for then the entry stays where it was
written.

Without slack some slot is always empty, and with it as long as threshold and slack are less than
the number of slots (`Intact.hasGap`).
-/

namespace LinearProbe

namespace Table

variable {K : Type} {hash : K → UInt64} {t u : Table K} {i slack slack' : Nat} {k : K} {v : Int32}
  {e : K × Int32}

/-- The rows are aligned, the entries are counted, and there are at most `slack` more of them than
the threshold, which is that of a load factor between 0 and 1. -/
structure Intact (slack : Nat) (t : Table K) : Prop where
  aligned : t.Aligned
  counted : t.Counted
  fraction : t.loadFactor.isFraction = true
  threshold_eq : t.threshold = exactThreshold t.capacity t.loadFactor
  size_le : t.size ≤ t.threshold + slack

namespace Intact

theorem capacity_pos (ht : t.Intact slack) : 0 < t.capacity :=
  Nat.lt_of_lt_of_le (by decide) ht.aligned.minCapacity_le

theorem threshold_lt (ht : t.Intact slack) : t.threshold < t.capacity :=
  ht.threshold_eq ▸ exactThreshold_lt ht.capacity_pos ht.fraction

theorem hasGap (ht : t.Intact slack) (h : t.threshold + slack < t.capacity) : t.HasGap :=
  ht.counted.hasGap (Nat.lt_of_le_of_lt ht.size_le h)

theorem size_lt (ht : t.Intact 0) : t.size < t.capacity :=
  Nat.lt_of_le_of_lt ht.size_le ht.threshold_lt

theorem mono (ht : t.Intact slack) (h : slack ≤ slack') : t.Intact slack' :=
  { ht with size_le := Nat.le_trans ht.size_le (Nat.add_le_add_left h _) }

/-- Only the entries of a table have changed, and they are counted and not too many. -/
theorem of_counted (ht : t.Intact slack) (hcap : u.capacity = t.capacity)
    (hs : u.values.size = u.capacity) (hthreshold : u.threshold = t.threshold)
    (hf : u.loadFactor = t.loadFactor) (hc : u.Counted) (hle : u.size ≤ t.threshold + slack') :
    u.Intact slack' where
  aligned := ⟨hs, hcap ▸ ht.aligned.isPowerOfTwo, hcap ▸ ht.aligned.minCapacity_le⟩
  counted := hc
  fraction := hf ▸ ht.fraction
  threshold_eq := by rw [hthreshold, hcap, hf, ht.threshold_eq]
  size_le := hthreshold ▸ hle

end Intact

theorem intact_empty {c : Nat} {loadFactor : Single} (hmin : minCapacity ≤ 2 ^ c)
    (hlt : 2 ^ c < wordSize) (hf : loadFactor.isFraction = true) :
    (empty (2 ^ c) loadFactor : Table K).Intact 0 where
  aligned := ⟨by simp [empty, capacity], ⟨c, capacity_empty⟩, by rwa [capacity_empty]⟩
  counted := by rw [counted_iff, entries_empty]; rfl
  fraction := hf
  threshold_eq := by
    rw [capacity_empty]
    exact threshold_eq_exactThreshold (Nat.le_of_lt hlt) hf
  size_le := Nat.zero_le _

/-- A table made for a hint is empty and has a power of two of slots. -/
theorem exists_of_ofHint [Stored K] {hint : UInt64} {loadFactor : Single}
    (h : ofHint hint loadFactor = .ok t) :
    ∃ c, t = empty (2 ^ c) loadFactor ∧ minCapacity ≤ 2 ^ c ∧ 2 ^ c < wordSize := by
  unfold ofHint at h
  split at h
  · cases h
  · next slots hslots =>
    obtain ⟨⟨c, rfl⟩, hmin, hlt⟩ := capacityFor_eq_ok hslots
    split at h
    · cases h
      exact ⟨c, rfl, hmin, hlt⟩
    · cases h

theorem intact_of_ofHint [Stored K] {hint : UInt64} {loadFactor : Single}
    (hf : loadFactor.isFraction = true) (h : ofHint hint loadFactor = .ok t) : t.Intact 0 := by
  obtain ⟨c, rfl, hmin, hlt⟩ := exists_of_ofHint h
  exact intact_empty hmin hlt hf

/-! ## Keeping the slack -/

/-- A row that fits leaves no slack. -/
theorem intact_of_moved {slots : Nat} (hf : t.loadFactor.isFraction = true) (hc : t.Counted)
    (hfits : Fits t slots) (h : Moved t slots u) : u.Intact 0 where
  aligned := ⟨h.size_values, h.capacity_eq ▸ hfits.isPowerOfTwo,
    h.capacity_eq ▸ hfits.minCapacity_le⟩
  counted := by rw [counted_iff, h.size_eq, h.entries.length_eq, counted_iff.1 hc]
  fraction := h.loadFactor_eq ▸ hf
  threshold_eq := by rw [h.threshold_eq, h.capacity_eq, h.loadFactor_eq, hfits.threshold_eq]
  size_le := by
    rw [h.size_eq, h.threshold_eq, hfits.threshold_eq]
    exact hfits.size_le

theorem Removed.intact (h : Removed t i e u) (ht : t.Intact slack) : u.Intact slack := by
  refine ht.of_counted h.capacity_eq h.size_values h.threshold_eq h.loadFactor_eq
    (h.counted ht.counted) ?_
  have := ht.size_le
  rw [h.size_eq]
  omega

theorem entries_clear : t.clear.entries = [] := by
  simp [entries, List.filterMap_eq_nil_iff, slot?_eq_none]

namespace Intact

theorem writeValue (ht : t.Intact slack) : (t.writeValue i v).Intact slack :=
  ht.of_counted capacity_writeValue (by simp [Table.writeValue, ht.aligned.size_values, capacity])
    rfl rfl ht.counted ht.size_le

theorem clear (ht : t.Intact slack) : t.clear.Intact slack :=
  ht.of_counted capacity_clear (by simp [Table.clear, ht.aligned.size_values, capacity]) rfl rfl
    (by rw [counted_iff, entries_clear]; rfl) (Nat.zero_le _)

/-! ## Inserting -/

/-- An entry written into an empty slot and counted is one more. -/
theorem store (ht : t.Intact slack) (hi : i < t.capacity) (hempty : t.key? i = none)
    (hlt : t.size < t.threshold + slack') : (t.store i k v).Intact slack' :=
  ht.of_counted capacity_store (by rw [size_values_store, capacity_store, ht.aligned.size_values])
    rfl rfl (ht.counted.store ht.aligned.size_values hi hempty) hlt

variable [Stored K]

/-- An insert into an empty slot is carried out, or the table needs to grow and can not, which
leaves it with the entry written. -/
theorem insertAt_cases (ht : t.Intact slack) (hi : i < t.capacity) (hempty : t.key? i = none)
    (hash : K → UInt64) (k : K) (v : Int32) :
    (t.size < t.threshold ∧ t.insertAt hash i k v = .ok () (t.store i k v)) ∨
    (t.threshold ≤ t.size ∧ (t.store i k v).Growable ∧
      ∃ slots u, t.insertAt hash i k v = .ok () u ∧ Fits (t.store i k v) slots ∧
        Rehashed hash (t.store i k v) slots u) ∨
    (t.threshold ≤ t.size ∧ ¬(t.store i k v).Growable ∧
      t.insertAt hash i k v = .error .capacityOverflow (t.store i k v)) := by
  have hstored : (t.store i k v).Intact (slack + 1) :=
    ht.store hi hempty (Nat.lt_succ_of_le ht.size_le)
  unfold insertAt
  dsimp only
  split
  · next hlt =>
    have hle : t.threshold ≤ t.size := Nat.le_of_lt_succ hlt
    rcases grow_cases hash hstored.counted hstored.fraction hstored.aligned with
      ⟨hgrowable, slots, u, hrun, hfits, hu⟩ | ⟨hgrowable, hrun⟩
    · exact Or.inr (Or.inl ⟨hle, hgrowable, slots, u, by rw [hrun], hfits, hu⟩)
    · exact Or.inr (Or.inr ⟨hle, hgrowable, by rw [hrun]⟩)
  · next hle => exact Or.inl ⟨Nat.lt_of_succ_le (Nat.not_lt.1 hle), rfl⟩

/-- An insert that is carried out adds the entry and keeps the slack. -/
theorem insertAt (ht : t.Intact slack) (hi : i < t.capacity) (hempty : t.key? i = none)
    (hash : K → UInt64) (k : K) (v : Int32) :
    (∃ u, t.insertAt hash i k v = .ok () u ∧ u.Intact slack ∧
      u.entries.Perm ((k, v) :: t.entries)) ∨
    t.insertAt hash i k v = .error .capacityOverflow (t.store i k v) := by
  have hstored : (t.store i k v).Intact (slack + 1) :=
    ht.store hi hempty (Nat.lt_succ_of_le ht.size_le)
  have hperm := entries_store_perm (k := k) (v := v) ht.aligned.size_values hi hempty
  rcases ht.insertAt_cases hi hempty hash k v with
    ⟨hlt, hrun⟩ | ⟨-, -, slots, u, hrun, hfits, hu⟩ | ⟨-, -, hrun⟩
  · exact Or.inl ⟨_, hrun, ht.store hi hempty (Nat.lt_add_right _ hlt), hperm⟩
  · exact Or.inl ⟨u, hrun, (intact_of_moved hstored.fraction hstored.counted hfits hu.toMoved).mono
      (Nat.zero_le _), hu.entries.trans hperm⟩
  · exact Or.inr hrun

/-- Compacting leaves the entries alone. -/
theorem compact (ht : t.Intact slack) (hash : K → UInt64) :
    (∃ u, t.compact hash = .ok () u ∧ u.Intact slack ∧ u.entries.Perm t.entries) ∨
    t.compact hash = .error .capacityOverflow t := by
  rcases compact_cases hash ht.counted ht.fraction with ⟨u, hrun, hu⟩ | hrun
  · refine Or.inl ⟨u, hrun, ?_⟩
    rcases hu with rfl | ⟨slots, hfits, hu⟩
    · exact ⟨ht, .refl _⟩
    · exact ⟨(intact_of_moved ht.fraction ht.counted hfits hu.toMoved).mono (Nat.zero_le _),
        hu.entries⟩
  · exact Or.inr hrun

end Intact

end Table

/-! ## New maps -/

section New

variable {K : Type} [Stored K] {hash : K → UInt64} {m : Map K}

/-- A map with valid parameters has an empty row of slots and a load factor between 0 and 1. -/
theorem Map.exists_of_ofConfig {config : Config} (h : ofConfig config hash = .ok m) :
    m.hash = hash ∧ ∃ c loadFactor, m.table = Table.empty (2 ^ c) loadFactor ∧
      minCapacity ≤ 2 ^ c ∧ 2 ^ c < wordSize ∧ loadFactor.isFraction = true := by
  unfold ofConfig Config.validate at h
  split at h
  · cases h
  · next hvalid =>
    have hf : config.loadFactor.isFraction = true :=
      Classical.by_contradiction fun hno => by simp [hno] at hvalid
    split at h
    · cases h
    · next t ht =>
      cases h
      obtain ⟨c, hempty, hmin, hlt⟩ := Table.exists_of_ofHint ht
      exact ⟨rfl, c, _, hempty, hmin, hlt, hf⟩

/-- A new map has an empty row of slots and a load factor between 0 and 1. -/
theorem Map.exists_of_new {missing : Int32}
    (hm : m = empty missing hash ∨ ∃ config, ofConfig config hash = .ok m) :
    m.hash = hash ∧ ∃ c loadFactor, m.table = Table.empty (2 ^ c) loadFactor ∧
      minCapacity ≤ 2 ^ c ∧ 2 ^ c < wordSize ∧ loadFactor.isFraction = true := by
  rcases hm with rfl | ⟨config, h⟩
  · exact ⟨rfl, 3, defaultLoadFactor, rfl, by decide, by decide, by decide⟩
  · exact exists_of_ofConfig h

end New

end LinearProbe
