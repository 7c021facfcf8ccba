import LinearProbe.Proofs.Intact
import LinearProbe.Table.Session

/-!
# Well-formed tables stay well-formed

A table is `Arranged` for a hash function if every entry is met by the probe for its key, no two
keys are equal, and empty slots are zero. It is `Sound` if besides that it is intact without slack,
which makes it well-formed with a load factor between 0 and 1. An empty row is both, and the
operations keep both : erasing (`Erased.sound`), moving all entries to another row
(`sound_of_rehashed`), overwriting a value (`Sound.writeValue`) and inserting an absent key
(`Sound.insertAt_cases`). An insert that can not grow the table still leaves it arranged
(`Arranged.insertAt`).

The operations by key are told by where the probe for the key stops (`Sound.locate_cases`).
-/

set_option linter.unusedSectionVars false

namespace LinearProbe.Table

variable {K : Type} [BEq K] [EquivBEq K] {hash : K → UInt64} {t u : Table K} {i slack : Nat}
  {k : K} {v : Int32} {e : K × Int32}

/-! ## Entries in their places -/

/-- Every entry is met by the probe for its key, no two slots hold equal keys, and the value cells
of empty slots are zero. -/
structure Arranged (hash : K → UInt64) (t : Table K) : Prop where
  reachable : t.Reachable hash
  distinct : t.Distinct
  zeroed : t.Zeroed

theorem arranged_empty (slots : Nat) (loadFactor : Single) :
    (empty slots loadFactor : Table K).Arranged hash :=
  ⟨reachable_empty _ _, fun i j k l hk => by simp at hk, zeroed_empty _ _⟩

theorem arranged_of_rehashed {slots : Nat} (hd : t.Distinct) (h : Rehashed hash t slots u) :
    u.Arranged hash :=
  ⟨h.reachable, hd.of_perm h.entries, h.zeroed⟩

/-- The key that is erased is unequal to those that stay, and they are unequal to one another. -/
theorem Removed.unequal (h : Removed t i e u) (hd : t.Distinct) :
    (∀ e' ∈ u.entries, (e.1 == e'.1) = false) ∧ u.Distinct := by
  have hpair := (h.entries.pairwise_iff fun hab => by rwa [BEq.comm]).1 (distinct_iff.1 hd)
  obtain ⟨hhead, htail⟩ := List.pairwise_cons.1 hpair
  exact ⟨hhead, distinct_iff.2 htail⟩

theorem Erased.arranged (h : Erased hash t i e u) (ht : t.Arranged hash) : u.Arranged hash where
  reachable := h.reachable ht.reachable
  distinct := (h.toRemoved.unequal ht.distinct).2
  zeroed := h.zeroed ht.zeroed

namespace Arranged

theorem writeValue (ht : t.Arranged hash) (hs : t.values.size = t.capacity)
    (hk : t.key? i = some k) : (t.writeValue i v).Arranged hash where
  reachable := ht.reachable.congr rfl fun _ => rfl
  distinct := ht.distinct
  zeroed := by
    have hi := lt_capacity_of_key? hk
    intro j hj
    rw [key?_writeValue] at hj
    rw [value_writeValue (hs ▸ hi), if_neg (by rintro rfl; simp [hk] at hj)]
    exact ht.zeroed j hj

theorem clear : t.clear.Arranged hash :=
  ⟨fun i k _ hk => by simp at hk, fun i j k l hk => by simp at hk, fun _ _ => value_clear⟩

/-- An absent key is written where the probe for it stops. -/
theorem store (ht : t.Arranged hash) (hs : t.values.size = t.capacity) (hh : Respects hash)
    (hstop : t.StopsAt (· == k) (t.home (hash k)) (.free i)) : (t.store i k v).Arranged hash := by
  have hp : Placed hash t [(k, v)] (t.write i k v) :=
    placed_write hs hstop.2.1 hstop.2.2 hstop.1
  refine ⟨hp.reachable ht.reachable, ?_, hp.zeroed ht.zeroed⟩
  refine distinct_iff.2 ((hp.entries.pairwise_iff fun hab => by rwa [BEq.comm]).2 ?_)
  refine List.pairwise_cons.2 ⟨?_, distinct_iff.1 ht.distinct⟩
  intro e he
  obtain ⟨j, hj⟩ := mem_entries.1 he
  rw [BEq.comm]
  exact hstop.not_beq hh ht.reachable (slot?_eq_some.1 hj).1

/-- An absent key is inserted where the probe for it stops, whether or not the table can grow. -/
theorem insertAt [Stored K] (ht : t.Arranged hash) (hi : t.Intact slack) (hh : Respects hash)
    (hstop : t.StopsAt (· == k) (t.home (hash k)) (.free i)) :
    (t.insertAt hash i k v).state.Arranged hash := by
  have hstored : (t.store i k v).Arranged hash := ht.store hi.aligned.size_values hh hstop
  rcases hi.insertAt_cases hstop.2.1 hstop.2.2 hash k v with
    ⟨-, hrun⟩ | ⟨-, -, slots, u, hrun, -, hu⟩ | ⟨-, -, hrun⟩ <;> rw [hrun]
  · exact hstored
  · exact arranged_of_rehashed hstored.distinct hu
  · exact hstored

end Arranged

/-! ## Operations on one table -/

/-- A well-formed table whose load factor is between 0 and 1. -/
structure Sound (hash : K → UInt64) (t : Table K) : Prop extends WellFormed hash t where
  fraction : t.loadFactor.isFraction = true

theorem Sound.intact (ht : t.Sound hash) : t.Intact 0 :=
  ⟨ht.aligned, ht.counted, ht.fraction, ht.loaded.threshold_eq, ht.loaded.size_le⟩

theorem Sound.arranged (ht : t.Sound hash) : t.Arranged hash :=
  ⟨ht.reachable, ht.distinct, ht.zeroed⟩

theorem Arranged.sound (ht : t.Arranged hash) (hi : t.Intact 0) : t.Sound hash where
  aligned := hi.aligned
  counted := hi.counted
  loaded := ⟨hi.size_le, hi.threshold_eq, hi.threshold_lt⟩
  reachable := ht.reachable
  distinct := ht.distinct
  zeroed := ht.zeroed
  fraction := hi.fraction

theorem WellFormed.hasGap (h : t.WellFormed hash) : t.HasGap :=
  h.counted.hasGap (Nat.lt_of_le_of_lt h.loaded.size_le h.loaded.threshold_lt)

theorem sound_empty {c : Nat} {loadFactor : Single} (hmin : minCapacity ≤ 2 ^ c)
    (hlt : 2 ^ c < wordSize) (hf : loadFactor.isFraction = true) :
    (empty (2 ^ c) loadFactor : Table K).Sound hash :=
  (arranged_empty _ _).sound (intact_empty hmin hlt hf)

/-- Moving all entries to a row that fits keeps a table well-formed. -/
theorem sound_of_rehashed {slots : Nat} (hf : t.loadFactor.isFraction = true) (hc : t.Counted)
    (hd : t.Distinct) (hfits : Fits t slots) (h : Rehashed hash t slots u) : u.Sound hash :=
  (arranged_of_rehashed hd h).sound (intact_of_moved hf hc hfits h.toMoved)

theorem Erased.sound (h : Erased hash t i e u) (ht : t.Sound hash) : u.Sound hash :=
  (h.arranged ht.arranged).sound (h.toRemoved.intact ht.intact)

/-- Overwriting the value of an entry keeps a table well-formed. -/
theorem Sound.writeValue (ht : t.Sound hash) (hk : t.key? i = some k) :
    (t.writeValue i v).Sound hash :=
  (ht.arranged.writeValue ht.aligned.size_values hk).sound ht.intact.writeValue

theorem Sound.clear (ht : t.Sound hash) : t.clear.Sound hash :=
  Arranged.clear.sound ht.intact.clear

/-! ## Inserting -/

variable [Stored K]

/-- An entry whose key is absent is inserted, or written and left there without growth. -/
theorem Sound.insertAt_cases (ht : t.Sound hash) (hh : Respects hash)
    (hstop : t.StopsAt (· == k) (t.home (hash k)) (.free i)) :
    (∃ u, t.insertAt hash i k v = .ok () u ∧ u.Sound hash ∧
        u.entries.Perm ((k, v) :: t.entries)) ∨
      t.insertAt hash i k v = .error .capacityOverflow (t.store i k v) := by
  have harranged := ht.arranged.insertAt (v := v) ht.intact hh hstop
  rcases ht.intact.insertAt hstop.2.1 hstop.2.2 hash k v with ⟨u, hrun, hu, hperm⟩ | hrun
  · rw [hrun] at harranged
    exact Or.inl ⟨u, hrun, Arranged.sound harranged hu, hperm⟩
  · exact Or.inr hrun

/-! ## Looking for a key -/

omit [Stored K]

/-- The probe for a key stops at the slot that holds an equal key, or where it would go. -/
theorem Sound.locate_cases (ht : t.Sound hash) (k : K) :
    (∃ i l, t.locate (hash k) (· == k) = .ok (.held i) ∧ t.key? i = some l ∧ (l == k) = true) ∨
      ∃ i, t.locate (hash k) (· == k) = .ok (.free i) ∧
        t.StopsAt (· == k) (t.home (hash k)) (.free i) := by
  obtain ⟨spot, hrun, hstop⟩ := exists_locate ht.hasGap (hash k) (· == k)
  cases spot with
  | held i =>
    obtain ⟨-, l, hl, hlk⟩ := hstop
    exact Or.inl ⟨i, l, hrun, hl, hlk⟩
  | free i => exact Or.inr ⟨i, hrun, hstop⟩

/-- Apart from the entry with a key, no entry has an equal one. -/
theorem Distinct.entries_perm (hd : t.Distinct) {l : K} (hl : t.key? i = some l)
    (hlk : (l == k) = true) : t.entries.Perm ((l, t.value i) :: (t.vacate i).entries) ∧
      ∀ e ∈ (t.vacate i).entries, (e.1 == k) = false := by
  have he : t.slot? i = some (l, t.value i) := slot?_eq_some.2 ⟨hl, rfl⟩
  have hp := entries_perm_vacate he
  refine ⟨hp, ?_⟩
  intro e he
  have hpair := (hp.pairwise_iff fun hab => by rwa [BEq.comm]).1 (distinct_iff.1 hd)
  have hne := (List.pairwise_cons.1 hpair).1 e he
  rw [← BEq.congr_right hlk, BEq.comm]
  exact hne

end LinearProbe.Table
