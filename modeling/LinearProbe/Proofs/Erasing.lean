import LinearProbe.Proofs.BackwardShift

/-!
# Erasing

An entry that is taken out leaves a gap, which is then closed. `Erased` says what is left : one
entry less, every entry within reach if all were, and between an empty slot and the erased entry
nothing else changed. Whenever erasing answers with an entry it has erased it
(`erased_of_eraseAt?`), and every entry can be erased (`exists_eraseAt?`).
-/

namespace LinearProbe.Table

variable {K : Type} {hash : K → UInt64} {t u : Table K} {i j m g : Nat} {e : K × Int32}

/-! ## Taking one entry out -/

theorem capacity_takeOut : (t.takeOut i).capacity = t.capacity :=
  capacity_vacate

theorem size_values_takeOut : (t.takeOut i).values.size = t.values.size := by
  simp [takeOut, vacate]

theorem key?_takeOut : (t.takeOut i).key? j = if i = j then none else t.key? j :=
  key?_vacate

theorem value_takeOut : (t.takeOut i).value j = if i = j then 0 else t.value j :=
  value_vacate

/-! ## The gap -/

theorem closing_takeOut (hs : t.values.size = t.capacity) (hi : i < t.capacity) :
    Closing (t.takeOut i) (t.takeOut i) i i := by
  refine .refl ?_ ?_ ?_
  · rw [capacity_takeOut, size_values_takeOut, hs]
  · rwa [capacity_takeOut]
  · rw [key?_takeOut, if_pos rfl]

/-- An entry that is taken out leaves a gap that may be on the path of all others. -/
theorem Reachable.takeOut (hr : t.Reachable hash) (hi : i < t.capacity) :
    Bridged hash (t.takeOut i) i i := by
  rw [reachable_iff] at hr
  constructor
  · intro j k hk m hm hlt
    simp only [displacement, distance_congr capacity_takeOut, home_congr capacity_takeOut,
      capacity_takeOut] at hm hlt
    rw [key?_takeOut] at hk
    split at hk
    · simp at hk
    · by_cases him : i = m
      · exact Or.inr him.symm
      · left
        rw [Occupied, key?_takeOut, if_neg him]
        exact hr j k hk m hm hlt
  · intro j k hk hj
    have hjc := capacity_takeOut (t := t) ▸ lt_capacity_of_key? hk
    rw [distance_self, Nat.le_zero, distance_congr capacity_takeOut] at hj
    obtain rfl := eq_of_distance_eq hi hi hjc (distance_self.trans hj.symm)
    simp [key?_takeOut] at hk

/-! ## What is left -/

/-- What taking the entry `e` in slot `i` out of `t` and closing the gap leaves, whatever entries
were moved. -/
structure Removed (t : Table K) (i : Nat) (e : K × Int32) (u : Table K) : Prop where
  slot?_eq : t.slot? i = some e
  capacity_eq : u.capacity = t.capacity
  size_values : u.values.size = u.capacity
  size_eq : u.size = t.size - 1
  threshold_eq : u.threshold = t.threshold
  loadFactor_eq : u.loadFactor = t.loadFactor
  entries : t.entries.Perm (e :: u.entries)

theorem Removed.counted (hu : Removed t i e u) (hc : t.Counted) : u.Counted := by
  rw [counted_iff] at hc ⊢
  rw [hu.size_eq, hc, hu.entries.length_eq, List.length_cons, Nat.add_sub_cancel]

theorem removed_of_closing {gap j : Nat} (he : t.slot? i = some e)
    (hu : Closing (t.takeOut i) u gap j) : Removed t i e u where
  slot?_eq := he
  capacity_eq := hu.capacity_eq.trans capacity_takeOut
  size_values := hu.size_values
  size_eq := hu.size_eq
  threshold_eq := hu.threshold_eq
  loadFactor_eq := hu.loadFactor_eq
  entries := (entries_perm_vacate he).trans (hu.entries.symm.cons e)

/-- What erasing the entry `e` in slot `i` of `t` leaves. -/
structure Erased (hash : K → UInt64) (t : Table K) (i : Nat) (e : K × Int32) (u : Table K) :
    Prop extends Removed t i e u where
  zeroed : t.Zeroed → u.Zeroed
  reachable : t.Reachable hash → u.Reachable hash
  frame : ∀ g m, g < t.capacity → t.key? g = none → m < t.capacity →
    t.distance i g ≤ t.distance i m → u.key? m = t.key? m ∧ u.value m = t.value m

/-- No other slot is filled. -/
theorem Erased.key?_eq_none {g : Nat} (hu : Erased hash t i e u) (hg : g < t.capacity)
    (hempty : t.key? g = none) : u.key? g = none :=
  (hu.frame g g hg hempty hg (Nat.le_refl _)).1.trans hempty

theorem Erased.counted (hu : Erased hash t i e u) (hc : t.Counted) : u.Counted :=
  hu.toRemoved.counted hc

theorem erased_of_closeGap (hs : t.values.size = t.capacity) (he : t.slot? i = some e)
    (hrun : (t.takeOut i).closeGap hash i = .ok u) : Erased hash t i e u := by
  have hi := lt_capacity_of_key? (slot?_eq_some.1 he).1
  have hc := closing_takeOut hs hi
  obtain ⟨_, _, hu, -, -⟩ := closeGapFrom_rule (P := fun _ _ _ => True)
    (fun _ _ _ _ _ _ _ _ => trivial) (fun _ _ _ _ _ _ _ _ => trivial) hc trivial hrun
  refine ⟨removed_of_closing he hu, fun hz => hu.zeroed ?_, fun hr => ?_, ?_⟩
  · intro m hm
    rw [value_takeOut]
    rw [key?_takeOut] at hm
    split
    · rfl
    · next h => exact hz m (by rwa [if_neg h] at hm)
  · exact reachable_of_closeGapFrom hc (hr.takeOut hi) hrun
  · intro g m hg hempty hm hle
    have hig : i ≠ g := (ne_of_key? (slot?_eq_some.1 he).1 hempty).symm
    have him : i ≠ m := by
      rintro rfl
      rw [distance_self, Nat.le_zero] at hle
      exact hig (eq_of_distance_eq hi hi hg (distance_self.trans hle.symm))
    have hframe := closeGapFrom_frame hc (e := g) (m := m) (by rwa [capacity_takeOut])
      (by rw [key?_takeOut, if_neg hig, hempty]) hig hrun (by rwa [capacity_takeOut])
      (by rwa [distance_congr capacity_takeOut, distance_congr capacity_takeOut])
    rwa [key?_takeOut, value_takeOut, if_neg him, if_neg him] at hframe

/-! ## Erasing a slot -/

theorem eraseAt?_of_capacity_le (h : t.capacity ≤ i) :
    t.eraseAt? hash i = .error (.indexOutOfBounds t.capacity i) t := by
  simp [eraseAt?, checkIndex, Nat.not_lt.2 h]

theorem eraseAt?_of_empty (hi : i < t.capacity) (h : t.key? i = none) :
    t.eraseAt? hash i = .ok none t := by
  simp [eraseAt?, checkIndex, hi, slot?_eq_none.2 h]

theorem eraseAt?_of_slot? (h : t.slot? i = some e) : t.eraseAt? hash i =
    match (t.takeOut i).closeGap hash i with
    | .ok u => .ok (some e) u
    | .error a => .error a (t.takeOut i) := by
  have hi := lt_capacity_of_key? (slot?_eq_some.1 h).1
  cases hrun : (t.takeOut i).closeGap hash i <;> simp [eraseAt?, checkIndex, hi, h, hrun]

/-- An erasure that answers with an entry has erased it. -/
theorem erased_of_eraseAt? (hs : t.values.size = t.capacity)
    (h : t.eraseAt? hash i = .ok (some e) u) : Erased hash t i e u := by
  rcases Nat.lt_or_ge i t.capacity with hi | hi
  · cases he : t.slot? i with
    | none => simp [eraseAt?_of_empty hi (slot?_eq_none.1 he)] at h
    | some e' =>
      rw [eraseAt?_of_slot? he] at h
      split at h
      · next u' hrun =>
        cases h
        exact erased_of_closeGap hs he hrun
      · simp at h
  · simp [eraseAt?_of_capacity_le hi] at h

/-- An erasure that answers with no entry was asked for an empty slot, and has changed nothing. -/
theorem eq_of_eraseAt?_eq_none (h : t.eraseAt? hash i = .ok none u) : u = t ∧ t.key? i = none := by
  rcases Nat.lt_or_ge i t.capacity with hi | hi
  · cases he : t.slot? i with
    | none =>
      rw [eraseAt?_of_empty hi (slot?_eq_none.1 he)] at h
      cases h
      exact ⟨rfl, slot?_eq_none.1 he⟩
    | some e =>
      rw [eraseAt?_of_slot? he] at h
      split at h <;> simp at h
  · simp [eraseAt?_of_capacity_le hi] at h

/-- Every entry can be erased, also from a table without an empty slot. -/
theorem exists_eraseAt? (hash : K → UInt64) (hs : t.values.size = t.capacity)
    (he : t.slot? i = some e) :
    ∃ u, t.eraseAt? hash i = .ok (some e) u ∧ Erased hash t i e u := by
  have hc := closing_takeOut hs (lt_capacity_of_key? (slot?_eq_some.1 he).1)
  obtain ⟨u, hrun⟩ := exists_closeGap hash hc.size_values hc.gap_lt hc.empty
  refine ⟨u, ?_, erased_of_closeGap hs he hrun⟩
  rw [eraseAt?_of_slot? he, hrun]

/-- Erasing at an index either leaves a table alone or erases the entry there. -/
theorem eraseAt?_cases (hs : t.values.size = t.capacity) (hash : K → UInt64) (i : Nat) :
    (t.capacity ≤ i ∧ t.eraseAt? hash i = .error (.indexOutOfBounds t.capacity i) t) ∨
    (t.key? i = none ∧ t.eraseAt? hash i = .ok none t) ∨
      ∃ e u, t.eraseAt? hash i = .ok (some e) u ∧ Erased hash t i e u := by
  rcases Nat.lt_or_ge i t.capacity with hi | hi
  · cases he : t.slot? i with
    | none =>
      have hk := slot?_eq_none.1 he
      exact Or.inr (Or.inl ⟨hk, eraseAt?_of_empty hi hk⟩)
    | some e =>
      obtain ⟨u, hrun, hu⟩ := exists_eraseAt? hash hs he
      exact Or.inr (Or.inr ⟨e, u, hrun, hu⟩)
  · exact Or.inl ⟨hi, eraseAt?_of_capacity_le hi⟩

end LinearProbe.Table
