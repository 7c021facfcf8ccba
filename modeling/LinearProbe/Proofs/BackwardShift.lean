import LinearProbe.Proofs.Entries
import LinearProbe.Proofs.Probing
import LinearProbe.Table.Update
import Mathlib.Algebra.Order.BigOperators.Group.List
import Mathlib.Algebra.Order.Group.Nat

/-!
# Closing a gap

The loop that closes a gap keeps the entries and the number of slots (`Closing`), and what a
predicate of its states says, if both kinds of step keep it (`closeGapFrom_rule`). It ends, also
if no slot but the gap is empty : every move brings a key nearer to its home
(`totalStrain_shift_lt`), and between two moves lies less than one lap (`exists_closeGap`).

Two facts follow. If every entry is within reach but for the gap, and no entry that was looked
at needs the gap (`Bridged`), then every entry is within reach at the end
(`reachable_of_closeGapFrom`). If there is another empty slot, the loop leaves alone what lies
between that slot and the gap (`closeGapFrom_frame`).
-/

namespace LinearProbe.Table

variable {K : Type} {hash : K → UInt64} {t t₀ u : Table K} {i j m gap : Nat} {k : K}

/-! ## Moving one entry -/

theorem capacity_shift : (t.shift j gap k).capacity = t.capacity := by
  simp [shift]

theorem size_values_shift : (t.shift j gap k).values.size = t.values.size := by
  simp [shift, vacate, write]

theorem key?_shift (hgap : gap < t.capacity) : (t.shift j gap k).key? m =
    if j = m then none else if gap = m then some k else t.key? m := by
  rw [shift, key?_vacate, key?_write hgap]

theorem value_shift (hs : t.values.size = t.capacity) (hgap : gap < t.capacity) :
    (t.shift j gap k).value m =
      if j = m then 0 else if gap = m then t.value j else t.value m := by
  rw [shift, value_vacate, value_write (hs ▸ hgap)]

theorem ne_of_key? (hj : t.key? j = some k) (hempty : t.key? gap = none) : gap ≠ j := by
  rintro rfl
  simp [hj] at hempty

/-- A move keeps the entries. -/
theorem entries_shift_perm (hs : t.values.size = t.capacity) (hgap : gap < t.capacity)
    (hempty : t.key? gap = none) (hj : t.key? j = some k) :
    (t.shift j gap k).entries.Perm t.entries := by
  have hne := ne_of_key? hj hempty
  have hslot : (t.write gap k (t.value j)).slot? j = some (k, t.value j) := by
    rw [slot?_write hs hgap, if_neg hne, slot?_eq_some]
    exact ⟨hj, rfl⟩
  have hvacate := entries_perm_vacate hslot
  exact List.Perm.cons_inv (hvacate.symm.trans (entries_write_perm hs hgap hempty))

theorem Zeroed.shift (hz : t.Zeroed) (hs : t.values.size = t.capacity) (hgap : gap < t.capacity) :
    (t.shift j gap k).Zeroed := by
  intro m hm
  rw [key?_shift hgap] at hm
  rw [value_shift hs hgap]
  split at hm
  · next h => rw [if_pos h]
  · next h =>
    split at hm
    · simp at hm
    · next h' => rw [if_neg h, if_neg h', hz m hm]

/-! ## The loop -/

/-- The loop that closes a gap in `t₀` has come to the table `t` with an empty slot `gap`, and
has looked at the slots up to `i`. -/
structure Closing (t₀ t : Table K) (gap i : Nat) : Prop where
  gap_lt : gap < t.capacity
  index_lt : i < t.capacity
  empty : t.key? gap = none
  size_values : t.values.size = t.capacity
  capacity_eq : t.capacity = t₀.capacity
  size_eq : t.size = t₀.size
  threshold_eq : t.threshold = t₀.threshold
  loadFactor_eq : t.loadFactor = t₀.loadFactor
  entries : t.entries.Perm t₀.entries
  zeroed : t₀.Zeroed → t.Zeroed

namespace Closing

theorem refl (hs : t.values.size = t.capacity) (hi : i < t.capacity) (hempty : t.key? i = none) :
    Closing t t i i :=
  ⟨hi, hi, hempty, hs, rfl, rfl, rfl, rfl, .refl _, id⟩

theorem move (h : Closing t₀ t gap i) (hj : t.key? j = some k) :
    Closing t₀ (t.shift j gap k) j j where
  gap_lt := capacity_shift (t := t) ▸ lt_capacity_of_key? hj
  index_lt := capacity_shift (t := t) ▸ lt_capacity_of_key? hj
  empty := by rw [key?_shift h.gap_lt, if_pos rfl]
  size_values := by rw [size_values_shift, capacity_shift, h.size_values]
  capacity_eq := capacity_shift.trans h.capacity_eq
  size_eq := h.size_eq
  threshold_eq := h.threshold_eq
  loadFactor_eq := h.loadFactor_eq
  entries := (entries_shift_perm h.size_values h.gap_lt h.empty hj).trans h.entries
  zeroed hz := (h.zeroed hz).shift h.size_values h.gap_lt

theorem stay (h : Closing t₀ t gap i) (hj : j < t.capacity) : Closing t₀ t gap j :=
  { h with index_lt := hj }

end Closing

/-- What both kinds of step keep true holds when the loop has ended, at an empty slot. -/
theorem closeGapFrom_rule {P : Table K → Nat → Nat → Prop}
    (move : ∀ t gap i k, Closing t₀ t gap i → P t gap i → t.key? (t.next i) = some k →
      t.distance gap (t.next i) ≤ t.displacement (hash k) (t.next i) →
      P (t.shift (t.next i) gap k) (t.next i) (t.next i))
    (stay : ∀ t gap i k, Closing t₀ t gap i → P t gap i → t.key? (t.next i) = some k →
      t.displacement (hash k) (t.next i) < t.distance gap (t.next i) → P t gap (t.next i))
    {n : Nat} (hc : Closing t₀ t gap i) (h : P t gap i)
    (hrun : closeGapFrom hash n t gap i = .ok u) :
    ∃ gap' i', Closing t₀ u gap' i' ∧ P u gap' i' ∧ u.key? (u.next i') = none := by
  induction n generalizing t gap i with
  | zero => simp [closeGapFrom] at hrun
  | succ n ih =>
    rw [closeGapFrom] at hrun
    split at hrun
    · next hnone =>
      cases hrun
      exact ⟨gap, i, hc, h, hnone⟩
    · next k hk =>
      split at hrun
      · next hle => exact ih (hc.move hk) (move t gap i k hc h hk hle) hrun
      · next hlt =>
        exact ih (hc.stay (lt_capacity_of_key? hk)) (stay t gap i k hc h hk (by omega)) hrun

/-! ## The loop ends -/

/-- How far the key in a slot is from its home, zero for an empty slot. -/
def strain (hash : K → UInt64) (t : Table K) (i : Nat) : Nat :=
  (t.key? i).elim 0 fun k => t.displacement (hash k) i

/-- The sum over all slots of how far their keys are from home. -/
def totalStrain (hash : K → UInt64) (t : Table K) : Nat :=
  ((List.range t.capacity).map (t.strain hash)).sum

theorem strain_le (hc : 0 < t.capacity) : t.strain hash i ≤ t.capacity := by
  unfold strain displacement
  cases t.key? i with
  | none => exact Nat.zero_le _
  | some k =>
    rw [Option.elim_some]
    exact Nat.le_of_lt (distance_lt hc)

theorem totalStrain_le (hash : K → UInt64) (hc : 0 < t.capacity) :
    t.totalStrain hash ≤ t.capacity * t.capacity := by
  have h := List.sum_le_card_nsmul ((List.range t.capacity).map (t.strain hash)) t.capacity
    (by simpa using fun i _ => strain_le hc)
  rw [List.length_map, List.length_range, Nat.nsmul_eq_mul] at h
  exact h

/-- A sum over the slots has two of its terms apart. -/
theorem sum_range_eq {n : Nat} (f : Nat → Nat) (hi : i < n) (hj : j < n) (hij : i ≠ j) :
    ((List.range n).map f).sum =
      f i + (f j + ((((List.range n).erase i).erase j).map f).sum) := by
  have hp := List.perm_cons_erase (List.mem_range.2 hi)
  have hp' := List.perm_cons_erase
    ((List.mem_erase_of_ne (Ne.symm hij)).2 (List.mem_range.2 hj))
  simpa using ((hp.trans (hp'.cons i)).map f).sum_nat

/-- A move brings a key nearer to its home. -/
theorem totalStrain_shift_lt (hgap : gap < t.capacity) (hempty : t.key? gap = none)
    (hj : t.key? j = some k) (hle : t.distance gap j ≤ t.displacement (hash k) j) :
    (t.shift j gap k).totalStrain hash < t.totalStrain hash := by
  have hjc := lt_capacity_of_key? hj
  have hne := ne_of_key? hj hempty
  have hnearer := displacement_lt hgap hjc hne hle
  have hrest : (((List.range t.capacity).erase gap).erase j).map ((t.shift j gap k).strain hash) =
      (((List.range t.capacity).erase gap).erase j).map (t.strain hash) := by
    refine List.map_congr_left fun m hm => ?_
    have hnodup := List.nodup_range (n := t.capacity)
    obtain ⟨hmj, hm⟩ := (hnodup.erase gap).mem_erase_iff.1 hm
    obtain ⟨hmg, -⟩ := hnodup.mem_erase_iff.1 hm
    simp only [strain, key?_shift hgap, if_neg (Ne.symm hmj), if_neg (Ne.symm hmg),
      displacement_congr capacity_shift]
  rw [totalStrain, totalStrain, capacity_shift, sum_range_eq _ hgap hjc hne,
    sum_range_eq _ hgap hjc hne, hrest]
  simp only [strain, key?_shift hgap, if_pos, if_neg hne.symm, hempty, hj,
    displacement_congr capacity_shift, Option.elim]
  omega

/-- The loop ends : a move brings a key nearer to its home, and without one the loop comes round to
the gap. -/
theorem exists_closeGapFrom (hash : K → UInt64) {n : Nat} (hc : Closing t₀ t gap i)
    (hn : t.totalStrain hash * t.capacity + t.distance (t.next i) gap < n) :
    ∃ u, closeGapFrom hash n t gap i = .ok u := by
  induction n generalizing t gap i with
  | zero => omega
  | succ n ih =>
    rw [closeGapFrom]
    split
    · exact ⟨t, rfl⟩
    · next k hk =>
      have hj := lt_capacity_of_key? hk
      split
      · next hle =>
        have hlt := totalStrain_shift_lt hc.gap_lt hc.empty hk hle
        have hmul := Nat.mul_le_mul_right t.capacity hlt
        rw [Nat.succ_mul] at hmul
        have hlap := distance_next_self hj
        refine ih (hc.move hk) ?_
        rw [capacity_shift, next_congr capacity_shift, distance_congr capacity_shift]
        omega
      · have hstep := distance_of_next hj hc.gap_lt (ne_of_key? hk hc.empty).symm
        exact ih (hc.stay hj) (by omega)

/-- A gap can be closed, whatever the hash function. -/
theorem exists_closeGap (hash : K → UInt64) (hs : t.values.size = t.capacity)
    (hi : i < t.capacity) (hempty : t.key? i = none) : ∃ u, t.closeGap hash i = .ok u := by
  have hc := Nat.zero_lt_of_lt hi
  refine exists_closeGapFrom hash (.refl hs hi hempty) ?_
  have hle := Nat.mul_le_mul_right t.capacity (totalStrain_le hash hc)
  have hlt := distance_lt (t := t) (i := t.next i) (j := i) hc
  unfold gapSteps
  omega

/-! ## What is within reach -/

/-- Every entry is within reach but for the gap, and those up to slot `i` do not need it. -/
structure Bridged (hash : K → UInt64) (t : Table K) (gap i : Nat) : Prop where
  path : ∀ j k, t.key? j = some k → ∀ m, m < t.capacity →
    t.distance (t.home (hash k)) m < t.displacement (hash k) j → t.Occupied m ∨ m = gap
  near : ∀ j k, t.key? j = some k → t.distance gap j ≤ t.distance gap i →
    t.displacement (hash k) j < t.distance gap j

namespace Bridged

/-- The entry moved into the gap is within reach there, and nothing was looked at since. -/
theorem move (hc : Closing t₀ t gap i) (h : Bridged hash t gap i) (hj : t.key? j = some k)
    (hle : t.distance gap j ≤ t.displacement (hash k) j) :
    Bridged hash (t.shift j gap k) j j := by
  have hjc := lt_capacity_of_key? hj
  have hhome := home_lt (Nat.zero_lt_of_lt hjc)
  have hne := ne_of_key? hj hc.empty
  have hocc : ∀ m, m ≠ j → t.Occupied m ∨ m = gap → (t.shift j gap k).Occupied m := by
    rintro m hm (ho | rfl)
    · rw [Occupied, key?_shift hc.gap_lt, if_neg hm.symm]
      split
      · rfl
      · exact ho
    · rw [Occupied, key?_shift hc.gap_lt, if_neg hm.symm, if_pos rfl]
      rfl
  -- the gap lies on the path of the moved entry, as far before it as the move goes back
  have hback : t.displacement (hash k) gap + t.distance gap j = t.displacement (hash k) j :=
    distance_add (hhome _) hc.gap_lt hjc hle
  constructor
  · intro m l hl p hp hlt
    simp only [displacement, distance_congr capacity_shift, home_congr capacity_shift,
      capacity_shift] at hp hlt
    rw [key?_shift hc.gap_lt] at hl
    by_cases hpj : p = j
    · exact Or.inr hpj
    refine Or.inl (hocc p hpj ?_)
    split at hl
    · simp at hl
    · split at hl
      · next hgm =>
        subst hgm
        obtain rfl : k = l := by simpa using hl
        exact h.path j k hj p hp (by unfold displacement at hback ⊢; omega)
      · exact h.path m l hl p hp hlt
  · intro m l hl hm
    simp only [displacement, distance_congr capacity_shift, home_congr capacity_shift,
      distance_self, Nat.le_zero] at hm ⊢
    have hmc := capacity_shift (t := t) ▸ lt_capacity_of_key? hl
    obtain rfl := eq_of_distance_eq hjc hjc hmc (hm.trans distance_self.symm).symm
    rw [key?_shift hc.gap_lt, if_pos rfl] at hl
    simp at hl

/-- An entry that is nearer to its home than to the gap does not need the gap. -/
theorem stay (hc : Closing t₀ t gap i) (h : Bridged hash t gap i)
    (hj : t.key? (t.next i) = some k)
    (hlt : t.displacement (hash k) (t.next i) < t.distance gap (t.next i)) :
    Bridged hash t gap (t.next i) := by
  refine ⟨h.path, ?_⟩
  intro m l hl hm
  have hjc := lt_capacity_of_key? hj
  have hmc := lt_capacity_of_key? hl
  rw [distance_next hc.gap_lt hc.index_lt (ne_of_key? hj hc.empty).symm] at hm
  rcases Nat.lt_or_ge (t.distance gap i) (t.distance gap m) with hlt' | hge
  · rw [← distance_next hc.gap_lt hc.index_lt (ne_of_key? hj hc.empty).symm] at hm
    have heq : t.distance gap m = t.distance gap (t.next i) := by
      rw [distance_next hc.gap_lt hc.index_lt (ne_of_key? hj hc.empty).symm] at hm ⊢
      omega
    obtain rfl := eq_of_distance_eq hc.gap_lt hmc hjc heq
    obtain rfl : k = l := by simpa [hj] using hl
    exact hlt
  · exact h.near m l hl hge

/-- Where the loop ends, at an empty slot, no entry needs the gap any more. -/
theorem reachable (hc : Closing t₀ t gap i) (h : Bridged hash t gap i)
    (hend : t.key? (t.next i) = none) : t.Reachable hash := by
  rw [reachable_iff]
  intro j k hk m hm hlt
  have hj := lt_capacity_of_key? hk
  have hhome := home_lt (Nat.zero_lt_of_lt hj) (hash k)
  rcases h.path j k hk m hm hlt with ho | rfl
  · exact ho
  · have hcross : t.distance m j ≤ t.displacement (hash k) j :=
      (distance_le_iff hhome hc.gap_lt hj).2 (Nat.le_of_lt hlt)
    have hfar : t.distance m i < t.distance m j :=
      Nat.lt_of_not_le fun hle => Nat.not_lt.2 hcross (h.near j k hk hle)
    have hnext := next_lt (Nat.zero_lt_of_lt hj) (i := i)
    have hnj : t.next i ≠ j := ne_of_key? hk hend
    have hnm : t.next i ≠ m := by
      rintro rfl
      have := distance_next_self hc.index_lt
      have := distance_lt (Nat.zero_lt_of_lt hj) (t := t) (i := t.next i) (j := j)
      omega
    have hstep := distance_next hc.gap_lt hc.index_lt hnm
    have hbetween : t.distance m (t.next i) < t.distance m j := by
      refine Nat.lt_of_le_of_ne (by omega) fun heq => hnj ?_
      exact eq_of_distance_eq hc.gap_lt hnext hj heq
    have hpath := distance_lt_of_between hhome hc.gap_lt hj hnext (Nat.le_of_lt hlt) hbetween
    rcases h.path j k hk _ hnext hpath with ho | heq
    · exact absurd ho (not_occupied_iff.2 hend)
    · exact absurd heq hnm

end Bridged

/-- Closing a gap that is the only slot out of whose way no entry is brings all within reach. -/
theorem reachable_of_closeGapFrom {n : Nat} (hc : Closing t t gap gap) (h : Bridged hash t gap gap)
    (hrun : closeGapFrom hash n t gap gap = .ok u) : u.Reachable hash := by
  obtain ⟨gap', i', hc', h', hend⟩ := closeGapFrom_rule (P := Bridged hash)
    (fun _ _ _ _ hc h hj hle => h.move hc hj hle) (fun _ _ _ _ hc h hj hlt => h.stay hc hj hlt)
    hc h hrun
  exact h'.reachable hc' hend

/-! ## What stays as it is -/

/-- In `u` the loop that closes the gap `g` of `t` has not come to the empty slot `e`, and the
slots from there up to `g` are those of `t`. -/
structure Framed (t : Table K) (g e : Nat) (u : Table K) (gap i : Nat) : Prop where
  gap_lt : t.distance g gap < t.distance g e
  index_lt : t.distance g i < t.distance g e
  same : ∀ m, m < t.capacity → t.distance g e ≤ t.distance g m →
    u.key? m = t.key? m ∧ u.value m = t.value m

namespace Framed

variable {g e : Nat}

/-- The next slot, if it is not empty, is in front of `e` as well. -/
theorem next_lt (hg : g < t.capacity) (he : e < t.capacity) (hempty : t.key? e = none)
    (hc : Closing t u gap i) (h : Framed t g e u gap i) (hj : u.key? (u.next i) = some k) :
    t.distance g (u.next i) < t.distance g e := by
  have hi : i < t.capacity := hc.capacity_eq ▸ hc.index_lt
  have hne : u.next i ≠ e := (ne_of_key? hj ((h.same e he (Nat.le_refl _)).1.trans hempty)).symm
  rw [next_congr hc.capacity_eq] at hne ⊢
  have hnext := Table.next_lt (Nat.zero_lt_of_lt hi) (i := i)
  have hng : t.next i ≠ g := by
    rintro rfl
    have := distance_next_self hi
    have := distance_lt (Nat.zero_lt_of_lt hi) (t := t) (i := t.next i) (j := e)
    have := h.index_lt
    omega
  have := distance_next hg hi hng
  have := h.index_lt
  refine Nat.lt_of_le_of_ne (by omega) fun heq => hne ?_
  exact eq_of_distance_eq hg hnext he heq

theorem move (hg : g < t.capacity) (he : e < t.capacity) (hempty : t.key? e = none)
    (hc : Closing t u gap i) (h : Framed t g e u gap i) (hj : u.key? (u.next i) = some k) :
    Framed t g e (u.shift (u.next i) gap k) (u.next i) (u.next i) := by
  have hlt := h.next_lt hg he hempty hc hj
  refine ⟨hlt, hlt, ?_⟩
  intro m hm hem
  have hjm : u.next i ≠ m := by
    rintro rfl
    omega
  have hgm : gap ≠ m := by
    rintro rfl
    exact absurd h.gap_lt (Nat.not_lt.2 hem)
  rw [key?_shift hc.gap_lt, value_shift hc.size_values hc.gap_lt, if_neg hjm, if_neg hjm,
    if_neg hgm, if_neg hgm]
  exact h.same m hm hem

end Framed

/-- The loop changes no slot from another empty slot `e` on up to the gap. -/
theorem closeGapFrom_frame {n e : Nat} (hc : Closing t t gap gap) (he : e < t.capacity)
    (hempty : t.key? e = none) (hne : gap ≠ e) (hrun : closeGapFrom hash n t gap gap = .ok u)
    (hm : m < t.capacity) (hem : t.distance gap e ≤ t.distance gap m) :
    u.key? m = t.key? m ∧ u.value m = t.value m := by
  have hstart : t.distance gap gap < t.distance gap e := by
    rw [distance_self]
    exact distance_pos hc.gap_lt he hne
  obtain ⟨_, _, -, hu, -⟩ := closeGapFrom_rule (P := Framed t gap e)
    (fun _ _ _ _ hc' h hj _ => h.move hc.gap_lt he hempty hc' hj)
    (fun _ _ _ _ hc' h hj _ => { h with index_lt := h.next_lt hc.gap_lt he hempty hc' hj })
    hc ⟨hstart, hstart, fun _ _ _ => ⟨rfl, rfl⟩⟩ hrun
  exact hu.same m hm hem

end LinearProbe.Table
