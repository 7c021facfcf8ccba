import LinearProbe.Proofs.Layouts
import LinearProbe.Proofs.MissingValue
import Mathlib.Order.Bounds.Basic

/-!
# What a histogram says of look-ups

A histogram is computed from where the entries are, without a single probe. `Table.probe` is the
probe that also says which slots it looks at (`Table.probe_snd`) : they are the slots from the
home of the hash up to where the probe stops (`Table.probe_of_locate`). For a key that is held
these are its displacement and one more, so the histogram counts what look-ups cost and its largest
displacement bounds each of them (`Table.histogram_measures_probes`).
-/

namespace LinearProbe.Table

variable {K : Type} {t : Table K} {hash : K → UInt64} {i j d : Nat} {k : K} {p : K → Bool}
  {spot : Spot}

/-! ## Displacements and their counts -/

/-- The slots whose entries are `d` slots past their homes. -/
def displaced (hash : K → UInt64) (t : Table K) (d : Nat) : List Nat :=
  (List.range t.capacity).filter fun i => (t.key? i).any fun k => t.displacement (hash k) i = d

theorem mem_displacements :
    d ∈ t.displacements hash ↔ ∃ i k, t.key? i = some k ∧ t.displacement (hash k) i = d := by
  unfold displacements
  constructor
  · intro hd
    obtain ⟨i, -, hi⟩ := List.mem_filterMap.1 hd
    obtain ⟨k, hk, rfl⟩ := Option.map_eq_some_iff.1 hi
    exact ⟨i, k, hk, rfl⟩
  · rintro ⟨i, k, hk, rfl⟩
    refine List.mem_filterMap.2 ⟨i, List.mem_range.2 (lt_capacity_of_key? hk), ?_⟩
    rw [hk]
    rfl

theorem lt_capacity_of_mem_displacements (hd : d ∈ t.displacements hash) : d < t.capacity := by
  obtain ⟨i, k, hk, rfl⟩ := mem_displacements.1 hd
  exact distance_lt (Nat.zero_lt_of_lt (lt_capacity_of_key? hk))

/-- How often a number occurs among those given to the keys of some slots. -/
theorem count_filterMap_map (is : List Nat) (key? : Nat → Option K) (f : Nat → K → Nat) (d : Nat) :
    (is.filterMap fun i => (key? i).map (f i)).count d =
      (is.filter fun i => (key? i).any fun k => f i k = d).length := by
  rw [List.count_filterMap, List.countP_eq_length_filter]
  refine congrArg List.length (List.filter_congr fun i _ => ?_)
  cases key? i with
  | none => rfl
  | some k => exact Bool.eq_iff_iff.2 (by simp)

theorem count_displacements : (t.displacements hash).count d = (t.displaced hash d).length :=
  count_filterMap_map _ t.key? (fun i k => t.displacement (hash k) i) d

theorem size_counts_histogram_le : (t.histogram hash).counts.size ≤ t.capacity := by
  refine Nat.le_of_not_lt fun hlt => ?_
  obtain ⟨d, hd, hle⟩ := lt_size_counts_histogram.1 hlt
  exact absurd (lt_capacity_of_mem_displacements hd) (Nat.not_lt.2 hle)

theorem le_maxDisplacement (hd : d ∈ t.displacements hash) :
    d ≤ (t.histogram hash).maxDisplacement :=
  Nat.le_pred_of_lt (lt_size_counts_histogram.2 ⟨d, hd, Nat.le_refl d⟩)

/-- The counts end at a displacement that occurs. -/
theorem maxDisplacement_mem (hpos : 0 < (t.histogram hash).counts.size) :
    (t.histogram hash).maxDisplacement ∈ t.displacements hash := by
  obtain ⟨d, hd, hle⟩ := lt_size_counts_histogram.1 (Nat.pred_lt_of_lt hpos)
  rwa [Nat.le_antisymm (le_maxDisplacement hd) hle] at hd

theorem counts_histogram_eq_empty_iff (hcount : t.Counted) :
    (t.histogram hash).counts = #[] ↔ t.isEmpty = true := by
  have hlength : t.size = (t.displacements hash).length := by
    rw [length_displacements]
    exact hcount
  rw [isEmpty, decide_eq_true_iff, hlength, List.length_eq_zero_iff, ← Array.size_eq_zero_iff,
    List.eq_nil_iff_forall_not_mem]
  constructor
  · intro h0 d hd
    have := lt_size_counts_histogram.2 ⟨d, hd, Nat.le_refl d⟩
    omega
  · intro hnone
    exact Nat.eq_zero_of_not_pos fun hpos => hnone _ (maxDisplacement_mem hpos)

/-- The last count is not zero. -/
theorem back_counts_histogram_ne {n : Nat} (hn : (t.histogram hash).counts.back? = some n) :
    n ≠ 0 := by
  have hpos : 0 < (t.histogram hash).counts.size := by
    refine Nat.pos_of_ne_zero fun h0 => ?_
    simp [Array.size_eq_zero_iff.1 h0] at hn
  have hlast : (t.histogram hash).counts.getD (t.histogram hash).maxDisplacement 0 = n := by
    rw [Histogram.maxDisplacement, Array.getD_eq_getD_getElem?, ← Array.back?_eq_getElem?, hn]
    rfl
  rw [← hlast, getD_counts_histogram]
  exact Nat.ne_of_gt (List.count_pos_iff.2 (maxDisplacement_mem hpos))

/-! ## The slots that a probe looks at -/

/-- The `n` slots from slot `i` on. -/
def stretch (t : Table K) (i n : Nat) : List Nat :=
  (List.range n).map fun d => (i + d) % t.capacity

theorem stretch_succ (hi : i < t.capacity) (n : Nat) :
    t.stretch i (n + 1) = i :: t.stretch (t.next i) n := by
  simp only [stretch, List.range_succ_eq_map, List.map_cons, List.map_map, Nat.add_zero,
    Nat.mod_eq_of_lt hi, List.cons.injEq, true_and]
  refine List.map_congr_left fun d _ => ?_
  simp only [Function.comp_apply, next, Nat.mod_add_mod]
  congr 1
  omega

theorem stretch_distance (hi : i < t.capacity) (hj : j < t.capacity) :
    t.stretch i (t.distance i j + 1) = t.stretch i (t.distance i j) ++ [j] := by
  simp only [stretch, List.range_succ, List.map_append, List.map_cons, List.map_nil,
    add_distance hi hj]

theorem mem_stretch (hi : i < t.capacity) {n : Nat} (hn : n ≤ t.capacity) :
    j ∈ t.stretch i n ↔ j < t.capacity ∧ t.distance i j < n := by
  unfold stretch
  constructor
  · intro hj
    obtain ⟨d, hd, rfl⟩ := List.mem_map.1 hj
    have hd := List.mem_range.1 hd
    refine ⟨Nat.mod_lt _ (Nat.zero_lt_of_lt hi), ?_⟩
    rwa [distance_add_mod hi (Nat.lt_of_lt_of_le hd hn)]
  · rintro ⟨hj, hlt⟩
    exact List.mem_map.2 ⟨_, List.mem_range.2 hlt, add_distance hi hj⟩

theorem stretch_eq_take {n : Nat} (hn : n ≤ t.capacity) :
    t.stretch i n = (t.cycle i).take n := by
  rw [cycle, ← List.map_take, List.take_range, Nat.min_eq_left hn]
  rfl

/-- A probe of at most `n` slots from slot `i` on, and the slots that it looks at. -/
def probeFrom (t : Table K) (p : K → Bool) : Nat → Nat → List Nat × Except Abort Spot
  | 0, _ => ([], .error .endless)
  | n + 1, i =>
    match t.key? i with
    | none => ([i], .ok (.free i))
    | some k =>
      if p k then ([i], .ok (.held i))
      else
        let rest := t.probeFrom p n (t.next i)
        (i :: rest.1, rest.2)

/-- The probe for a hash and a key that `p` accepts, and the slots that it looks at. -/
def probe (t : Table K) (hash : UInt64) (p : K → Bool) : List Nat × Except Abort Spot :=
  t.probeFrom p t.capacity (t.home hash)

theorem probeFrom_snd (n i : Nat) : (t.probeFrom p n i).2 = t.locateFrom p n i := by
  induction n generalizing i with
  | zero => rfl
  | succ n ih =>
    rw [probeFrom, locateFrom]
    cases t.key? i with
    | none => rfl
    | some k =>
      by_cases hp : p k
      · simp only [hp, if_true]
      · simp only [hp, Bool.false_eq_true, if_false, ih]

/-- Noting the slots does not change where the probe stops. -/
theorem probe_snd (h : UInt64) : (t.probe h p).2 = t.locate h p :=
  probeFrom_snd _ _

theorem probeFrom_fst {n : Nat} (hi : i < t.capacity) (hrun : t.locateFrom p n i = .ok spot) :
    (t.probeFrom p n i).1 = t.stretch i (t.distance i spot.index + 1) := by
  induction n generalizing i with
  | zero => cases hrun
  | succ n ih =>
    have hself : [i] = t.stretch i (t.distance i i + 1) := by
      rw [stretch_distance hi hi, distance_self]
      rfl
    have hstop := stopsAt_of_locateFrom hi hrun
    rw [locateFrom] at hrun
    rw [probeFrom]
    cases hk : t.key? i with
    | none =>
      simp only [hk, Except.ok.injEq] at hrun ⊢
      exact hrun ▸ hself
    | some k =>
      simp only [hk] at hrun ⊢
      by_cases hp : p k
      · simp only [hp, if_true, Except.ok.injEq] at hrun ⊢
        exact hrun ▸ hself
      · -- The probe stops farther on, one step less far from the next slot.
        have hij := hstop.index_ne hk (Bool.eq_false_iff.2 hp)
        simp only [hp, Bool.false_eq_true, if_false] at hrun ⊢
        rw [ih (next_lt (Nat.zero_lt_of_lt hi)) hrun, distance_of_next hi hstop.index_lt hij,
          stretch_succ hi]

/-- Where a probe stops determines what it looks at : the slots from the home of the hash up to
there. -/
theorem probe_of_locate {h : UInt64} (hrun : t.locate h p = .ok spot) :
    t.probe h p =
      (t.stretch (t.home h) (t.displacement h spot.index) ++ [spot.index], .ok spot) := by
  have hj := (stopsAt_of_locate hrun).index_lt
  have hhome := home_lt (Nat.zero_lt_of_lt hj) h
  refine Prod.ext ?_ ((probe_snd h).trans hrun)
  rw [probe, probeFrom_fst hhome hrun, stretch_distance hhome hj]
  rfl

/-! ## Look-ups and displacements -/

section Key

variable [BEq K] [EquivBEq K] {l : K}

/-- The probe for a key that is held passes as many slots as the key is displaced by, each with
another key. -/
theorem Arranged.probe_of_beq (ht : t.Arranged hash) (hh : Respects hash)
    (hl : t.key? i = some l) (hlk : (l == k) = true) :
    ∃ passed, t.probe (hash k) (· == k) = (passed ++ [i], .ok (.held i)) ∧
      passed.length = t.displacement (hash l) i ∧ passed.Nodup ∧
      ∀ j ∈ passed, ∃ k', t.key? j = some k' ∧ (k' == k) = false := by
  have hi := lt_capacity_of_key? hl
  have hc := Nat.zero_lt_of_lt hi
  have hhash := hh l k hlk
  have hrun := ht.locate_of_beq hl hlk hhash
  have hle : t.displacement (hash k) i ≤ t.capacity := Nat.le_of_lt (distance_lt hc)
  refine ⟨t.stretch (t.home (hash k)) (t.displacement (hash k) i), probe_of_locate hrun, ?_, ?_,
    fun j hj => ?_⟩
  · rw [hhash, stretch, List.length_map, List.length_range]
  · rw [stretch_eq_take hle]
    exact (nodup_cycle (home_lt hc _)).sublist (List.take_sublist _ _)
  · obtain ⟨hj, hlt⟩ := (mem_stretch (home_lt hc _) hle).1 hj
    exact (stopsAt_of_locate hrun).1 j hj hlt

end Key

/-- The histogram of a table whose entries are counted has for every displacement the number of
entries with it, up to the largest one. In a well-formed table that is what look-ups cost : the
probe for a key that is held passes as many other keys as its displacement, and no successful
look-up looks at more slots than the largest displacement and one. -/
theorem histogram_measures_probes (hash : K → UInt64) (hcount : t.Counted) :
    (∀ d, (t.histogram hash).counts.getD d 0 = (t.displaced hash d).length) ∧
    (t.histogram hash).total = t.size ∧
    (t.histogram hash).counts.size ≤ t.capacity ∧
    ((t.histogram hash).counts = #[] ↔ t.isEmpty = true) ∧
    (∀ n, (t.histogram hash).counts.back? = some n → n ≠ 0) ∧
    (t.isEmpty = false →
      IsGreatest {d | ∃ i k, t.key? i = some k ∧ t.displacement (hash k) i = d}
        (t.histogram hash).maxDisplacement) ∧
    (∀ h p, (t.probe h p).2 = t.locate h p) ∧
    ∀ [BEq K] [EquivBEq K], Respects hash → t.WellFormed hash →
      (∀ i l k, t.key? i = some l → (l == k) = true →
        ∃ passed, t.probe (hash k) (· == k) = (passed ++ [i], .ok (.held i)) ∧
          passed.length = t.displacement (hash l) i ∧ passed.Nodup ∧
          ∀ j ∈ passed, ∃ k', t.key? j = some k' ∧ (k' == k) = false) ∧
      ∀ k i, t.locate (hash k) (· == k) = .ok (.held i) →
        (t.probe (hash k) (· == k)).1.length ≤ (t.histogram hash).maxDisplacement + 1 := by
  refine ⟨fun d => ?_, ?_, size_counts_histogram_le, counts_histogram_eq_empty_iff hcount,
    fun n => back_counts_histogram_ne, fun hne => ?_, fun h p => probe_snd h, ?_⟩
  · rw [getD_counts_histogram, count_displacements]
  · rw [total_histogram, length_displacements]
    exact hcount.symm
  · have hpos : 0 < (t.histogram hash).counts.size := by
      refine Nat.pos_of_ne_zero fun h0 => ?_
      rw [(counts_histogram_eq_empty_iff hcount).1 (Array.size_eq_zero_iff.1 h0)] at hne
      cases hne
    exact ⟨mem_displacements.1 (maxDisplacement_mem hpos),
      fun d hd => le_maxDisplacement (mem_displacements.2 hd)⟩
  · intro _ _ hh ht
    have ha : t.Arranged hash := ⟨ht.reachable, ht.distinct, ht.zeroed⟩
    refine ⟨fun i l k hl hlk => ha.probe_of_beq hh hl hlk, fun k i hrun => ?_⟩
    obtain ⟨-, l, hl, hlk⟩ := stopsAt_of_locate hrun
    obtain ⟨passed, hprobe, hlength, -⟩ := ha.probe_of_beq hh hl hlk
    rw [hprobe, List.length_append, hlength]
    exact Nat.succ_le_succ (le_maxDisplacement (mem_displacements.2 ⟨i, l, hl, rfl⟩))

/-- In `wrapped` the key 2 is at its home and the key 3 one slot past it, around the end of the
row. -/
theorem histogram_measures_probes_wrapped :
    wrapped.Counted ∧ (wrapped.histogram fun _ => 8).counts = #[1, 1] ∧
      wrapped.WellFormed (fun _ => 8) ∧
      (wrapped.displaced (fun _ => 8) 1).length = 1 ∧
      ∃ passed, wrapped.probe 8 (· == 3) = (passed ++ [0], .ok (.held 0)) ∧
        passed.length = 1 ∧ passed.Nodup ∧
        ∀ j ∈ passed, ∃ k, wrapped.key? j = some k ∧ (k == 3) = false := by
  have hcounts : (wrapped.histogram fun _ => 8).counts = #[1, 1] := by decide +kernel
  have hcounted : wrapped.Counted := by decide +kernel
  have hh : Respects fun _ : UInt64 => (8 : UInt64) := fun _ _ _ => rfl
  have hwell := (reached_wrapped.sound hh).toWellFormed
  obtain ⟨hcount, -, -, -, -, -, -, hlookups⟩ := histogram_measures_probes (fun _ => 8) hcounted
  refine ⟨hcounted, hcounts, hwell, ?_, (hlookups hh hwell).1 0 3 3 (by decide +kernel) rfl⟩
  rw [← hcount, hcounts]
  rfl

end LinearProbe.Table
