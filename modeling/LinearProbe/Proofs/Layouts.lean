import LinearProbe.Proofs.Histograms
import LinearProbe.Proofs.Histories
import Mathlib.Data.List.Perm.Subperm
import Mathlib.Data.Nat.Find

/-!
# Layouts do not depend on histories

Which slots of a table are occupied is decided by the homes of its entries alone : slot `i` is
occupied exactly if for some `n` at least `n` entries have their home among the `n` slots up to
`i` (`occupied_iff_crowded`). Two tables of one size with the same keys therefore occupy the same
slots (`layout_of_reached`), though the keys may be in different ones.
-/

set_option linter.unusedSectionVars false

namespace LinearProbe.Table

variable {K : Type} {hash : K → UInt64} {t u : Table K} {g i j n : Nat} {k : K}

/-! ## Homes -/

/-- The homes of the entries. -/
def homes (hash : K → UInt64) (t : Table K) : List Nat :=
  t.entries.map fun e => t.home (hash e.1)

/-- At least `n` entries have their home among the `n` slots that end with slot `i`. -/
def Crowded (hash : K → UInt64) (t : Table K) (i n : Nat) : Prop :=
  0 < n ∧ n ≤ t.capacity ∧ n ≤ (t.homes hash).countP fun h => t.distance h i < n

/-- The slots of the entries whose home `p` accepts. -/
def slotsWith (hash : K → UInt64) (t : Table K) (p : Nat → Bool) : List Nat :=
  (List.range t.capacity).filter fun j => (t.key? j).any fun k => p (t.home (hash k))

theorem countP_homes (p : Nat → Bool) :
    (t.homes hash).countP p = (t.slotsWith hash p).length := by
  rw [homes, entries, slotsWith, List.countP_map, List.countP_filterMap,
    ← List.countP_eq_length_filter]
  refine List.countP_congr fun j _ => ?_
  cases hk : t.key? j <;> simp [slot?, hk]

theorem mem_slotsWith {p : Nat → Bool} :
    j ∈ t.slotsWith hash p ↔ ∃ k, t.key? j = some k ∧ p (t.home (hash k)) = true := by
  simp only [slotsWith, List.mem_filter, List.mem_range, Option.any_eq_true]
  exact ⟨fun h => h.2, fun h => ⟨lt_capacity_of_key? h.choose_spec.1, h⟩⟩

/-! ## Runs of occupied slots -/

/-- From an empty slot, the home of an entry comes before the entry. -/
theorem Reachable.distance_add (hr : t.Reachable hash) (hk : t.key? j = some k)
    (hg : g < t.capacity) (hempty : t.key? g = none) :
    0 < t.distance g (t.home (hash k)) ∧
      t.distance g (t.home (hash k)) + t.distance (t.home (hash k)) j = t.distance g j := by
  have hj := lt_capacity_of_key? hk
  have hlt := hr.distance_lt hk hg hempty
  have hhome := home_lt (Nat.zero_lt_of_lt hj) (hash k)
  have := t.distance_cases hhome hj
  have := t.distance_cases hhome hg
  have := t.distance_cases hg hhome
  have := t.distance_cases hg hj
  omega

/-- Before every slot there is a nearest empty one. -/
theorem HasGap.exists_nearest (h : t.HasGap) (i : Nat) :
    ∃ g, g < t.capacity ∧ t.key? g = none ∧
      ∀ m, m < t.capacity → t.key? m = none → t.distance g i ≤ t.distance m i := by
  classical
  obtain ⟨e, he, hempty⟩ := h
  have hex : ∃ d, ∃ g, g < t.capacity ∧ t.key? g = none ∧ t.distance g i = d :=
    ⟨_, e, he, not_occupied_iff.1 hempty, rfl⟩
  obtain ⟨g, hg, hgempty, hd⟩ := Nat.find_spec hex
  refine ⟨g, hg, hgempty, ?_⟩
  intro m hm hmempty
  rw [hd]
  exact Nat.find_min' hex ⟨m, hm, hmempty, rfl⟩

/-! ## Crowded slots -/

/-- The run of occupied slots that ends at slot `i` holds as many entries as it has slots, all
with their homes in it. -/
theorem exists_crowded (hg : t.HasGap) (hr : t.Reachable hash) (hi : t.Occupied i) :
    ∃ n, t.Crowded hash i n := by
  obtain ⟨g, hgc, hempty, hnearest⟩ := hg.exists_nearest i
  have hic := hi.lt_capacity
  have hpos : 0 < t.distance g i := by
    refine Nat.pos_of_ne_zero fun h0 => ?_
    obtain rfl := eq_of_distance_eq hgc hgc hic (distance_self.trans h0.symm)
    exact not_occupied_iff.2 hempty hi
  have hlt := distance_lt (Nat.zero_lt_of_lt hgc) (t := t) (i := g) (j := i)
  refine ⟨t.distance g i, hpos, Nat.le_of_lt hlt, ?_⟩
  -- the slots behind `g`, one for each distance
  let run := (List.range (t.distance g i)).map fun d => (g + (d + 1)) % t.capacity
  have hrun : ∀ d, d < t.distance g i → t.distance g ((g + (d + 1)) % t.capacity) = d + 1 :=
    fun d hd => distance_add_mod hgc (by omega)
  have hnodup : run.Nodup := by
    refine List.Nodup.map_on (fun d hd d' hd' h => ?_) List.nodup_range
    have h1 := hrun d (List.mem_range.1 hd)
    have h2 := hrun d' (List.mem_range.1 hd')
    rw [h] at h1
    omega
  have hsub : run ⊆ t.slotsWith hash fun h => t.distance h i < t.distance g i := by
    intro j hj
    obtain ⟨d, hd, rfl⟩ := List.mem_map.1 hj
    have hdist := hrun d (List.mem_range.1 hd)
    have hd := List.mem_range.1 hd
    generalize hjdef : (g + (d + 1)) % t.capacity = j at hdist
    have hjc : j < t.capacity := hjdef ▸ Nat.mod_lt _ (Nat.zero_lt_of_lt hgc)
    have hji := t.distance_cases hgc hjc
    have hgi := t.distance_cases hgc hic
    have hocc : t.Occupied j := by
      refine Classical.by_contradiction fun hno => ?_
      have := hnearest j hjc (not_occupied_iff.1 hno)
      have := t.distance_cases hjc hic
      omega
    obtain ⟨k, hk⟩ := occupied_iff.1 hocc
    have hhome := home_lt (Nat.zero_lt_of_lt hjc) (hash k)
    have hadd := hr.distance_add hk hgc hempty
    have := t.distance_cases hgc hhome
    have := t.distance_cases hhome hic
    exact mem_slotsWith.2 ⟨k, hk, decide_eq_true (by omega)⟩
  have hlen := (List.subperm_of_subset hnodup hsub).length_le
  rw [countP_homes]
  simpa [run] using hlen

/-- No slot that is crowded is empty : an entry with its home among the slots up to an empty one
lies among those before it, which are fewer. -/
theorem Crowded.occupied (hr : t.Reachable hash) (hi : i < t.capacity)
    (h : t.Crowded hash i n) : t.Occupied i := by
  obtain ⟨hpos, hn, hcount⟩ := h
  refine Classical.by_contradiction fun hno => ?_
  have hempty := not_occupied_iff.1 hno
  have hdist : ∀ j ∈ t.slotsWith hash fun h => t.distance h i < n,
      j < t.capacity ∧ 0 < t.distance j i ∧ t.distance j i < n := by
    intro j hj
    obtain ⟨k, hk, hlt⟩ := mem_slotsWith.1 hj
    have hlt : t.distance (t.home (hash k)) i < n := of_decide_eq_true hlt
    have hjc := lt_capacity_of_key? hk
    have hhome := home_lt (Nat.zero_lt_of_lt hjc) (hash k)
    have hbefore := hr.distance_lt hk hi hempty
    have := t.distance_cases hhome hjc
    have := t.distance_cases hhome hi
    have := t.distance_cases hjc hi
    omega
  have hnodup : ((t.slotsWith hash fun h => t.distance h i < n).map
      fun j => t.distance j i - 1).Nodup := by
    refine List.Nodup.map_on (fun j hj j' hj' h => ?_) (List.nodup_range.filter _)
    have h1 := hdist j hj
    have h2 := hdist j' hj'
    have := t.distance_cases h1.1 hi
    have := t.distance_cases h2.1 hi
    omega
  have hsub : ((t.slotsWith hash fun h => t.distance h i < n).map fun j => t.distance j i - 1) ⊆
      List.range (n - 1) := by
    intro d hd
    obtain ⟨j, hj, rfl⟩ := List.mem_map.1 hd
    have := hdist j hj
    exact List.mem_range.2 (by omega)
  have hlen := (List.subperm_of_subset hnodup hsub).length_le
  rw [countP_homes] at hcount
  rw [List.length_map, List.length_range] at hlen
  omega

/-- A slot is occupied exactly if it is crowded. -/
theorem occupied_iff_crowded (hg : t.HasGap) (hr : t.Reachable hash) (hi : i < t.capacity) :
    t.Occupied i ↔ ∃ n, t.Crowded hash i n :=
  ⟨exists_crowded hg hr, fun ⟨_, h⟩ => h.occupied hr hi⟩

/-! ## Matched lists -/

section Matching

variable {α β γ : Type} {R : α → β → Prop} {as : List α} {bs : List β}

/-- If every element of `as` has a partner in `bs` and no two have the same, there are pairs of
partners, one for each element of `as`, in which no element of `bs` occurs too often. -/
theorem exists_matching : ∀ {as : List α} {bs : List β},
    as.Pairwise (fun a a' => ∀ b, R a b → ¬R a' b) → (∀ a ∈ as, ∃ b ∈ bs, R a b) →
      ∃ ps : List (α × β), ps.map Prod.fst = as ∧ (ps.map Prod.snd).Subperm bs ∧
        ∀ p ∈ ps, R p.1 p.2
  | [], bs, _, _ => ⟨[], rfl, List.nil_subperm, fun _ hp => absurd hp List.not_mem_nil⟩
  | a :: as, bs, has, hall => by
    obtain ⟨ha, has⟩ := List.pairwise_cons.1 has
    obtain ⟨hab, hall⟩ := List.forall_mem_cons.1 hall
    obtain ⟨b, hb, hab⟩ := hab
    obtain ⟨front, back, rfl⟩ := List.append_of_mem hb
    have hperm : (front ++ b :: back).Perm (b :: (front ++ back)) := List.perm_middle
    have hrest : ∀ a' ∈ as, ∃ b' ∈ front ++ back, R a' b' := by
      intro a' ha'
      obtain ⟨b', hb', hab'⟩ := hall a' ha'
      rcases List.mem_cons.1 (hperm.mem_iff.1 hb') with rfl | hb'
      · exact absurd hab' (ha a' ha' b' hab)
      · exact ⟨b', hb', hab'⟩
    obtain ⟨ps, hfst, hsnd, hps⟩ := exists_matching has hrest
    refine ⟨(a, b) :: ps, by rw [List.map_cons, hfst], ?_, List.forall_mem_cons.2 ⟨hab, hps⟩⟩
    exact ((List.subperm_cons b).2 hsnd).trans hperm.symm.subperm

theorem length_le_of_matched (has : as.Pairwise fun a a' => ∀ b, R a b → ¬R a' b)
    (hall : ∀ a ∈ as, ∃ b ∈ bs, R a b) : as.length ≤ bs.length := by
  obtain ⟨ps, rfl, hsnd, -⟩ := exists_matching has hall
  simpa using hsnd.length_le

/-- If there are no more elements in `bs` than in `as`, each of them has a partner. -/
theorem exists_matching_perm (has : as.Pairwise fun a a' => ∀ b, R a b → ¬R a' b)
    (hall : ∀ a ∈ as, ∃ b ∈ bs, R a b) (hlen : bs.length ≤ as.length) :
    ∃ ps : List (α × β), ps.map Prod.fst = as ∧ (ps.map Prod.snd).Perm bs ∧
      ∀ p ∈ ps, R p.1 p.2 := by
  obtain ⟨ps, rfl, hsnd, hps⟩ := exists_matching has hall
  exact ⟨ps, rfl, hsnd.perm_of_length_le (by simpa using hlen), hps⟩

theorem exists_of_length_le (has : as.Pairwise fun a a' => ∀ b, R a b → ¬R a' b)
    (hall : ∀ a ∈ as, ∃ b ∈ bs, R a b) (hlen : bs.length ≤ as.length) :
    ∀ b ∈ bs, ∃ a ∈ as, R a b := by
  obtain ⟨ps, rfl, hsnd, hps⟩ := exists_matching_perm has hall hlen
  intro b hb
  obtain ⟨p, hp, rfl⟩ := List.mem_map.1 (hsnd.mem_iff.2 hb)
  exact ⟨p.1, List.mem_map.2 ⟨p, hp, rfl⟩, hps p hp⟩

/-- Functions that agree on partners have the same images. -/
theorem perm_map_of_matched {f : α → γ} {g : β → γ} (hfg : ∀ a b, R a b → f a = g b)
    (has : as.Pairwise fun a a' => ∀ b, R a b → ¬R a' b) (hall : ∀ a ∈ as, ∃ b ∈ bs, R a b)
    (hlen : bs.length ≤ as.length) : (as.map f).Perm (bs.map g) := by
  obtain ⟨ps, rfl, hsnd, hps⟩ := exists_matching_perm has hall hlen
  have heq : ps.map (f ∘ Prod.fst) = ps.map (g ∘ Prod.snd) :=
    List.map_congr_left fun p hp => hfg _ _ (hps p hp)
  rw [List.map_map, heq, ← List.map_map]
  exact hsnd.map g

end Matching

/-! ## Tables with the same keys -/

/-- Lists of unequal elements with the same elements up to equality have the same images under a
function that respects equality. -/
theorem perm_map_of_beq {K L : Type} [BEq K] [EquivBEq K] {f : K → L}
    (hf : ∀ k l, (k == l) = true → f k = f l) {ks ls : List K}
    (hks : ks.Pairwise fun k l => (k == l) = false) (hls : ls.Pairwise fun k l => (k == l) = false)
    (hkl : ∀ k ∈ ks, ∃ l ∈ ls, (k == l) = true) (hlk : ∀ l ∈ ls, ∃ k ∈ ks, (k == l) = true) :
    (ks.map f).Perm (ls.map f) := by
  have hdisjoint : ∀ {ks : List K}, ks.Pairwise (fun k l => (k == l) = false) →
      ks.Pairwise fun k l => ∀ m, (k == m) = true → ¬(l == m) = true :=
    fun h => h.imp fun hkl m hkm hlm => by simp [BEq.trans hkm (BEq.symm hlm)] at hkl
  refine perm_map_of_matched hf (hdisjoint hks) hkl (length_le_of_matched (hdisjoint hls) ?_)
  intro l hl
  obtain ⟨k, hk, hbeq⟩ := hlk l hl
  exact ⟨k, hk, BEq.symm hbeq⟩

section SameKeys

variable [BEq K] [EquivBEq K]

/-- Some slot holds a key equal to `k`. -/
def HasKey (t : Table K) (k : K) : Prop :=
  ∃ i l, t.key? i = some l ∧ (l == k) = true

theorem hasKey_iff : t.HasKey k ↔ ∃ l ∈ t.entries.map Prod.fst, (l == k) = true := by
  constructor
  · rintro ⟨i, l, hl, hlk⟩
    have he : (l, t.value i) ∈ t.entries := mem_entries.2 ⟨i, slot?_eq_some.2 ⟨hl, rfl⟩⟩
    exact ⟨l, List.mem_map.2 ⟨_, he, rfl⟩, hlk⟩
  · rintro ⟨l, hl, hlk⟩
    obtain ⟨e, he, rfl⟩ := List.mem_map.1 hl
    obtain ⟨i, hi⟩ := mem_entries.1 he
    exact ⟨i, e.1, (slot?_eq_some.1 hi).1, hlk⟩

/-- Tables of one size with the same keys have the same homes. -/
theorem homes_perm (hh : Respects hash) (hc : u.capacity = t.capacity) (ht : t.Distinct)
    (hu : u.Distinct) (hkeys : ∀ k, t.HasKey k ↔ u.HasKey k) :
    (t.homes hash).Perm (u.homes hash) := by
  have hpair : ∀ {t : Table K}, t.Distinct →
      (t.entries.map Prod.fst).Pairwise fun k l => (k == l) = false :=
    fun hd => List.pairwise_map.2 (distinct_iff.1 hd)
  have h := perm_map_of_beq (f := fun k => t.home (hash k)) (fun k l hkl => by rw [hh k l hkl])
    (hpair ht) (hpair hu) (fun k hk => ?_) fun l hl => ?_
  · simpa [homes, home_congr hc, Function.comp_def] using h
  · obtain ⟨l, hl, hlk⟩ := hasKey_iff.1 ((hkeys k).1 (hasKey_iff.2 ⟨k, hk, BEq.rfl⟩))
    exact ⟨l, hl, BEq.symm hlk⟩
  · exact hasKey_iff.1 ((hkeys l).2 (hasKey_iff.2 ⟨l, hl, BEq.rfl⟩))

/-- Tables of one size with the same keys occupy the same slots. -/
theorem occupied_iff_of_hasKey_iff (hh : Respects hash) (hc : u.capacity = t.capacity)
    (ht : t.WellFormed hash) (hu : u.WellFormed hash) (hkeys : ∀ k, t.HasKey k ↔ u.HasKey k)
    (i : Nat) : t.Occupied i ↔ u.Occupied i := by
  have hperm := homes_perm hh hc ht.distinct hu.distinct hkeys
  have hcrowded : ∀ n, t.Crowded hash i n ↔ u.Crowded hash i n := by
    intro n
    simp only [Crowded, hperm.countP_eq, distance_congr hc, hc]
  rcases Nat.lt_or_ge i t.capacity with hi | hi
  · rw [occupied_iff_crowded ht.hasGap ht.reachable hi,
      occupied_iff_crowded hu.hasGap hu.reachable (hc ▸ hi)]
    exact exists_congr hcrowded
  · exact ⟨fun h => absurd h.lt_capacity (Nat.not_lt.2 hi),
      fun h => absurd h.lt_capacity (by rw [hc]; exact Nat.not_lt.2 hi)⟩

theorem occupied_eq_of_hasKey_iff (hh : Respects hash) (hc : u.capacity = t.capacity)
    (ht : t.WellFormed hash) (hu : u.WellFormed hash) (hkeys : ∀ k, t.HasKey k ↔ u.HasKey k) :
    t.occupied = u.occupied := by
  unfold occupied
  rw [hc]
  refine List.filter_congr fun i _ => ?_
  exact Bool.eq_iff_iff.2 (occupied_iff_of_hasKey_iff hh hc ht hu hkeys i)

end SameKeys

/-! ## Displacements -/

/-- From an empty slot `g` the distances of the entries exceed those of their homes by their
displacements. -/
theorem sum_displacements (hr : t.Reachable hash) (hg : g < t.capacity)
    (hempty : t.key? g = none) :
    (t.displacements hash).sum + ((t.homes hash).map (t.distance g)).sum =
      (t.occupied.map (t.distance g)).sum := by
  unfold displacements homes entries occupied
  induction List.range t.capacity with
  | nil => rfl
  | cons j js ih =>
    cases hk : t.key? j with
    | none => simpa [hk, slot?] using ih
    | some k =>
      have := hr.distance_add hk hg hempty
      simp only [hk, slot?, List.filterMap_cons, Option.map_some, List.map_cons, List.sum_cons,
        List.filter_cons, Option.isSome_some, if_true, displacement] at ih ⊢
      omega

theorem length_displacements : (t.displacements hash).length = t.occupied.length := by
  simp only [displacements, occupied, List.length_filterMap_eq_countP,
    List.countP_eq_length_filter, Option.isSome_map]

section Reached

variable [BEq K] [EquivBEq K]

theorem sum_displacements_eq (hh : Respects hash) (hc : u.capacity = t.capacity)
    (ht : t.WellFormed hash) (hu : u.WellFormed hash) (hkeys : ∀ k, t.HasKey k ↔ u.HasKey k) :
    (u.displacements hash).sum = (t.displacements hash).sum := by
  obtain ⟨g, hg, hempty⟩ := ht.hasGap
  have hempty' : u.key? g = none := not_occupied_iff.1 fun ho =>
    hempty ((occupied_iff_of_hasKey_iff hh hc ht hu hkeys g).2 ho)
  have h1 := sum_displacements ht.reachable hg (not_occupied_iff.1 hempty)
  have h2 := sum_displacements hu.reachable (hc ▸ hg) hempty'
  have hd : u.distance g = t.distance g := funext fun _ => distance_congr hc
  have hhomes : ((u.homes hash).map (t.distance g)).sum = ((t.homes hash).map (t.distance g)).sum :=
    ((homes_perm hh hc ht.distinct hu.distinct hkeys).map _).symm.sum_nat
  rw [hd, hhomes, ← occupied_eq_of_hasKey_iff hh hc ht hu hkeys] at h2
  omega

/-- Two tables of one size with the same keys, however they were reached, occupy the same slots,
and the displacements of their entries have the same sum and the same mean. -/
theorem layout_of_reached [Stored K] (hh : Respects hash) (ht : Reached hash t)
    (hu : Reached hash u) (hc : u.capacity = t.capacity) (hkeys : ∀ k, t.HasKey k ↔ u.HasKey k) :
    (∀ i, t.Occupied i ↔ u.Occupied i) ∧
      (t.histogram hash).totalDisplacement = (t.displacements hash).sum ∧
      (u.histogram hash).totalDisplacement = (t.displacements hash).sum ∧
      (u.histogram hash).mean = (t.histogram hash).mean := by
  have ht := (ht.sound hh).toWellFormed
  have hu := (hu.sound hh).toWellFormed
  have hsum := sum_displacements_eq hh hc ht hu hkeys
  have htotal : (u.histogram hash).totalDisplacement = (t.displacements hash).sum := by
    rw [totalDisplacement_histogram, hsum]
  refine ⟨occupied_iff_of_hasKey_iff hh hc ht hu hkeys, totalDisplacement_histogram, htotal, ?_⟩
  have hlength : (u.histogram hash).total = (t.histogram hash).total := by
    rw [total_histogram, total_histogram, length_displacements, length_displacements,
      occupied_eq_of_hasKey_iff hh hc ht hu hkeys]
  rw [Histogram.mean, Histogram.mean, hlength, htotal, totalDisplacement_histogram]

/-- The keys of `wrapped`, inserted in the other order, are each in the slot of the other. -/
theorem layout_of_reached_swapped :
    ∃ t : Table UInt64, t.keys = #[some 2, none, none, none, none, none, none, some 3] ∧
      Reached (fun _ => 8) t ∧ (∀ k, wrapped.HasKey k ↔ t.HasKey k) ∧
      (∀ i, wrapped.Occupied i ↔ t.Occupied i) ∧
      (t.histogram fun _ => 8).totalDisplacement = 1 := by
  have hrun : (Session.mk ⟨Array.replicate 8 none, Array.replicate 8 0, 0, 6, ⟨0x3f400000⟩⟩
      ⟨0, 0, none⟩).run
      [.insert? (fun _ => 8) 8 (· == 3) (3 : UInt64) 30, .insert? (fun _ => 8) 8 (· == 2) 2 20] =
      .ok [.value? none, .value? none]
        ⟨⟨#[some 2, none, none, none, none, none, none, some 3], #[20, 0, 0, 0, 0, 0, 0, 30],
          2, 6, ⟨0x3f400000⟩⟩, ⟨0, 0, none⟩⟩ := rfl
  have hreached : Reached (fun _ => 8) _ := Reached.run (.made (by decide) ofHint_eight) (by
    simp only [List.forall_mem_cons]
    exact ⟨⟨rfl, rfl, rfl⟩, ⟨rfl, rfl, rfl⟩, fun _ h => absurd h List.not_mem_nil⟩) hrun
  have hkeys : ∀ k, wrapped.HasKey k ↔
      (⟨#[some 2, none, none, none, none, none, none, some 3], #[20, 0, 0, 0, 0, 0, 0, 30],
        2, 6, ⟨0x3f400000⟩⟩ : Table UInt64).HasKey k := by
    intro k
    rw [hasKey_iff, hasKey_iff, show wrapped.entries = [(3, 30), (2, 20)] by cbv,
      show (⟨#[some 2, none, none, none, none, none, none, some 3], #[20, 0, 0, 0, 0, 0, 0, 30],
        2, 6, ⟨0x3f400000⟩⟩ : Table UInt64).entries = [(2, 20), (3, 30)] by cbv]
    simp [or_comm]
  have h := layout_of_reached (fun _ _ _ => rfl) reached_wrapped hreached rfl hkeys
  refine ⟨_, rfl, hreached, hkeys, h.1, ?_⟩
  rw [h.2.2.1]
  decide +kernel

end Reached

end LinearProbe.Table
