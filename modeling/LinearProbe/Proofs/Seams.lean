import LinearProbe.Proofs.Layouts
import LinearProbe.Proofs.Shifts

/-!
# No path crosses the start of a traversal

A slot of the row is a seam (`Seam`) if the slot in front of it is empty and, counted from it, every
entry comes behind its home. The probe path of an entry then goes forward from the home to the entry
without passing the seam (`Seam.path`), and an entry that moves back on its path does not pass it
either (`Seam.dest_le`).

If all entries are within reach, every slot behind an empty one is a seam (`seam_of_reachable`). The
start of a traversal is behind an empty slot (`key?_previous_start`). Erasing fills no empty slot
and keeps the entries within reach (`Unfilled.erased`), so the start goes on to be a seam whatever
is erased (`seam_start`), though a traversal that was begun later may start elsewhere.
-/

namespace LinearProbe.Table

variable {K : Type} {hash : K → UInt64} {t u : Table K} {g i j s : Nat} {k : K} {e : K × Int32}

/-! ## The slot before a slot -/

/-- The slot before a slot. -/
def previous (t : Table K) (i : Nat) : Nat :=
  (i + t.capacity - 1) % t.capacity

theorem previous_lt (hc : 0 < t.capacity) : t.previous i < t.capacity :=
  Nat.mod_lt _ hc

theorem previous_cases (hi : i < t.capacity) :
    (0 < i ∧ t.previous i = i - 1) ∨ (i = 0 ∧ t.previous i = t.capacity - 1) := by
  unfold previous
  rcases Nat.eq_zero_or_pos i with rfl | hpos
  · exact Or.inr ⟨rfl, by rw [Nat.zero_add, Nat.mod_eq_of_lt (by omega)]⟩
  · refine Or.inl ⟨hpos, ?_⟩
    rw [show i + t.capacity - 1 = i - 1 + t.capacity by omega, Nat.add_mod_right,
      Nat.mod_eq_of_lt (by omega)]

theorem next_previous (hi : i < t.capacity) : t.next (t.previous i) = i := by
  have := t.previous_cases hi
  have := t.next_cases (t.previous_lt (Nat.zero_lt_of_lt hi) (i := i))
  omega

theorem previous_next (hi : i < t.capacity) : t.previous (t.next i) = i := by
  have := t.next_cases hi
  have := t.previous_cases (t.next_lt (Nat.zero_lt_of_lt hi) (i := i))
  omega

theorem previous_congr (hc : u.capacity = t.capacity) : u.previous i = t.previous i := by
  simp only [previous, hc]

/-- A traversal starts behind an empty slot. -/
theorem key?_previous_start (hg : t.HasGap) : t.key? (t.previous t.start) = none := by
  obtain ⟨g, hgc, hempty, hnext⟩ := exists_next_eq_start hg
  rw [← hnext, previous_next hgc, hempty]

/-! ## Seams -/

/-- The slot in front of `s` is empty, and from `s` on no entry comes before its home. -/
structure Seam (hash : K → UInt64) (t : Table K) (s : Nat) : Prop where
  lt_capacity : s < t.capacity
  empty : t.key? (t.previous s) = none
  home_le : ∀ i k, t.key? i = some k → t.distance s (t.home (hash k)) ≤ t.distance s i

namespace Seam

/-- What lies between the home of an entry and the entry lies between them from `s` on. -/
theorem path (h : Seam hash t s) (hk : t.key? i = some k) (hj : j < t.capacity)
    (hle : t.distance (t.home (hash k)) j ≤ t.displacement (hash k) i) :
    t.distance s (t.home (hash k)) ≤ t.distance s j ∧ t.distance s j ≤ t.distance s i := by
  have hs := h.lt_capacity
  have hi := lt_capacity_of_key? hk
  have hhome := home_lt (Nat.zero_lt_of_lt hs) (hash k)
  have hback := h.home_le i k hk
  unfold displacement at hle
  have := t.distance_cases hs hhome
  have := t.distance_cases hs hi
  have := t.distance_cases hs hj
  have := t.distance_cases hhome hi
  have := t.distance_cases hhome hj
  omega

/-- An entry that stays or comes nearer to its home does not pass `s`. -/
theorem dest_le {dest : Nat → Nat} {gap : Nat} (h : Seam hash t s)
    (hu : Shifted hash t i u dest gap) (hj : t.Occupied j) (hne : j ≠ i) :
    t.distance s (dest j) ≤ t.distance s j := by
  obtain ⟨k, hk⟩ := occupied_iff.1 hj
  rcases hu.nearer j k hk hne with heq | hlt
  · rw [heq]
  · have hdest : u.Occupied (dest j) := occupied_iff.2 ⟨k, hu.key?_dest hk hne⟩
    exact (h.path hk ((hu.occupied _).1 hdest).1.lt_capacity (Nat.le_of_lt hlt)).2

end Seam

/-- If all entries are within reach, a slot behind an empty one is a seam. -/
theorem seam_of_reachable (hr : t.Reachable hash) (hs : s < t.capacity)
    (hempty : t.key? (t.previous s) = none) : Seam hash t s := by
  refine ⟨hs, hempty, fun i k hk => ?_⟩
  have hc := Nat.zero_lt_of_lt hs
  have hi := lt_capacity_of_key? hk
  have hhome := home_lt hc (hash k)
  have hg := previous_lt hc (i := s)
  obtain ⟨hpos, hadd⟩ := hr.distance_add hk hg hempty
  -- from the empty slot everything is one step farther than from `s`
  have hstep : ∀ m, m < t.capacity → t.previous s ≠ m →
      t.distance (t.previous s) m = t.distance s m + 1 := by
    intro m hm hne
    rw [distance_of_next hg hm hne, next_previous hs]
  have hne : t.previous s ≠ t.home (hash k) := by
    intro heq
    rw [← heq, distance_self] at hpos
    exact Nat.lt_irrefl 0 hpos
  rw [hstep _ hhome hne, hstep _ hi (ne_of_key? hk hempty)] at hadd
  omega

/-! ## Erasing one slot after the other -/

/-- The slots erased one after the other. An index outside the row and an empty slot change
nothing. -/
def eraseSlots (hash : K → UInt64) (t : Table K) (is : List Nat) : Table K :=
  is.foldl (fun u i => (u.eraseAt? hash i).state) t

theorem eraseSlots_append (is js : List Nat) :
    t.eraseSlots hash (is ++ js) = (t.eraseSlots hash is).eraseSlots hash js :=
  List.foldl_append

/-- What erasing one entry keeps, erasing slots one after the other keeps. -/
theorem eraseSlots_rule {P : Table K → Prop} (hsize : ∀ u, P u → u.values.size = u.capacity)
    (hstep : ∀ u i e w, P u → Erased hash u i e w → P w) (h : P t) (is : List Nat) :
    P (t.eraseSlots hash is) := by
  induction is generalizing t with
  | nil => exact h
  | cons i is ih =>
    have hfirst : P (t.eraseAt? hash i).state := by
      rcases eraseAt?_cases (hsize t h) hash i with
        ⟨-, hrun⟩ | ⟨-, hrun⟩ | ⟨e, w, hrun, hw⟩ <;> rw [hrun]
      · exact h
      · exact h
      · exact hstep t i e w h hw
    exact ih hfirst

/-- The table `u` has come from `t` with the entries within reach and no slot filled. -/
structure Unfilled (hash : K → UInt64) (t u : Table K) : Prop where
  capacity_eq : u.capacity = t.capacity
  size_values : u.values.size = u.capacity
  reachable : u.Reachable hash
  empty : ∀ g, g < t.capacity → t.key? g = none → u.key? g = none

theorem Unfilled.erased {w : Table K} (h : Unfilled hash t u) (hw : Erased hash u i e w) :
    Unfilled hash t w where
  capacity_eq := hw.capacity_eq.trans h.capacity_eq
  size_values := hw.size_values
  reachable := hw.reachable h.reachable
  empty g hg hempty := hw.key?_eq_none (h.capacity_eq ▸ hg) (h.empty g hg hempty)

theorem Unfilled.eraseSlots (h : Unfilled hash t u) (is : List Nat) :
    Unfilled hash t (u.eraseSlots hash is) :=
  eraseSlots_rule (fun _ => Unfilled.size_values) (fun _ _ _ _ => Unfilled.erased) h is

/-- What was a slot behind an empty one is a seam after any erasures. -/
theorem Unfilled.seam (h : Unfilled hash t u) (hs : s < t.capacity)
    (hempty : t.key? (t.previous s) = none) : Seam hash u s := by
  refine seam_of_reachable h.reachable (h.capacity_eq ▸ hs) ?_
  rw [previous_congr h.capacity_eq]
  exact h.empty _ (previous_lt (Nat.zero_lt_of_lt hs)) hempty

/-- In a table with an empty slot a traversal starts behind an empty slot. If all entries are within
reach, then at first and after any erasures this start is a seam : the slot in front of it is empty,
the path from the home of an entry to the entry does not pass it, and no entry that is moved when
another one is erased passes it. -/
theorem seam_start (hs : t.values.size = t.capacity) (hg : t.HasGap) :
    t.key? (t.previous t.start) = none ∧
    (t.Reachable hash → ∀ is u, t.eraseSlots hash is = u →
      u.capacity = t.capacity ∧ Seam hash u t.start ∧
      (∀ i k j, u.key? i = some k → j < u.capacity →
        u.distance (u.home (hash k)) j ≤ u.displacement (hash k) i →
          u.distance t.start (u.home (hash k)) ≤ u.distance t.start j ∧
          u.distance t.start j ≤ u.distance t.start i) ∧
      ∀ i e, u.slot? i = some e → ∃ w dest gap, u.eraseAt? hash i = .ok (some e) w ∧
        Shifted hash u i w dest gap ∧
        ∀ j, u.Occupied j → j ≠ i → u.distance t.start (dest j) ≤ u.distance t.start j) := by
  have hempty := key?_previous_start hg
  refine ⟨hempty, ?_⟩
  rintro hr is _ rfl
  have hstart : t.start < t.capacity := by
    obtain ⟨g, hgc, -⟩ := hg
    exact start_lt (Nat.zero_lt_of_lt hgc)
  have hu : Unfilled hash t (t.eraseSlots hash is) :=
    Unfilled.eraseSlots ⟨rfl, hs, hr, fun _ _ hg => hg⟩ is
  have hseam := hu.seam hstart hempty
  refine ⟨hu.capacity_eq, hseam, fun i k j hk hj hle => hseam.path hk hj hle, fun i e he => ?_⟩
  obtain ⟨w, dest, gap, hrun, -, hw⟩ := exists_shifted hash hu.size_values he
  exact ⟨w, dest, gap, hrun, hw, fun j hj hne => hseam.dest_le hw hj hne⟩

/-- Five entries in a run across the end of the row. -/
def bridging : Table UInt64 :=
  ⟨#[some 10, some 7, none, none, none, some 2, some 1, some 9], #[100, 70, 0, 0, 0, 20, 10, 90], 5,
    6, ⟨0x3f400000⟩⟩

/-- Traversals start at the fourth slot, and after two erasures at the first one. The fourth slot is
still a seam then. -/
theorem seam_start_bridging : bridging.values.size = bridging.capacity ∧ bridging.HasGap ∧
    bridging.Reachable id ∧ bridging.start = 3 ∧ bridging.key? (bridging.previous 3) = none ∧
    bridging.eraseSlots id [6, 5] =
      ⟨#[some 7, none, none, none, none, some 10, some 9, none], #[70, 0, 0, 0, 0, 100, 90, 0],
        3, 6, ⟨0x3f400000⟩⟩ ∧
    (bridging.eraseSlots id [6, 5]).start = 0 ∧ Seam id (bridging.eraseSlots id [6, 5]) 3 := by
  have hg : bridging.HasGap := by decide
  have hr : bridging.Reachable id := by decide +kernel
  obtain ⟨hempty, hall⟩ := @seam_start UInt64 id bridging rfl hg
  obtain ⟨-, hseam, -⟩ := hall hr [6, 5] _ rfl
  exact ⟨rfl, hg, hr, rfl, hempty, rfl, rfl, hseam⟩

end LinearProbe.Table
