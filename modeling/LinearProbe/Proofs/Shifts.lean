import LinearProbe.Proofs.CheckedCommands
import LinearProbe.Proofs.Faults

/-!
# Which way entries move

Erasing an entry touches only the run of occupied slots that begins with it (`Table.Run`), and moves
entries of the run backward. `Table.Shifted` says where every entry is after the loop that closes
the gap : in its old slot, or nearer to its home; and that one slot of the run has become empty.
It is kept by each move of the loop, so it holds in the end (`Table.eraseAt?_moves_back`), for any
layout and any hash function.

If all entries were within reach they still are, also in a row without an empty slot, where the
loop may go round more than once (`Table.eraseAt?_of_reachable`).
-/

namespace LinearProbe.Table

variable {K : Type} {hash : K → UInt64} {t u : Table K} {i j m gap : Nat} {k : K} {v : Int32}
  {e : K × Int32} {dest : Nat → Nat}

/-! ## Runs of occupied slots -/

/-- All slots from `i` forward up to `j` are occupied. -/
def Run (t : Table K) (i j : Nat) : Prop :=
  j < t.capacity ∧ ∀ m, m < t.capacity → t.distance i m ≤ t.distance i j → t.Occupied m

namespace Run

theorem occupied (h : t.Run i j) : t.Occupied j :=
  h.2 j h.1 (Nat.le_refl _)

theorem refl (h : t.Occupied i) : t.Run i i := by
  have hi := h.lt_capacity
  refine ⟨hi, fun m hm hle => ?_⟩
  rw [distance_self, Nat.le_zero] at hle
  exact eq_of_distance_eq hi hi hm (distance_self.trans hle.symm) ▸ h

/-- A run goes on with the next slot, if that is occupied. -/
theorem next (h : t.Run i j) (hi : i < t.capacity) (ho : t.Occupied (t.next j)) :
    t.Run i (t.next j) := by
  by_cases hne : t.next j = i
  · rw [hne] at ho ⊢
    exact .refl ho
  · refine ⟨ho.lt_capacity, fun m hm hle => ?_⟩
    rw [distance_next hi h.1 hne] at hle
    rcases Nat.lt_or_eq_of_le hle with hlt | heq
    · exact h.2 m hm (Nat.le_of_lt_succ hlt)
    · rw [← distance_next hi h.1 hne] at heq
      exact eq_of_distance_eq hi hm ho.lt_capacity heq ▸ ho

end Run

/-! ## Where entries go -/

/-- In `u` the entry of slot `i` of `t` is gone and every other entry is where `dest` says, in its
old slot or nearer to its home. The slot `gap` has become empty, and outside the run of `i` nothing
has changed. -/
structure Shifted (hash : K → UInt64) (t : Table K) (i : Nat) (u : Table K) (dest : Nat → Nat)
    (gap : Nat) : Prop where
  frame : ∀ m, ¬t.Run i m → u.key? m = t.key? m ∧ u.value m = t.value m
  gap_run : t.Run i gap
  value_gap : u.value gap = 0
  occupied : ∀ m, u.Occupied m ↔ t.Occupied m ∧ m ≠ gap
  slot?_dest : ∀ m, t.Occupied m → m ≠ i → u.slot? (dest m) = t.slot? m
  dest_inj : ∀ m n, t.Occupied m → m ≠ i → t.Occupied n → n ≠ i → dest m = dest n → m = n
  nearer : ∀ m k, t.key? m = some k → m ≠ i →
    dest m = m ∨ t.displacement (hash k) (dest m) < t.displacement (hash k) m

theorem slot?_shift (hs : t.values.size = t.capacity) (hgap : gap < t.capacity) :
    (t.shift j gap k).slot? m =
      if j = m then none else if gap = m then some (k, t.value j) else t.slot? m := by
  rw [shift, slot?_vacate, slot?_write hs hgap]

/-- When the entry has been taken out no other has moved. -/
theorem shifted_takeOut (ho : t.Occupied i) : Shifted hash t i (t.takeOut i) id i where
  frame m hm := by
    have him : i ≠ m := fun heq => hm (heq ▸ .refl ho)
    rw [key?_takeOut, value_takeOut, if_neg him, if_neg him]
    exact ⟨rfl, rfl⟩
  gap_run := .refl ho
  value_gap := by rw [value_takeOut, if_pos rfl]
  occupied m := by
    rw [Occupied, key?_takeOut]
    by_cases him : i = m
    · simp [him]
    · simp [him, Occupied, Ne.symm him]
  slot?_dest m _ hm := by
    refine slot?_congr ?_ ?_
    · rw [id, key?_takeOut, if_neg (Ne.symm hm)]
    · rw [id, value_takeOut, if_neg (Ne.symm hm)]
  dest_inj _ _ _ _ _ _ h := h
  nearer _ _ _ _ := Or.inl rfl

namespace Shifted

theorem empty (h : Shifted hash t i u dest gap) : u.key? gap = none :=
  not_occupied_iff.1 fun ho => ((h.occupied gap).1 ho).2 rfl

/-- No entry has gone to the slot that is empty. -/
theorem dest_ne_gap (h : Shifted hash t i u dest gap) (ho : t.Occupied m) (hne : m ≠ i) :
    dest m ≠ gap := by
  intro heq
  have hslot := h.slot?_dest m ho hne
  rw [heq, slot?_eq_none.2 h.empty, eq_comm, slot?_eq_none] at hslot
  exact not_occupied_iff.2 hslot ho

/-- The key in a slot is still that of the entry that has gone there. -/
theorem key?_dest (h : Shifted hash t i u dest gap) (hk : t.key? m = some k) (hne : m ≠ i) :
    u.key? (dest m) = some k := by
  have hslot : t.slot? m = some (k, t.value m) := slot?_eq_some.2 ⟨hk, rfl⟩
  rw [← h.slot?_dest m (occupied_iff.2 ⟨k, hk⟩) hne] at hslot
  exact (slot?_eq_some.1 hslot).1

/-- An entry that is moved into the gap comes nearer to its home, and leaves the gap behind. -/
theorem move (h : Shifted hash t i u dest gap) (hc : Closing (t.takeOut i) u gap m)
    (hrun : t.Run i j) (hk : u.key? j = some k)
    (hle : u.distance gap j ≤ u.displacement (hash k) j) :
    Shifted hash t i (u.shift j gap k) (fun n => if dest n = j then gap else dest n) j where
  frame n hn := by
    have hjn : j ≠ n := fun heq => hn (heq ▸ hrun)
    have hgn : gap ≠ n := fun heq => hn (heq ▸ h.gap_run)
    rw [key?_shift hc.gap_lt, value_shift hc.size_values hc.gap_lt, if_neg hjn, if_neg hjn,
      if_neg hgn, if_neg hgn]
    exact h.frame n hn
  gap_run := hrun
  value_gap := by rw [value_shift hc.size_values hc.gap_lt, if_pos rfl]
  occupied n := by
    have hgj := ne_of_key? hk h.empty
    have hgap := h.gap_run.occupied
    have hiff := h.occupied n
    unfold Occupied at hgap hiff ⊢
    rw [key?_shift hc.gap_lt]
    by_cases hjn : j = n
    · simp [hjn]
    · by_cases hgn : gap = n
      · subst hgn
        simpa [hjn, hgj] using hgap
      · simpa [hjn, hgn, Ne.symm hjn, Ne.symm hgn] using hiff
  slot?_dest n hn hni := by
    have hslot : u.slot? j = some (k, u.value j) := slot?_eq_some.2 ⟨hk, rfl⟩
    rw [slot?_shift hc.size_values hc.gap_lt, ← h.slot?_dest n hn hni]
    split
    · next hdest => rw [if_neg (ne_of_key? hk h.empty).symm, if_pos rfl, hdest, hslot]
    · next hdest => rw [if_neg (Ne.symm hdest), if_neg (h.dest_ne_gap hn hni).symm]
  dest_inj n p hn hni hp hpi heq := by
    by_cases hnj : dest n = j <;> by_cases hpj : dest p = j
    · exact h.dest_inj n p hn hni hp hpi (hnj.trans hpj.symm)
    · rw [if_pos hnj, if_neg hpj] at heq
      exact absurd heq.symm (h.dest_ne_gap hp hpi)
    · rw [if_neg hnj, if_pos hpj] at heq
      exact absurd heq (h.dest_ne_gap hn hni)
    · rw [if_neg hnj, if_neg hpj] at heq
      exact h.dest_inj n p hn hni hp hpi heq
  nearer n l hl hni := by
    have hnear := h.nearer n l hl hni
    split
    · next hdest =>
      -- the entry that moves on from slot `j` is the one that was in slot `n` at first
      have hkey := h.key?_dest hl hni
      rw [hdest, hk, Option.some.injEq] at hkey
      subst hkey
      have hlt := displacement_lt hc.gap_lt (lt_capacity_of_key? hk) (ne_of_key? hk h.empty) hle
      rw [displacement_congr (hc.capacity_eq.trans capacity_takeOut),
        displacement_congr (hc.capacity_eq.trans capacity_takeOut)] at hlt
      rw [hdest] at hnear
      exact Or.inr (hnear.elim (fun heq => heq ▸ hlt) fun h' => Nat.lt_trans hlt h')
    · exact hnear

end Shifted

/-- Closing the gap that an entry leaves moves entries of its run back. -/
theorem shifted_of_closeGap (hs : t.values.size = t.capacity) (ho : t.Occupied i)
    (hrun : (t.takeOut i).closeGap hash i = .ok u) : ∃ dest gap, Shifted hash t i u dest gap := by
  have hi := ho.lt_capacity
  have hnext : ∀ {u : Table K} {gap j : Nat} {dest : Nat → Nat} {k : K},
      Closing (t.takeOut i) u gap j → Shifted hash t i u dest gap → t.Run i j →
      u.key? (u.next j) = some k → t.Run i (u.next j) := by
    intro u gap j dest k hc h hj hk
    have hoccupied := ((h.occupied _).1 (occupied_iff.2 ⟨k, hk⟩)).1
    rw [next_congr (hc.capacity_eq.trans capacity_takeOut)] at hoccupied ⊢
    exact hj.next hi hoccupied
  obtain ⟨gap, -, -, ⟨⟨dest, h⟩, -⟩, -⟩ := closeGapFrom_rule
    (P := fun u gap j => (∃ dest, Shifted hash t i u dest gap) ∧ t.Run i j)
    (fun u gap j k hc ⟨⟨dest, h⟩, hj⟩ hk hle =>
      ⟨⟨_, h.move hc (hnext hc h hj hk) hk hle⟩, hnext hc h hj hk⟩)
    (fun u gap j k hc ⟨⟨dest, h⟩, hj⟩ hk _ => ⟨⟨dest, h⟩, hnext hc h hj hk⟩)
    (closing_takeOut hs hi) ⟨⟨id, shifted_takeOut ho⟩, .refl ho⟩ hrun
  exact ⟨dest, gap, h⟩

/-- An erasure that answers with an entry has moved entries of its run back. -/
theorem shifted_of_eraseAt? (hs : t.values.size = t.capacity)
    (hrun : t.eraseAt? hash i = .ok (some e) u) : ∃ dest gap, Shifted hash t i u dest gap := by
  have he := (erased_of_eraseAt? hs hrun).slot?_eq
  rw [eraseAt?_of_slot? he] at hrun
  split at hrun
  · next hclose =>
    cases hrun
    exact shifted_of_closeGap hs (occupied_iff.2 ⟨_, (slot?_eq_some.1 he).1⟩) hclose
  · cases hrun

/-- Every entry can be erased, and the others have moved back then. -/
theorem exists_shifted (hash : K → UInt64) (hs : t.values.size = t.capacity)
    (he : t.slot? i = some e) : ∃ u dest gap, t.eraseAt? hash i = .ok (some e) u ∧
      Erased hash t i e u ∧ Shifted hash t i u dest gap := by
  obtain ⟨u, hrun, hu⟩ := exists_eraseAt? hash hs he
  obtain ⟨dest, gap, h⟩ := shifted_of_eraseAt? hs hrun
  exact ⟨u, dest, gap, hrun, hu, h⟩

/-! ## Erasing an entry -/

/-- Erasing an entry changes its run of occupied slots only. One slot of the run becomes empty, and
every other entry stays in its slot or moves back on its path from home. -/
theorem eraseAt?_moves_back (hash : K → UInt64) (hs : t.values.size = t.capacity)
    (he : t.slot? i = some e) :
    ∃ u dest gap, t.eraseAt? hash i = .ok (some e) u ∧ Shifted hash t i u dest gap := by
  obtain ⟨u, dest, gap, hrun, -, h⟩ := exists_shifted hash hs he
  exact ⟨u, dest, gap, hrun, h⟩

/-- Eight slots with a run of entries across the end of the row, and one entry out of reach. -/
def crossing : Table UInt64 :=
  ⟨#[some 7, some 17, some 14, none, some 4, none, some 1, some 9],
    #[70, 170, 140, 0, 40, 0, 10, 90], 6, 6, ⟨0x3f400000⟩⟩

/-- Three of the entries behind the erased one move, the second of them from slot 1 to slot 7. -/
theorem eraseAt?_moves_back_crossing :
    crossing.slot? 6 = some (1, 10) ∧
    (∃ u dest gap, crossing.eraseAt? id 6 = .ok (some (1, 10)) u ∧
      Shifted id crossing 6 u dest gap) ∧
    crossing.eraseAt? id 6 = .ok (some (1, 10))
      ⟨#[some 7, some 14, none, none, some 4, none, some 9, some 17],
        #[70, 140, 0, 0, 40, 0, 90, 170], 5, 6, ⟨0x3f400000⟩⟩ :=
  ⟨rfl, eraseAt?_moves_back id rfl rfl, rfl⟩

/-- If all entries are within reach, an entry can be erased without a fault, whether or not there is
an empty slot, and all others are kept and still within reach. -/
theorem eraseAt?_of_reachable {hash : K → UInt64} (hs : t.values.size = t.capacity)
    (hc : t.Counted) (hr : t.Reachable hash) (he : t.slot? i = some e) :
    ∃ u, Checked.eraseAt? (fun _ => hash) t i = .ok (some e, u) ∧
      t.eraseAt? hash i = .ok (some e) u ∧ u.capacity = t.capacity ∧ u.size + 1 = t.size ∧
      u.Counted ∧ t.entries.Perm (e :: u.entries) ∧ u.Reachable hash := by
  obtain ⟨u, hrun, hu⟩ := exists_eraseAt? hash hs he
  have hpos := hc.size_pos he
  refine ⟨u, ?_, hrun, hu.capacity_eq, ?_, hu.counted hc, hu.entries, hu.reachable hr⟩
  · rw [Checked.refines_eraseAt?.eq_mapError (Checked.eraseAt?_ne_fault hs he hpos _), hrun]
    rfl
  · rw [hu.size_eq]
    omega

/-- Eight slots that are all occupied. -/
def crowded : Table UInt64 :=
  ⟨#[some 5, some 14, some 6, some 12, some 3, some 2, some 17, some 8],
    #[50, 140, 60, 120, 30, 20, 170, 80], 8, 6, ⟨0x3f400000⟩⟩

/-- The loop goes round the full row almost twice before it comes to the gap again. -/
theorem eraseAt?_of_reachable_crowded :
    crowded.Counted ∧ crowded.Reachable id ∧ ¬crowded.HasGap ∧
      ∃ u, Checked.eraseAt? (fun _ => id) crowded 1 = .ok (some (14, 140), u) ∧
        crowded.eraseAt? id 1 = .ok (some (14, 140)) u ∧ u.capacity = 8 ∧ u.size + 1 = 8 ∧
        u.Counted ∧ crowded.entries.Perm ((14, 140) :: u.entries) ∧ u.Reachable id := by
  have hc : crowded.Counted := by decide
  have hr : crowded.Reachable id := by decide +kernel
  exact ⟨hc, hr, by decide, eraseAt?_of_reachable rfl hc hr rfl⟩

end LinearProbe.Table
