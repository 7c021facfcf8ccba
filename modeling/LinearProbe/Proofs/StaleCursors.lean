import LinearProbe.Proofs.Cursors
import LinearProbe.Proofs.Seams

/-!
# Cursors and erasures behind their backs

A cursor keeps the slot of the entry that it stands on. An erasure that does not go through the
cursor leaves it alone, also if that entry is erased or moved, and then another entry may come to
lie in the slot. Erasing at the cursor takes what is in the slot by then (`KeepsSlot`) : the entry
that the cursor was moved to, as long as no erasure began in front of it in its run of occupied
slots, and otherwise possibly another entry (`Session.cursor_keeps_slot`). When the entry itself is
erased directly, its slot is taken by another one exactly if the probe path of an entry behind it in
the run passes the slot (`occupied_erased_iff`).
-/

namespace LinearProbe.Table

variable {K : Type} {hash : K → UInt64} {t u : Table K} {c : Cursor} {i j : Nat}
  {e : K × Int32}

/-! ## The slot of an erased entry -/

/-- Behind the entry in slot `i`, in its run of occupied slots, is an entry whose probe path passes
the slot. -/
def Refills (hash : K → UInt64) (t : Table K) (i : Nat) : Prop :=
  ∃ j k, i ≠ j ∧ t.Run i j ∧ t.key? j = some k ∧ t.distance i j ≤ t.displacement (hash k) j

theorem slot?_eraseAt?_of_not_run (hs : t.values.size = t.capacity) (hno : ¬t.Run j i) :
    (t.eraseAt? hash j).state.slot? i = t.slot? i := by
  rcases eraseAt?_cases hs hash j with ⟨-, hrun⟩ | ⟨-, hrun⟩ | ⟨e, u, hrun, -⟩ <;> rw [hrun]
  · rfl
  · rfl
  · obtain ⟨dest, gap, h⟩ := shifted_of_eraseAt? hs hrun
    exact slot?_congr (h.frame i hno).1 (h.frame i hno).2

section Refills

variable [BEq K] [EquivBEq K] {dest : Nat → Nat} {gap : Nat}

/-- The slot of an erased entry is occupied again exactly if a probe path passes it. -/
theorem occupied_erased_iff (hr : t.Reachable hash) (hd : t.Distinct) (hg : t.HasGap)
    (hu : Erased hash t i e u) (h : Shifted hash t i u dest gap) :
    u.Occupied i ↔ t.Refills hash i := by
  have hi := lt_capacity_of_key? (slot?_eq_some.1 hu.slot?_eq).1
  have hhome : ∀ k, t.home (hash k) < t.capacity := fun k => home_lt (Nat.zero_lt_of_lt hi) _
  obtain ⟨hunequal, hdistinct⟩ := hu.toRemoved.unequal hd
  constructor
  · intro ho
    obtain ⟨k, hk⟩ := occupied_iff.1 ho
    have hmem : (k, u.value i) ∈ u.entries := mem_entries.2 ⟨i, slot?_eq_some.2 ⟨hk, rfl⟩⟩
    obtain ⟨m, hm⟩ := mem_entries.1 (hu.entries.mem_iff.2 (List.mem_cons_of_mem _ hmem))
    have hkm := (slot?_eq_some.1 hm).1
    have hne : m ≠ i := by
      rintro rfl
      obtain rfl := Option.some.inj (hu.slot?_eq.symm.trans hm)
      simpa using hunequal _ hmem
    have hdest : dest m = i := hdistinct _ _ k k (h.key?_dest hkm hne) hk BEq.rfl
    refine ⟨m, k, hne.symm, ?_, hkm, ?_⟩
    · refine Classical.byContradiction fun hno => hne ?_
      exact hdistinct m i k k ((h.frame m hno).1.trans hkm) hk BEq.rfl
    · rcases h.nearer m k hkm hne with heq | hlt
      · exact absurd (heq.symm.trans hdest) hne
      · rw [hdest] at hlt
        exact (distance_le_iff (hhome k) hi (lt_capacity_of_key? hkm)).2 (Nat.le_of_lt hlt)
  · rintro ⟨j, k, hne, hrun, hk, hle⟩
    refine Decidable.byContradiction fun hno => ?_
    have hj := lt_capacity_of_key? hk
    have hkd := h.key?_dest hk hne.symm
    have hback := (hu.reachable hr).distance_lt hkd (hu.capacity_eq ▸ hi) (not_occupied_iff.1 hno)
    rw [home_congr hu.capacity_eq, distance_congr hu.capacity_eq, distance_congr hu.capacity_eq]
      at hback
    have hfront := (distance_le_iff (hhome k) hi hj).1 hle
    have hrun' : t.Run i (dest j) := by
      refine Classical.byContradiction fun hnot => ?_
      have heq := hd (dest j) j k k ((h.frame _ hnot).1.symm.trans hkd) hk BEq.rfl
      rw [heq] at hback
      omega
    -- the two paths go round the whole row, past every empty slot
    obtain ⟨g, hg, hempty⟩ := hg
    have hj' := hrun'.1
    have hreach := hr.distance_lt hk hg (not_occupied_iff.1 hempty)
    have hpast : ¬t.distance i g ≤ t.distance i (dest j) := fun hle => hempty (hrun'.2 g hg hle)
    have := t.distance_cases (hhome k) hj'
    have := t.distance_cases (hhome k) hi
    have := t.distance_cases (hhome k) hj
    have := t.distance_cases (hhome k) hg
    have := t.distance_cases hi hj'
    have := t.distance_cases hi hg
    omega

end Refills

/-! ## Commands that erase -/

namespace Command

/-- The command erases an entry without the cursor. -/
def IsDirect (hash : K → UInt64) : Command K → Prop
  | erase? hash' _ _ | eraseAt? hash' _ => hash' = hash
  | _ => False

/-- The command moves the cursor on, erases at it, or erases an entry without it. -/
def IsErasing (hash : K → UInt64) (c : Command K) : Prop :=
  c = advanceCursor ∨ c = eraseCursor hash ∨ c.IsDirect hash

/-- The slot at which a direct erasure begins, if it erases any entry. -/
def target? (t : Table K) : Command K → Option Nat
  | erase? _ h p =>
    match t.indexOf? h p with
    | .ok i? => i?
    | .error _ => none
  | eraseAt? _ i => some i
  | _ => none

end Command

namespace Session

variable {s : Session K} {cs ds : List (Command K)} {d : Command K}

theorem occupied_of_seek {start n v w : Nat} (h : Cursor.seek t start n v = some (i, w)) :
    t.Occupied i := by
  induction n generalizing v with
  | zero => cases h
  | succ n ih =>
    rw [Cursor.seek] at h
    split at h
    · next ho =>
      cases h
      exact ho
    · exact ih h

variable [Stored K]

/-- The session after commands, whether or not they abort. -/
def after (s : Session K) (cs : List (Command K)) : Session K :=
  cs.foldl (fun s c => (s.perform c).state) s

/-- A direct erasure is one at a slot, and leaves the cursor as it is. -/
theorem state_perform_of_direct (hd : d.IsDirect hash) : (s.perform d).state =
    ⟨s.table.eraseSlots hash (d.target? s.table).toList, s.cursor⟩ := by
  cases d with
  | erase? hash' h p =>
    obtain rfl := hd
    rw [perform, Outcome.state_map, lift, Outcome.state_within, Table.erase?, Command.target?]
    rcases s.table.indexOf? h p with a | _ | i <;> rfl
  | eraseAt? hash' i =>
    obtain rfl := hd
    rw [perform, Outcome.state_map, lift, Outcome.state_within]
    rfl
  | _ => cases hd

theorem exists_after_of_direct (hds : ∀ d ∈ ds, d.IsDirect hash) :
    ∃ is, s.after ds = ⟨s.table.eraseSlots hash is, s.cursor⟩ := by
  induction ds generalizing s with
  | nil => exact ⟨[], rfl⟩
  | cons d ds ih =>
    obtain ⟨hd, hds⟩ := List.forall_mem_cons.1 hds
    obtain ⟨is, his⟩ := ih hds (s := (s.perform d).state)
    refine ⟨(d.target? s.table).toList ++ is, his.trans ?_⟩
    rw [state_perform_of_direct hd, eraseSlots_append]

/-- Erasing at a cursor is erasing at its slot, and leaves it on no entry. -/
theorem state_eraseCursor :
    (s.perform (.eraseCursor hash)).state.table =
      s.table.eraseSlots hash s.cursor.current.toList ∧
    (s.perform (.eraseCursor hash)).state.cursor.current = none := by
  rw [perform, Outcome.state_map, Outcome.state_within]
  unfold Cursor.erase
  cases hc : s.cursor.current with
  | none => exact ⟨rfl, hc⟩
  | some i =>
    rw [Option.toList_some, eraseSlots, List.foldl_cons, List.foldl_nil]
    cases hrun : s.table.eraseAt? hash i with
    | error a u => simp only [hrun, Outcome.state, and_self]
    | ok e? u => cases e? <;> simp only [hrun, Outcome.state, and_self]

theorem exists_perform_of_erasing (hd : d.IsErasing hash) :
    ∃ is, (s.perform d).state.table = s.table.eraseSlots hash is := by
  rcases hd with rfl | rfl | hd
  · exact ⟨[], rfl⟩
  · exact ⟨_, state_eraseCursor.1⟩
  · exact ⟨_, congrArg table (state_perform_of_direct hd)⟩

theorem exists_after_of_erasing (hcs : ∀ c ∈ cs, c.IsErasing hash) :
    ∃ is, (s.after cs).table = s.table.eraseSlots hash is := by
  induction cs generalizing s with
  | nil => exact ⟨[], rfl⟩
  | cons c cs ih =>
    obtain ⟨hc, hcs⟩ := List.forall_mem_cons.1 hcs
    obtain ⟨is, his⟩ := exists_perform_of_erasing hc (s := s)
    obtain ⟨js, hjs⟩ := ih hcs (s := (s.perform c).state)
    refine ⟨is ++ js, hjs.trans ?_⟩
    rw [his, eraseSlots_append]

/-! ## Steps of the cursor -/

/-- A cursor that moves on stands on the entry that is answered with. -/
theorem exists_advance (s : Session K) :
    ∃ c, s.perform .advanceCursor = .ok (.index? c.current) ⟨s.table, c⟩ ∧
      ∀ i, c.current = some i → s.table.Occupied i := by
  refine ⟨(s.cursor.advance s.table).2, ?_⟩
  rw [perform, Cursor.advance]
  cases hseek : Cursor.seek s.table s.cursor.start (s.table.capacity - s.cursor.visited)
      s.cursor.visited with
  | none => exact ⟨rfl, fun i hi => absurd hi.symm (Option.some_ne_none i)⟩
  | some met =>
    refine ⟨rfl, fun j hj => ?_⟩
    cases hj
    exact occupied_of_seek hseek

theorem eraseCursor_of_none (hc : s.cursor.current = none) :
    s.perform (.eraseCursor hash) = .ok (.pair? none) s := by
  rw [perform, Cursor.erase_of_none hc]
  rfl

theorem eraseCursor_of_empty (hc : s.cursor.current = some i) (hi : i < s.table.capacity)
    (hempty : s.table.slot? i = none) : s.perform (.eraseCursor hash) =
      .ok (.pair? none) ⟨s.table, { s.cursor with current := none }⟩ := by
  have hrun : s.table.eraseAt? hash i = .ok none s.table :=
    eraseAt?_of_empty hi (slot?_eq_none.1 hempty)
  simp only [perform, Cursor.erase, hc, hrun]
  rfl

theorem eraseCursor_of_slot? (hs : s.table.values.size = s.table.capacity)
    (hc : s.cursor.current = some i) (he : s.table.slot? i = some e) :
    ∃ u, s.perform (.eraseCursor hash) =
        .ok (.pair? (some e)) ⟨u, ⟨s.cursor.start, s.cursor.visited - 1, none⟩⟩ ∧
      Erased hash s.table i e u := by
  obtain ⟨u, hrun, hu⟩ := exists_eraseAt? hash hs he
  refine ⟨u, ?_, hu⟩
  simp only [perform, Cursor.erase, hc, hrun]
  rfl

/-! ## What direct erasures leave of an entry -/

/-- No direct erasure begins at a slot from which a run of occupied slots leads to slot `i`. -/
def Spares (s : Session K) (ds : List (Command K)) (i : Nat) : Prop :=
  ∀ before d later j, ds = before ++ d :: later → d.target? (s.after before).table = some j →
    ¬(s.after before).table.Run j i

theorem spares_nil : s.Spares [] i := by
  rintro before d later j heq
  simp at heq

theorem spares_cons : s.Spares (d :: ds) i ↔
    (∀ j, d.target? s.table = some j → ¬s.table.Run j i) ∧ (s.perform d).state.Spares ds i := by
  constructor
  · intro h
    refine ⟨fun j => h [] d ds j rfl, ?_⟩
    rintro before d' later j rfl
    exact h (d :: before) d' later j rfl
  · rintro ⟨hfirst, hrest⟩ before d' later j heq
    cases before with
    | nil =>
      obtain ⟨rfl, rfl⟩ := List.cons.inj heq
      exact hfirst j
    | cons b before =>
      obtain ⟨rfl, rfl⟩ := List.cons.inj heq
      exact hrest before d' later j rfl

/-- A slot that direct erasures spare keeps its entry. -/
theorem Spares.slot?_eq (h : s.Spares ds i) (hs : s.table.values.size = s.table.capacity)
    (hds : ∀ d ∈ ds, d.IsDirect hash) : (s.after ds).table.slot? i = s.table.slot? i := by
  induction ds generalizing s with
  | nil => rfl
  | cons d ds ih =>
    obtain ⟨hd, hds⟩ := List.forall_mem_cons.1 hds
    obtain ⟨hno, hrest⟩ := spares_cons.1 h
    have hfirst : (s.perform d).state.table.slot? i = s.table.slot? i := by
      rw [state_perform_of_direct hd]
      cases htarget : d.target? s.table with
      | none => rfl
      | some j => exact slot?_eraseAt?_of_not_run hs (hno j htarget)
    have hsize : (s.perform d).state.table.values.size = (s.perform d).state.table.capacity := by
      rw [state_perform_of_direct hd]
      exact eraseSlots_rule (fun _ h => h) (fun _ _ _ _ _ hw => hw.size_values) hs _
    exact (ih hrest hsize hds).trans hfirst

end Session

/-- The table `u` has come from `t` by erasures alone. -/
structure Thinned [BEq K] (hash : K → UInt64) (t u : Table K) : Prop extends Unfilled hash t u where
  distinct : u.Distinct
  subset : ∀ e ∈ u.entries, e ∈ t.entries

section Thinned

variable [BEq K]

theorem WellFormed.thinned (h : t.WellFormed hash) : Thinned hash t t :=
  ⟨⟨rfl, h.aligned.size_values, h.reachable, fun _ _ h => h⟩, h.distinct, fun _ h => h⟩

namespace Thinned

theorem self (h : Thinned hash t u) : Thinned hash u u :=
  ⟨⟨rfl, h.size_values, h.reachable, fun _ _ h => h⟩, h.distinct, fun _ h => h⟩

theorem hasGap (h : Thinned hash t u) (hg : t.HasGap) : u.HasGap := by
  obtain ⟨g, hgc, hempty⟩ := hg
  exact ⟨g, h.capacity_eq ▸ hgc, not_occupied_iff.2 (h.empty g hgc (not_occupied_iff.1 hempty))⟩

theorem eraseSlots [EquivBEq K] (h : Thinned hash t u) (is : List Nat) :
    Thinned hash t (u.eraseSlots hash is) :=
  eraseSlots_rule (fun _ h => h.size_values)
    (fun _ _ _ _ h hw => ⟨h.toUnfilled.erased hw, (hw.toRemoved.unequal h.distinct).2,
      fun e he => h.subset e (hw.entries.mem_iff.2 (List.mem_cons_of_mem _ he))⟩) h is

end Thinned

/-- Two entries of a table without equal keys are one entry or have unequal keys. -/
theorem Distinct.eq_or_unequal {e' : K × Int32} (hd : t.Distinct) (he : e ∈ t.entries)
    (he' : e' ∈ t.entries) : e' = e ∨ (e.1 == e'.1) = false := by
  obtain ⟨i, hi⟩ := mem_entries.1 he
  obtain ⟨j, hj⟩ := mem_entries.1 he'
  cases hk : e.1 == e'.1 with
  | false => exact Or.inr rfl
  | true =>
    obtain rfl := hd i j _ _ (slot?_eq_some.1 hi).1 (slot?_eq_some.1 hj).1 hk
    exact Or.inl (Option.some.inj (hj.symm.trans hi))

end Thinned

/-! ## What a cursor erases -/

/-- What a cursor `c`, moved over the table `t` to slot `i` and the entry `e` in it, comes to when
direct erasures `ds` have left the table `u`. The cursor is as it was. Erasing at it takes the entry
that the slot holds by then : that entry, if the erasures spared the slot, or else one with another
key; and if the slot is empty it answers with none and erases nothing. -/
structure KeepsSlot [BEq K] [Stored K] (hash : K → UInt64) (t : Table K) (c : Cursor) (i : Nat)
    (e : K × Int32) (ds : List (Command K)) (u : Table K) : Prop where
  after_eq : Session.after ⟨t, c⟩ ds = ⟨u, c⟩
  spared : Session.Spares ⟨t, c⟩ ds i → u.slot? i = some e
  emptied : u.slot? i = none → (⟨u, c⟩ : Session K).perform (.eraseCursor hash) =
    .ok (.pair? none) ⟨u, { c with current := none }⟩
  held : ∀ e', u.slot? i = some e' → (e' = e ∨ e' ∈ t.entries ∧ (e.1 == e'.1) = false) ∧
    ∃ w, (⟨u, c⟩ : Session K).perform (.eraseCursor hash) =
      .ok (.pair? (some e')) ⟨w, ⟨c.start, c.visited - 1, none⟩⟩ ∧ Erased hash u i e' w

section Cursor

variable [BEq K] [EquivBEq K] [Stored K]

theorem keepsSlot_of_direct {ds : List (Command K)} (ht : Thinned hash t t)
    (hc : c.current = some i) (he : t.slot? i = some e) (hds : ∀ d ∈ ds, d.IsDirect hash) :
    ∃ u, KeepsSlot hash t c i e ds u := by
  have hi := lt_capacity_of_key? (slot?_eq_some.1 he).1
  obtain ⟨is, his⟩ := Session.exists_after_of_direct hds (s := ⟨t, c⟩)
  have hu := ht.eraseSlots is
  refine ⟨t.eraseSlots hash is, his, fun hspares => ?_, fun hempty => ?_, fun e' he' => ?_⟩
  · have hslot := hspares.slot?_eq ht.size_values hds
    rw [his] at hslot
    exact hslot.trans he
  · exact Session.eraseCursor_of_empty hc (hu.capacity_eq ▸ hi) hempty
  · refine ⟨?_, Session.eraseCursor_of_slot? hu.size_values hc he'⟩
    have hmem := hu.subset e' (mem_entries.2 ⟨i, he'⟩)
    exact (ht.distinct.eq_or_unequal (mem_entries.2 ⟨i, he⟩) hmem).imp_right fun h => ⟨hmem, h⟩

/-- A cursor over a well-formed table that moves on, erases, and has entries erased behind its back,
stands on no entry at first and after each erasure at it, and then erases nothing. When it has moved
to an entry it stands on the slot of this entry, whatever is erased directly (`KeepsSlot`). If it is
that entry that is erased directly, the slot is occupied again exactly if a probe path passes it,
and another entry is erased at the cursor then. -/
theorem Session.cursor_keeps_slot (ht : t.WellFormed hash) {cs : List (Command K)}
    (hcs : ∀ c ∈ cs, c.IsErasing hash) {s : Session K} (hs : (Session.new t).after cs = s) :
    (Session.new t).cursor.current = none ∧
    (s.perform (.eraseCursor hash)).state.cursor.current = none ∧
    (s.cursor.current = none → s.perform (.eraseCursor hash) = .ok (.pair? none) s) ∧
    (∀ ds : List (Command K), (∀ d ∈ ds, d.IsDirect hash) → (s.after ds).cursor = s.cursor) ∧
    ∃ c, s.perform .advanceCursor = .ok (.index? c.current) ⟨s.table, c⟩ ∧
      ∀ i, c.current = some i → ∃ e, s.table.slot? i = some e ∧
        (∀ ds : List (Command K), (∀ d ∈ ds, d.IsDirect hash) →
          ∃ u, KeepsSlot hash s.table c i e ds u) ∧
        ∃ u, s.table.eraseAt? hash i = .ok (some e) u ∧
          (u.Occupied i ↔ s.table.Refills hash i) := by
  subst hs
  obtain ⟨is, his⟩ := Session.exists_after_of_erasing hcs (s := .new t)
  have hthin : Thinned hash t ((Session.new t).after cs).table := by
    rw [his]
    exact ht.thinned.eraseSlots is
  refine ⟨rfl, Session.state_eraseCursor.2, Session.eraseCursor_of_none, fun ds hds => ?_, ?_⟩
  · obtain ⟨js, hjs⟩ := Session.exists_after_of_direct hds (s := (Session.new t).after cs)
    rw [hjs]
  · obtain ⟨c, hadvance, hoccupied⟩ := Session.exists_advance ((Session.new t).after cs)
    refine ⟨c, hadvance, fun i hc => ?_⟩
    obtain ⟨k, hk⟩ := occupied_iff.1 (hoccupied i hc)
    have he : ((Session.new t).after cs).table.slot? i = some (k, _) := slot?_eq_some.2 ⟨hk, rfl⟩
    obtain ⟨u, dest, gap, hrun, hu, hshift⟩ := exists_shifted hash hthin.size_values he
    exact ⟨_, he, fun ds hds => keepsSlot_of_direct hthin.self hc he hds, u, hrun,
      occupied_erased_iff hthin.reachable hthin.distinct (hthin.hasGap ht.hasGap) hu hshift⟩

end Cursor

/-- Three entries with one home, across the end of the row. -/
def stacked : Table UInt64 :=
  ⟨#[some 17, none, none, none, none, none, some 1, some 9], #[170, 0, 0, 0, 0, 0, 10, 90], 3, 6,
    ⟨0x3f400000⟩⟩

theorem respects_id : Respects (id : UInt64 → UInt64) :=
  fun _ _ h => eq_of_beq h

theorem wellFormed_stacked : stacked.WellFormed id := by
  have hrun : (Session.mk ⟨Array.replicate 8 none, Array.replicate 8 0, 0, 6, ⟨0x3f400000⟩⟩
      ⟨0, 0, none⟩).run
      [.insert? id 1 (· == 1) (1 : UInt64) 10, .insert? id 9 (· == 9) 9 90,
        .insert? id 17 (· == 17) 17 170] =
      .ok [.value? none, .value? none, .value? none] ⟨stacked, ⟨0, 0, none⟩⟩ := rfl
  have hreached : Reached id stacked := Reached.run (.made (by decide) ofHint_eight) (by
    simp only [List.forall_mem_cons]
    exact ⟨⟨rfl, rfl, rfl⟩, ⟨rfl, rfl, rfl⟩, ⟨rfl, rfl, rfl⟩,
      fun _ h => absurd h List.not_mem_nil⟩) hrun
  exact (hreached.sound respects_id).toWellFormed

/-- With the first of the three entries erased at the cursor, it moves on to the second one. That
one stays in its slot when the third is erased directly; when it is itself, the third takes the
slot. -/
theorem Session.cursor_keeps_slot_stacked :
    stacked.WellFormed id ∧
    (∀ c ∈ [Command.advanceCursor, .eraseCursor id], c.IsErasing id) ∧
    ∃ s : Session UInt64, (Session.new stacked).after [.advanceCursor, .eraseCursor id] = s ∧
      s.perform .advanceCursor = .ok (.index? (some 6)) ⟨s.table, ⟨2, 5, some 6⟩⟩ ∧
      s.table.slot? 6 = some (9, 90) ∧
      (∃ u, KeepsSlot id s.table ⟨2, 5, some 6⟩ 6 (9, 90) [.erase? id 17 (· == 17)] u ∧
        u.slot? 6 = some (9, 90)) ∧
      ∃ u, s.table.eraseAt? id 6 = .ok (some (9, 90)) u ∧ u.Occupied 6 := by
  have hcs : ∀ c ∈ [Command.advanceCursor, .eraseCursor (id : UInt64 → UInt64)],
      c.IsErasing id := by
    simp only [List.forall_mem_cons]
    exact ⟨Or.inl rfl, Or.inr (Or.inl rfl), fun _ h => absurd h List.not_mem_nil⟩
  refine ⟨wellFormed_stacked, hcs, _, rfl, rfl, rfl, ?_⟩
  obtain ⟨-, -, -, -, c, hadvance, hall⟩ := cursor_keeps_slot wellFormed_stacked hcs rfl
  obtain rfl : c = ⟨2, 5, some 6⟩ :=
    (congrArg (fun o => (Outcome.state o).cursor) hadvance).symm
  obtain ⟨e, he, hkeeps, u, hrun, hrefilled⟩ := hall 6 rfl
  obtain rfl : e = (9, 90) := Option.some.inj (he.symm.trans rfl)
  constructor
  · obtain ⟨u, hu⟩ := hkeeps [.erase? id 17 (· == 17)] (by simp [Command.IsDirect])
    refine ⟨u, hu, hu.spared (spares_cons.2 ⟨fun j hj hrun => ?_, spares_nil⟩)⟩
    obtain rfl : 7 = j := Option.some.inj hj
    exact absurd (hrun.2 0 (by decide) (by decide)) (by decide)
  · refine ⟨u, hrun, hrefilled.2 ⟨7, 17, by decide, ⟨by decide, ?_⟩, rfl, by decide⟩⟩
    decide

/-- When the entry that a cursor was moved to is erased directly, the cursor goes on to stand on its
slot, and erasing at it erases the entry that has come to lie there. -/
theorem Session.eraseCursor_erases_other :
    stacked.WellFormed id ∧ ∃ s s' : Session UInt64,
      (Session.new stacked).run [.advanceCursor, .eraseAt? id 6] =
        .ok [.index? (some 6), .pair? (some (1, 10))] s ∧
      s.cursor.current = some 6 ∧
      s.perform (.eraseCursor id) = .ok (.pair? (some (9, 90))) s' ∧ s'.table ≠ s.table :=
  ⟨wellFormed_stacked, _, _, rfl, rfl, rfl, by decide⟩

end LinearProbe.Table
