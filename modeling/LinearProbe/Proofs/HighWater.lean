import LinearProbe.Proofs.Actions
import LinearProbe.Table.Session

/-!
# The number of slots is a high-water mark

An operation other than compacting either leaves the number of slots alone and adds no entry
(`Table.Recedes`), or adds entries and no more slots than they need (`Table.Rises`). In both cases
the slots afterwards are the least doubling of those before whose threshold admits the entries
(`Table.Levels`). Hence in a run of such operations the number of slots is the least doubling of the
first one that admits the most entries there have been (`Table.HighWater`), and nothing else of the
history matters (`Table.capacity_isLeast_of_peaks`).
-/

namespace LinearProbe

namespace Table

variable {K : Type} {t u w : Table K} {i : Nat} {k : K} {v : Int32} {hash : K → UInt64}
  {h : UInt64} {p : K → Bool}

/-! ## Levels -/

/-- The slots of `u` are as many as those of `t`, and its entries no more. -/
structure Recedes (t u : Table K) : Prop where
  intact : u.Intact 0
  capacity_eq : u.capacity = t.capacity
  loadFactor_eq : u.loadFactor = t.loadFactor
  size_le : u.size ≤ t.size

/-- The slots of `u` are the least doubling of those of `t` that admits its entries. -/
structure Levels (t u : Table K) : Prop where
  intact : u.Intact 0
  loadFactor_eq : u.loadFactor = t.loadFactor
  isLeast : IsLeast (admitting t.loadFactor t.capacity u.size) u.capacity

/-- The entries of `u` are no fewer than those of `t`, and its slots no more than they need. -/
structure Rises (t u : Table K) : Prop extends Levels t u where
  size_le : t.size ≤ u.size

theorem Intact.size_le_exactThreshold (ht : t.Intact 0) :
    t.size ≤ exactThreshold t.capacity t.loadFactor :=
  ht.threshold_eq ▸ ht.size_le

namespace Recedes

theorem refl (ht : t.Intact 0) : Recedes t t :=
  ⟨ht, rfl, rfl, Nat.le_refl _⟩

theorem trans (h : Recedes t u) (h' : Recedes u w) : Recedes t w :=
  ⟨h'.intact, h'.capacity_eq.trans h.capacity_eq, h'.loadFactor_eq.trans h.loadFactor_eq,
    Nat.le_trans h'.size_le h.size_le⟩

theorem levels (h : Recedes t u) : Levels t u := by
  refine ⟨h.intact, h.loadFactor_eq, ?_⟩
  rw [← h.capacity_eq, ← h.loadFactor_eq]
  exact isLeast_admitting_self h.intact.size_le_exactThreshold

theorem writeValue (ht : t.Intact 0) : Recedes t (t.writeValue i v) :=
  ⟨ht.writeValue, capacity_writeValue, rfl, Nat.le_refl _⟩

theorem clear (ht : t.Intact 0) : Recedes t t.clear :=
  ⟨ht.clear, capacity_clear, rfl, Nat.zero_le _⟩

end Recedes

namespace Rises

/-- A table of the same number of entries. -/
theorem of_recedes (h : Recedes t u) (hle : t.size ≤ u.size) : Rises t u :=
  ⟨h.levels, hle⟩

theorem trans (ht : t.Intact 0) (h : Rises t u) (h' : Rises u w) : Rises t w := by
  refine ⟨⟨h'.intact, h'.loadFactor_eq.trans h.loadFactor_eq, ?_⟩,
    Nat.le_trans h.size_le h'.size_le⟩
  have hmax := isLeast_admitting_max ht.capacity_pos h.isLeast (h.loadFactor_eq ▸ h'.isLeast)
  rwa [Nat.max_eq_right h'.size_le] at hmax

end Rises

/-! ## The mark -/

section Mark

variable {slots peak : Nat} {loadFactor : Single}

/-- The slots are the least doubling of the first ones that admits the most entries so far. -/
structure HighWater (slots : Nat) (loadFactor : Single) (t : Table K) (peak : Nat) : Prop where
  intact : t.Intact 0
  loadFactor_eq : t.loadFactor = loadFactor
  size_le : t.size ≤ peak
  isLeast : IsLeast (admitting loadFactor slots peak) t.capacity

namespace HighWater

theorem empty {c : Nat} (hmin : minCapacity ≤ 2 ^ c) (hlt : 2 ^ c < wordSize)
    (hf : loadFactor.isFraction = true) :
    HighWater (2 ^ c) loadFactor (Table.empty (2 ^ c) loadFactor : Table K) 0 where
  intact := intact_empty hmin hlt hf
  loadFactor_eq := rfl
  size_le := Nat.le_refl 0
  isLeast := by
    rw [capacity_empty]
    exact isLeast_admitting_self (Nat.zero_le _)

theorem step (h : HighWater slots loadFactor t peak) (hslots : 0 < slots) (hl : Levels t u) :
    HighWater slots loadFactor u (max peak u.size) where
  intact := hl.intact
  loadFactor_eq := hl.loadFactor_eq.trans h.loadFactor_eq
  size_le := Nat.le_max_right _ _
  isLeast := isLeast_admitting_max hslots h.isLeast (h.loadFactor_eq ▸ hl.isLeast)

/-- Below the mark nothing grows. -/
theorem capacity_eq (h : HighWater slots loadFactor t peak) (hl : Levels t u)
    (hle : u.size ≤ peak) : u.capacity = t.capacity := by
  have hadmits : peak ≤ exactThreshold t.capacity t.loadFactor := by
    rw [h.loadFactor_eq]
    exact h.isLeast.1.choose_spec.2
  exact hl.isLeast.unique (isLeast_admitting_self (Nat.le_trans hle hadmits))

end HighWater

/-- A table that grows for one entry more, and had room for one, grows to twice the slots. -/
theorem Levels.capacity_eq_two_mul (hl : Levels t u) (ht : t.Intact 0)
    (hne : u.capacity ≠ t.capacity) (hle : u.size ≤ t.size + 1) (hone : 1 ≤ t.threshold) :
    u.capacity = 2 * t.capacity := by
  have hdouble := two_mul_exactThreshold_le t.capacity t.loadFactor
  have hsize := ht.size_le
  rw [ht.threshold_eq] at hone hsize
  have hadmits : 2 * t.capacity ∈ admitting t.loadFactor t.capacity u.size :=
    ⟨1, by rw [Nat.pow_one, Nat.mul_comm], by omega⟩
  have hmost := hl.isLeast.2 hadmits
  obtain ⟨⟨j, hj, -⟩, -⟩ := hl.isLeast
  rw [hj] at hmost hne ⊢
  rw [Nat.mul_comm] at hmost ⊢
  have hpow := Nat.le_of_mul_le_mul_right hmost ht.capacity_pos
  match j with
  | 0 => simp at hne
  | 1 => rfl
  | j + 2 =>
    have := Nat.one_le_two_pow (n := j)
    rw [Nat.pow_add] at hpow
    omega

end Mark

/-! ## Operations on a table -/

/-- Changes that bring in no entry leave the slots as they are. -/
theorem Trims.recedes {storable : Int32 → Prop} (h : Trims hash storable t u) (ht : t.Intact 0) :
    Recedes t u := by
  induction h with
  | refl => exact .refl ht
  | tail _ h ih =>
    refine ih.trans ?_
    have hu := ih.intact
    cases h with
    | write hk hv => exact .writeValue hu
    | @erase i =>
      rcases eraseAt?_cases hu.aligned.size_values hash i with
        ⟨-, hrun⟩ | ⟨-, hrun⟩ | ⟨e, w, hrun, hw⟩ <;> rw [hrun]
      · exact .refl hu
      · exact .refl hu
      · exact ⟨hw.toRemoved.intact hu, hw.capacity_eq, hw.loadFactor_eq,
          hw.size_eq ▸ Nat.sub_le _ _⟩
    | clear => exact .clear hu

theorem Trims.levels {storable : Int32 → Prop} (h : Trims hash storable t u) (ht : t.Intact 0) :
    Levels t u :=
  (h.recedes ht).levels

section Lift

variable {α : Type} {s : Session K} {o : Outcome Abort (Table K) α} {f : α → Answer K}

theorem Session.table_map_lift : ((s.lift o).map f).state.table = o.state := by
  rw [Outcome.state_map, lift, Outcome.state_within]

theorem Session.failsWith_map_lift {a : Abort} :
    ((s.lift o).map f).failsWith a = o.failsWith a := by
  rw [Outcome.failsWith_map]
  exact Outcome.failsWith_within (f := id) fun _ => Iff.rfl

end Lift

variable [Stored K]

/-- A table grows to the least doubling that admits its entries. -/
theorem isLeast_of_grow (ha : t.Aligned) (hc : t.Counted) (hf : t.loadFactor.isFraction = true)
    (hgrow : exactThreshold t.capacity t.loadFactor < t.size) (hrun : t.grow hash = .ok u) :
    u.size = t.size ∧ u.loadFactor = t.loadFactor ∧
      IsLeast (admitting t.loadFactor t.capacity t.size) u.capacity := by
  obtain ⟨slots, hfit, -, hu⟩ := exists_of_grow_eq_ok ha hc hf hrun
  refine ⟨hu.size_eq, hu.loadFactor_eq, hu.capacity_eq ▸ isLeast_admitting_of_two_mul hgrow ?_⟩
  obtain ⟨c, hpow⟩ := ha.isPowerOfTwo
  have hdouble : 2 * t.capacity = 2 ^ (c + 1) := by rw [hpow, Nat.pow_succ, Nat.mul_comm]
  rw [hdouble] at hfit ⊢
  exact isLeast_of_fitting? hf hfit

/-- An insert that is carried out has written the entry, or written it and grown the table. -/
theorem eq_store_or_grow (hrun : t.insertAt hash i k v = .ok () u) :
    u = t.store i k v ∨
      (t.store i k v).threshold < (t.store i k v).size ∧ (t.store i k v).grow hash = .ok u := by
  unfold insertAt at hrun
  dsimp only at hrun
  split at hrun
  · next hlt =>
    split at hrun
    · next hgrow =>
      cases hrun
      exact Or.inr ⟨hlt, hgrow⟩
    · cases hrun
  · cases hrun
    exact Or.inl rfl

theorem rises_insertAt (ht : t.Intact 0) (hi : i < t.capacity) (hempty : t.key? i = none)
    (hno : (t.insertAt hash i k v).failsWith .capacityOverflow = 0) :
    Rises t (t.insertAt hash i k v).state := by
  have hcap : (t.store i k v).capacity = t.capacity := capacity_store
  rcases ht.insertAt hi hempty hash k v with ⟨u, hrun, hu, -⟩ | hrun
  · rw [hrun]
    rcases eq_store_or_grow hrun with rfl | ⟨hlt, hgrow⟩
    · refine ⟨⟨hu, rfl, ?_⟩, Nat.le_succ t.size⟩
      exact hcap ▸ isLeast_admitting_self hu.size_le_exactThreshold
    · have hstored : (t.store i k v).Intact 1 := ht.store hi hempty (Nat.lt_succ_of_le ht.size_le)
      rw [hstored.threshold_eq] at hlt
      obtain ⟨hsize, hf, hleast⟩ :=
        isLeast_of_grow hstored.aligned hstored.counted hstored.fraction hlt hgrow
      rw [hcap, ← hsize] at hleast
      exact ⟨⟨hu, hf, hleast⟩, hsize ▸ Nat.le_succ t.size⟩
  · rw [hrun] at hno
    simp [Outcome.failsWith, Outcome.fails, Outcome.result] at hno

theorem rises_insert? (ht : t.Intact 0)
    (hno : (t.insert? hash h p k v).failsWith .capacityOverflow = 0) :
    Rises t (t.insert? hash h p k v).state := by
  unfold insert? at hno ⊢
  split at hno
  · exact .of_recedes (.refl ht) (Nat.le_refl _)
  · exact .of_recedes (.writeValue ht) (Nat.le_refl _)
  · next i hrun =>
    obtain ⟨-, hi, hempty⟩ := stopsAt_of_locate hrun
    rw [Outcome.failsWith_map] at hno
    rw [Outcome.state_map]
    exact rises_insertAt ht hi hempty hno

/-- Any call but an insert and that of `compact` brings in no entry and leaves the slots as they
are. -/
theorem recedes_perform {s : Session K} {c : Command K} (ht : s.table.Intact 0)
    (hi : ∀ hash h p k v, c ≠ .insert? hash h p k v) (hc : ∀ hash, c ≠ .compact hash) :
    Recedes s.table (s.perform c).state.table := by
  cases c with
  | insert? hash h p k v => exact absurd rfl (hi hash h p k v)
  | replace? h p v =>
    have htrims : Trims (fun _ => 0) (fun _ => True) s.table (s.table.replace? h p v).state :=
      trims_replace? trivial
    exact Session.table_map_lift ▸ htrims.recedes ht
  | replaceAt? i v =>
    have htrims : Trims (fun _ => 0) (fun _ => True) s.table (s.table.replaceAt? i v).state :=
      trims_replaceAt? trivial
    exact Session.table_map_lift ▸ htrims.recedes ht
  | erase? hash h p =>
    have htrims : Trims hash (fun _ => True) s.table (s.table.erase? hash h p).state :=
      trims_erase?
    exact Session.table_map_lift ▸ htrims.recedes ht
  | eraseAt? hash i =>
    have htrims : Trims hash (fun _ => True) s.table (s.table.eraseAt? hash i).state :=
      Trim.erase.single
    exact Session.table_map_lift ▸ htrims.recedes ht
  | compact hash => exact absurd rfl (hc hash)
  | clear | drain _ => exact .clear ht
  | startCursor | advanceCursor => exact .refl ht
  | eraseCursor hash =>
    have htrims : Trims hash (fun _ => True) s.table (s.cursor.erase hash s.table).state.1 :=
      trims_eraseCursor
    rw [Session.perform, Outcome.state_map, Outcome.state_within]
    exact htrims.recedes ht

/-- Any call but that of `compact` leaves the least doubling of the slots that admits the
entries. -/
theorem levels_perform {s : Session K} {c : Command K} (ht : s.table.Intact 0)
    (hc : ∀ hash, c ≠ .compact hash) (hno : (s.perform c).failsWith .capacityOverflow = 0) :
    Levels s.table (s.perform c).state.table := by
  cases c with
  | insert? hash h p k v =>
    rw [Session.perform, Session.failsWith_map_lift] at hno
    rw [Session.perform, Session.table_map_lift]
    exact (rises_insert? ht hno).toLevels
  | _ => exact (recedes_perform ht (by simp) hc).levels

end Table

namespace Map

open Table (Recedes Levels Rises)

variable {K : Type} {m m' : Map K} {i : Nat} {k : K} {v : Int32}

/-! ## Operations on a map -/

section Lift

variable {α : Type} {o : Outcome Abort (Table K) α}

theorem table_lift : (m.lift o).state.table = o.state := by
  rw [lift, Outcome.state_within]

theorem failsWith_lift : (m.lift o).failsWith (.aborted .capacityOverflow) =
    o.failsWith .capacityOverflow :=
  Outcome.failsWith_within fun e => by simp

end Lift

/-- An operation that brings in no entry leaves the slots as they are. -/
theorem Trimmed.levels {α : Type} {o : Outcome Failure (Map K) α} (h : Trimmed m o)
    (ht : m.table.Intact 0) : Levels m.table o.state.table := by
  obtain ⟨u, hstate, htrims⟩ := h
  rw [hstate]
  exact htrims.levels ht

variable [BEq K] [Stored K]

theorem rises_insert? (ht : m.table.Intact 0)
    (hno : (m.insert? k v).failsWith (.aborted .capacityOverflow) = 0) :
    Rises m.table (m.insert? k v).state.table := by
  unfold insert? permitting at hno ⊢
  split at hno
  · exact .of_recedes (.refl ht) (Nat.le_refl _)
  · rw [failsWith_lift] at hno
    rw [table_lift]
    exact Table.rises_insert? ht hno

theorem rises_insertList {es : List (K × Int32)} (ht : m.table.Intact 0)
    (hno : (m.insertList es).failsWith (.aborted .capacityOverflow) = 0) :
    Rises m.table (m.insertList es).state.table := by
  induction es generalizing m with
  | nil => exact .of_recedes (.refl ht) (Nat.le_refl _)
  | cons e es ih =>
    have hfirst := rises_insert? ht (k := e.1) (v := e.2)
    rw [insertList] at hno ⊢
    cases hrun : m.insert? e.1 e.2 with
    | ok old? m' =>
      rw [hrun] at hfirst hno
      have hrises := hfirst rfl
      exact hrises.trans ht (ih hrises.intact hno)
    | error f m' =>
      rw [hrun] at hfirst hno
      exact hfirst hno

/-- An entry inserted where the probe for its key stopped. -/
theorem levels_insertAt {α : Type} {f : Unit → α} (ht : m.table.Intact 0)
    (hrun : m.table.locate (m.hash k) (· == k) = .ok (.free i))
    (hno : ((m.lift (m.table.insertAt m.hash i k v)).map f).failsWith
      (.aborted .capacityOverflow) = 0) :
    Levels m.table ((m.lift (m.table.insertAt m.hash i k v)).map f).state.table := by
  obtain ⟨-, hi, hempty⟩ := Table.stopsAt_of_locate hrun
  rw [Outcome.failsWith_map, failsWith_lift] at hno
  rw [Outcome.state_map, table_lift]
  exact (Table.rises_insertAt ht hi hempty hno).toLevels

theorem levels_getOrInsertWith {f : K → Int32} (ht : m.table.Intact 0)
    (hno : (m.getOrInsertWith k f).failsWith (.aborted .capacityOverflow) = 0) :
    Levels m.table (m.getOrInsertWith k f).state.table := by
  unfold getOrInsertWith at hno ⊢
  split at hno
  · exact (Recedes.refl ht).levels
  · exact (Recedes.refl ht).levels
  · next hrun =>
    dsimp only at hno ⊢
    by_cases hv : f k = m.missing
    · rw [if_pos hv]
      exact (Recedes.refl ht).levels
    · rw [if_neg hv] at hno ⊢
      exact levels_insertAt ht hrun hno

theorem levels_combine {f : Int32 → Int32 → Int32} (ht : m.table.Intact 0)
    (hno : (m.combine k v f).failsWith (.aborted .capacityOverflow) = 0) :
    Levels m.table (m.combine k v f).state.table := by
  unfold combine permitting at hno ⊢
  split at hno
  · exact (Recedes.refl ht).levels
  · dsimp only at hno ⊢
    split at hno
    · exact (Recedes.refl ht).levels
    · next hrun =>
      obtain ⟨-, l, hl, -⟩ := Table.stopsAt_of_locate hrun
      exact (trimmed_settle hl).levels ht
    · next hrun => exact levels_insertAt ht hrun hno

/-- Any command but `compact` leaves the least doubling of the slots that admits the entries. -/
theorem levels_perform (ht : m.table.Intact 0) {c : Command K} (hc : c ≠ .compact)
    (hno : (m.perform c).failsWith (.aborted .capacityOverflow) = 0) :
    Levels m.table (m.perform c).state.table := by
  cases c with
  | insert k v =>
    rw [perform, insert, Outcome.failsWith_map, Outcome.failsWith_map] at hno
    rw [perform, insert, Outcome.state_map, Outcome.state_map]
    exact (rises_insert? ht hno).toLevels
  | insert? k v =>
    rw [perform, Outcome.failsWith_map] at hno
    rw [perform, Outcome.state_map]
    exact (rises_insert? ht hno).toLevels
  | insertMany es =>
    rw [perform, Outcome.failsWith_map, failsWith_insertMany] at hno
    rw [perform, insertMany, Outcome.state_map, Outcome.state_within]
    exact (rises_insertList ht hno).toLevels
  | getOrInsertWith k f =>
    rw [perform, Outcome.failsWith_map] at hno
    rw [perform, Outcome.state_map]
    exact levels_getOrInsertWith ht hno
  | combine k v f =>
    rw [perform, Outcome.failsWith_map] at hno
    rw [perform, Outcome.state_map]
    exact levels_combine ht hno
  | compact => exact absurd rfl hc
  | _ => exact Trimmed.levels (trimmed_perform not_false) ht

/-- Any action but compacting leaves the least doubling of the slots that admits the entries. -/
theorem levels_act (ht : m.table.Intact 0) {a : Action K} (ha : a ≠ .command .compact)
    (hno : (m.act a).failsWith (.aborted .capacityOverflow) = 0) :
    Levels m.table (m.act a).state.table := by
  cases a with
  | command c =>
    rw [act, Outcome.failsWith_map] at hno
    rw [act, Outcome.state_map]
    exact levels_perform ht (fun hc => ha (congrArg _ hc)) hno
  | insertMap other => exact (rises_insertList ht hno).toLevels
  | _ => exact Trimmed.levels (trimmed_act not_false) ht

end Map

namespace Table

variable {K : Type} [BEq K] [Stored K] {t u : Table K} {slots peak : Nat} {loadFactor : Single}

/-! ## Runs -/

/-- One operation other than compacting, on a table or on a map that has it, turns `t` into `u` and
does not overflow. -/
inductive Proceeds (t : Table K) : Table K → Prop
  | call (c : Cursor) (command : Command K) (hc : ∀ hash, command ≠ .compact hash)
      (hno : (Session.perform ⟨t, c⟩ command).failsWith .capacityOverflow = 0) :
      Proceeds t (Session.perform ⟨t, c⟩ command).state.table
  | act (hash : K → UInt64) (missing : Int32) (action : Map.Action K)
      (ha : action ≠ .command .compact)
      (hno : (Map.act ⟨t, hash, missing⟩ action).failsWith (.aborted .capacityOverflow) = 0) :
      Proceeds t (Map.act ⟨t, hash, missing⟩ action).state.table

/-- A run of such operations turns a table into `t`, with at most `peak` entries on the way, and as
many at some point. It is enough to count them after each operation : one that inserts several
entries does not erase any. -/
inductive Peaks (t₀ : Table K) : Table K → Nat → Prop
  | start : Peaks t₀ t₀ t₀.size
  | step {t u : Table K} {peak : Nat} (h : Peaks t₀ t peak) (hs : t.Proceeds u) :
      Peaks t₀ u (max peak u.size)

theorem Proceeds.levels (h : t.Proceeds u) (ht : t.Intact 0) : Levels t u := by
  cases h with
  | call c command hc hno => exact levels_perform ht hc hno
  | act hash missing action ha hno => exact Map.levels_act ht ha hno

/-- The slots are the high-water mark after every run. -/
theorem HighWater.of_peaks {t₀ : Table K} (h₀ : HighWater slots loadFactor t₀ t₀.size)
    (hslots : 0 < slots) (h : Peaks t₀ t peak) : HighWater slots loadFactor t peak := by
  induction h with
  | start => exact h₀
  | step _ hs ih => exact ih.step hslots (hs.levels ih.intact)

/-- After any run of operations other than compacting, none of which overflowed, on an empty table
with a load factor between 0 and 1, the slots are the least doubling of the first ones whose
threshold admits the most entries so far, and the threshold is that of the slots. So an operation
that does not exceed the mark grows nothing, and one more entry doubles the slots at most once, if
one entry was admitted before. -/
theorem capacity_isLeast_of_peaks {c : Nat} (hmin : minCapacity ≤ 2 ^ c) (hlt : 2 ^ c < wordSize)
    (hf : loadFactor.isFraction = true) (h : Peaks (empty (2 ^ c) loadFactor) t peak) :
    IsLeast {n | ∃ j, n = 2 ^ c * 2 ^ j ∧ peak ≤ exactThreshold n loadFactor} t.capacity ∧
      t.threshold = exactThreshold t.capacity loadFactor ∧ t.size ≤ peak ∧
      ∀ u, t.Proceeds u → (u.size ≤ peak → u.capacity = t.capacity) ∧
        (u.capacity ≠ t.capacity → u.size ≤ t.size + 1 → 1 ≤ t.threshold →
          u.capacity = 2 * t.capacity) := by
  have hwater := HighWater.of_peaks (.empty hmin hlt hf) (Nat.two_pow_pos c) h
  refine ⟨hwater.isLeast, ?_, hwater.size_le, fun u hu => ?_⟩
  · rw [hwater.intact.threshold_eq, hwater.loadFactor_eq]
  · have hlevels := hu.levels hwater.intact
    exact ⟨hwater.capacity_eq hlevels, hlevels.capacity_eq_two_mul hwater.intact⟩

/-- With a load factor of a twentieth eight slots admit no entry, and sixteen neither : the first
insert leaves 32 slots, the second one 64, and nothing changes that later. -/
theorem capacity_isLeast_of_peaks_sparse : ∃ t : Table UInt64,
    Peaks (empty (2 ^ 3) ⟨0x3d4ccccd⟩) t 2 ∧ t.entries = [(3, 30)] ∧ t.capacity = 64 ∧
      IsLeast {n | ∃ j, n = 2 ^ 3 * 2 ^ j ∧ 2 ≤ exactThreshold n ⟨0x3d4ccccd⟩} 64 ∧
      t.threshold = 3 := by
  have hrun : ∃ (t : Table UInt64) (peak : Nat), Peaks (empty (2 ^ 3) ⟨0x3d4ccccd⟩) t peak ∧
      peak = 2 ∧ t.entries = [(3, 30)] ∧ t.capacity = 64 ∧ t.threshold = 3 := by
    have h₀ : Peaks (empty (2 ^ 3) ⟨0x3d4ccccd⟩) (empty (2 ^ 3) ⟨0x3d4ccccd⟩ : Table UInt64) 0 :=
      .start
    have h₁ := h₀.step (.act id 0 (.command (.insert 1 10)) nofun (by decide +kernel))
    have h₂ := h₁.step (.act id 0 (.command (.getOrInsertWith 2 fun _ => 20)) nofun
      (by decide +kernel))
    have h₃ := h₂.step (.act id 0 (.walk [.next, .erase, .next, .erase]) nofun (by decide +kernel))
    have h₄ := h₃.step (.call ⟨0, 0, none⟩ (.insert? id 3 (· == 3) 3 30) nofun (by decide +kernel))
    exact ⟨_, _, h₄, by decide +kernel, by decide +kernel, by decide +kernel, by decide +kernel⟩
  obtain ⟨t, _, hpeaks, rfl, hentries, hcap, hthreshold⟩ := hrun
  have h := capacity_isLeast_of_peaks (by decide) (by decide) (by decide) hpeaks
  exact ⟨t, hpeaks, hentries, hcap, hcap ▸ h.1, hthreshold⟩

end Table

end LinearProbe
