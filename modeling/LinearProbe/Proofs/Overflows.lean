import LinearProbe.Proofs.Actions
import LinearProbe.Proofs.Storing

/-!
# What an overflow leaves

An insert writes its entry and counts it before the table grows. It overflows if the table has to
grow and can not (`Table.insert?_eq_overflow_iff`), and then the entry stays : the table has it
beside those it had, in as many slots and with the same threshold (`Table.Overflowed`), and a
look-up finds the key (`Table.insert?_not_undone`). The commands of a map that insert a key are no
different (`Map.perform_overflow`).

A map that goes on after overflows holds one entry more than its threshold for each of them at most,
and its look-ups end as long as that leaves an empty slot (`Map.locate_of_actAll`). So they all end
if nothing overflows, but overflows can fill every slot (`Map.actAll_crowd_full`), and then a
look-up of an absent key does not end.
-/

namespace LinearProbe

namespace Table

variable {K : Type} {hash : K → UInt64} {t u : Table K} {i j slack : Nat} {k : K} {v : Int32}
  {p : K → Bool} {h : UInt64}

/-! ## Inserts that overflow -/

/-- What an insert that overflows leaves of the table `t` : the key was absent, its entry is there
now, and nothing else has changed. -/
structure Overflowed (t : Table K) (h : UInt64) (p : K → Bool) (k : K) (v : Int32) (u : Table K) :
    Prop where
  absent : t.find? h p = .ok none
  found : u.find? h p = .ok (some (k, v))
  size_eq : u.size = t.size + 1
  entries : u.entries.Perm ((k, v) :: t.entries)
  capacity_eq : u.capacity = t.capacity
  threshold_eq : u.threshold = t.threshold
  loadFactor_eq : u.loadFactor = t.loadFactor
  intact : ∀ slack, t.Intact slack → u.Intact (slack + 1)

variable [Stored K]

/-- An insert into an empty slot overflows exactly if the table holds as many entries as its
threshold and can not grow with one more, which stays. -/
theorem insertAt_eq_overflow_iff (ht : t.Intact slack) (hi : i < t.capacity)
    (hempty : t.key? i = none) :
    t.insertAt hash i k v = .error .capacityOverflow u ↔
      u = t.store i k v ∧ t.threshold ≤ t.size ∧ ¬u.Growable := by
  constructor
  · intro hrun
    rcases ht.insertAt_cases hi hempty hash k v with
      ⟨-, hins⟩ | ⟨-, -, slots, w, hins, -⟩ | ⟨hle, hno, hins⟩ <;> rw [hrun] at hins <;> cases hins
    exact ⟨rfl, hle, hno⟩
  · rintro ⟨rfl, hle, hno⟩
    rcases ht.insertAt_cases hi hempty hash k v with
      ⟨hlt, -⟩ | ⟨-, hgrowable, -⟩ | ⟨-, -, hins⟩
    · exact absurd hlt (Nat.not_lt.2 hle)
    · exact absurd hgrowable hno
    · exact hins

/-- An insert overflows exactly if its key is absent, the table holds as many entries as its
threshold, and it can not grow with one more. -/
theorem insert?_eq_overflow_iff (ht : t.Intact slack) :
    t.insert? hash h p k v = .error .capacityOverflow u ↔
      ∃ i, t.locate h p = .ok (.free i) ∧ u = t.store i k v ∧ t.threshold ≤ t.size ∧
        ¬u.Growable := by
  cases hrun : t.locate h p with
  | error a =>
    cases locate_eq_error hrun
    simp [insert?, hrun]
  | ok spot =>
    cases spot with
    | held i => simp [insert?, hrun]
    | free i =>
      obtain ⟨-, hi, hempty⟩ := stopsAt_of_locate hrun
      rw [insert?_of_free hrun, Outcome.map_eq_error, insertAt_eq_overflow_iff ht hi hempty]
      simp

/-- An insert that overflows leaves its entry in the table. -/
theorem overflowed_of_insert? (ht : t.Intact slack) (hp : p k = true)
    (h' : t.insert? hash h p k v = .error .capacityOverflow u) : Overflowed t h p k v u := by
  obtain ⟨i, hrun, rfl, hle, -⟩ := (insert?_eq_overflow_iff ht).1 h'
  obtain ⟨-, hi, hempty⟩ := stopsAt_of_locate hrun
  exact {
    absent := find?_of_free hrun
    found := find?_store ht.aligned.size_values hp hrun
    size_eq := rfl
    entries := entries_store_perm ht.aligned.size_values hi hempty
    capacity_eq := capacity_store
    threshold_eq := rfl
    loadFactor_eq := rfl
    intact := fun _ ht => ht.store hi hempty (Nat.lt_succ_of_le ht.size_le) }

/-- An insert that overflows does not leave the table as it was : the key was absent and its entry
is there now. -/
theorem insert?_not_undone (ht : t.Intact slack) (hp : p k = true)
    (h' : t.insert? hash h p k v = .error .capacityOverflow u) :
    u ≠ t ∧ t.threshold ≤ t.size ∧ Overflowed t h p k v u := by
  have ho := overflowed_of_insert? ht hp h'
  obtain ⟨-, -, -, hle, -⟩ := (insert?_eq_overflow_iff ht).1 h'
  refine ⟨?_, hle, ho⟩
  rintro rfl
  have := ho.size_eq
  omega

/-- Eight empty slots with the least load factor there is, which admits no entry in any number of
slots that can be counted. -/
def narrow : Table UInt64 :=
  empty 8 ⟨1⟩

/-- The first insert into the table overflows and its entry stays. -/
theorem insert?_narrow_overflow : ofHint 8 ⟨1⟩ = .ok narrow ∧
    narrow.find? 1 (· == 1) = .ok none ∧
    ∃ u, narrow.insert? id 1 (· == 1) 1 10 = .error .capacityOverflow u ∧ u ≠ narrow ∧
      u.size = 1 ∧ u.find? 1 (· == 1) = .ok (some (1, 10)) := by
  refine ⟨by decide +kernel, by decide +kernel, narrow.store 6 1 10, ?_, by decide +kernel⟩
  exact Outcome.eq_error_iff.2 (by decide +kernel)

theorem insert?_not_undone_narrow : narrow.Intact 0 ∧ ∃ u,
    narrow.insert? id 1 (· == 1) 1 10 = .error .capacityOverflow u ∧ u ≠ narrow ∧
    u.find? 1 (· == 1) = .ok (some (1, 10)) := by
  have ht : narrow.Intact 0 := intact_empty (c := 3) (by decide) (by decide) (by decide)
  have hrun : narrow.insert? id 1 (· == 1) 1 10 =
      .error .capacityOverflow (narrow.store 6 1 10) :=
    Outcome.eq_error_iff.2 (by decide +kernel)
  obtain ⟨hne, -, ho⟩ := insert?_not_undone ht (by decide) hrun
  exact ⟨ht, _, hrun, hne, ho.found⟩

end Table

/-! ## Commands that overflow -/

namespace Map

open Table (Overflowed overflowed_of_insert? insert?_of_free)

variable {K : Type} {m m' : Map K} {k : K} {v : Int32} {slack : Nat}

/-- The key that a command inserts if the map has no value for it. -/
def Command.inserted? : Command K → Option K
  | .insert k _ | .insert? k _ | .getOrInsertWith k _ | .combine k _ _ => some k
  | _ => none

theorem lift_eq_overflow {α : Type} {o : Outcome Abort (Table K) α}
    (h : m.lift o = .error (.aborted .capacityOverflow) m') :
    ∃ u, o = .error .capacityOverflow u ∧ m' = { m with table := u } := by
  obtain ⟨a, u, ho, ha, hu⟩ := Outcome.exists_of_within_eq_error h
  cases ha
  exact ⟨u, ho, hu.symm⟩

theorem permitting_eq_overflow {α : Type} {act : Map K → Outcome Failure (Map K) α}
    (h : m.permitting v act = .error (.aborted .capacityOverflow) m') :
    v ≠ m.missing ∧ act m = .error (.aborted .capacityOverflow) m' := by
  unfold permitting permit at h
  by_cases hv : v = m.missing
  · simp [hv] at h
  · rw [if_neg hv] at h
    exact ⟨hv, h⟩

/-- Giving an entry a computed value never overflows. -/
theorem settle_ne_overflow {i : Nat} (ht : m.table.Intact slack) :
    m.settle i v ≠ .error (.aborted .capacityOverflow) m' := by
  intro h
  unfold settle at h
  split at h
  · obtain ⟨u, hu, -⟩ := lift_eq_overflow (Outcome.map_eq_error.1 h)
    rcases Table.eraseAt?_cases ht.aligned.size_values m.hash i with
      ⟨-, hrun⟩ | ⟨-, hrun⟩ | ⟨e, w, hrun, -⟩ <;> rw [hrun] at hu <;> cases hu
  · cases h

variable [BEq K] [ReflBEq K] [Stored K]

theorem overflowed_of_insertAt {i : Nat} (ht : m.table.Intact slack)
    (hrun : m.table.locate (m.hash k) (· == k) = .ok (.free i))
    (h : m.lift (m.table.insertAt m.hash i k v) = .error (.aborted .capacityOverflow) m') :
    ∃ u, m' = { m with table := u } ∧ Overflowed m.table (m.hash k) (· == k) k v u := by
  obtain ⟨u, hu, rfl⟩ := lift_eq_overflow h
  have hins : m.table.insert? m.hash (m.hash k) (· == k) k v = .error .capacityOverflow u := by
    rw [insert?_of_free hrun, hu]
    rfl
  exact ⟨u, rfl, overflowed_of_insert? ht BEq.rfl hins⟩

/-- A command that inserts a key and overflows leaves the key in the map with a value that may be
stored. It had none before. -/
theorem perform_overflow {c : Command K} (ht : m.table.Intact slack) (hc : c.inserted? = some k)
    (h : m.perform c = .error (.aborted .capacityOverflow) m') :
    ∃ v u, v ≠ m.missing ∧ m' = { m with table := u } ∧
      Overflowed m.table (m.hash k) (· == k) k v u := by
  have hinsert? : ∀ {v : Int32}, m.insert? k v = .error (.aborted .capacityOverflow) m' →
      ∃ v u, v ≠ m.missing ∧ m' = { m with table := u } ∧
        Overflowed m.table (m.hash k) (· == k) k v u := by
    intro v h
    obtain ⟨hv, h⟩ := permitting_eq_overflow h
    obtain ⟨u, hu, rfl⟩ := lift_eq_overflow h
    exact ⟨v, u, hv, rfl, overflowed_of_insert? ht BEq.rfl hu⟩
  cases c with
  | insert k' v =>
    cases hc
    exact hinsert? (Outcome.map_eq_error.1 (Outcome.map_eq_error.1 h))
  | insert? k' v =>
    cases hc
    exact hinsert? (Outcome.map_eq_error.1 h)
  | getOrInsertWith k' f =>
    cases hc
    have h := Outcome.map_eq_error.1 h
    unfold getOrInsertWith at h
    split at h
    · next hrun =>
      cases Table.locate_eq_error hrun
      cases h
    · cases h
    · next i hrun =>
      dsimp only at h
      split at h
      · cases h
      · next hv =>
        obtain ⟨u, hu, ho⟩ := overflowed_of_insertAt ht hrun (Outcome.map_eq_error.1 h)
        exact ⟨f k, u, hv, hu, ho⟩
  | combine k' v f =>
    cases hc
    obtain ⟨hv, h⟩ := permitting_eq_overflow (Outcome.map_eq_error.1 h)
    split at h
    · next hrun =>
      cases Table.locate_eq_error hrun
      cases h
    · exact absurd h (settle_ne_overflow ht)
    · next i hrun =>
      obtain ⟨u, hu, ho⟩ := overflowed_of_insertAt ht hrun (Outcome.map_eq_error.1 h)
      exact ⟨v, u, hv, hu, ho⟩
  | _ => cases hc

end Map

/-! ## Runs with overflows -/

/-- All look-ups end exactly if some slot is empty. -/
theorem Table.locate_iff_hasGap {K : Type} {t : Table K} :
    (∀ h p, ∃ spot, t.locate h p = .ok spot) ↔ t.HasGap := by
  constructor
  · intro hstop
    obtain ⟨spot, hrun⟩ := hstop 0 fun _ => false
    have hs := stopsAt_of_locate hrun
    cases spot with
    | held i =>
      obtain ⟨-, k, -, hp⟩ := hs
      cases hp
    | free i => exact ⟨i, hs.2.1, not_occupied_iff.2 hs.2.2⟩
  · intro hg h p
    obtain ⟨spot, hrun, -⟩ := exists_locate hg h p
    exact ⟨spot, hrun⟩

namespace Map

open Table (locate_iff_hasGap)

variable {K : Type} [BEq K] [Stored K] {m m' : Map K} {hash : K → UInt64} {missing : Int32}
  {as : List (Action K)} {rs : List (Except Failure Unit)}

/-- After any actions on a new map there are at most as many more entries than the threshold as
actions overflowed. All look-ups end exactly if there are fewer entries than slots, so they do while
threshold and overflows are together less than the number of slots, and if nothing overflowed. -/
theorem locate_of_actAll (hm : m = empty missing hash ∨ ∃ config, ofConfig config hash = .ok m)
    (hrun : m.actAll as = (rs, m')) :
    m'.table.Counted ∧ m'.size ≤ m'.table.threshold + overflows rs ∧
      ((∀ h p, ∃ spot, m'.table.locate h p = .ok spot) ↔ m'.size < m'.capacity) ∧
      (m'.table.threshold + overflows rs < m'.capacity →
        ∀ h p, ∃ spot, m'.table.locate h p = .ok spot) ∧
      (overflows rs = 0 → ∀ h p, ∃ spot, m'.table.locate h p = .ok spot) := by
  obtain ⟨-, c, loadFactor, htable, hmin, hlt, hf⟩ := exists_of_new hm
  have ht : m.table.Intact 0 := htable ▸ Table.intact_empty hmin hlt hf
  obtain ⟨u, hstate, -, hu⟩ :=
    actAll_rule (P := fun _ => True) (fun _ _ _ _ _ _ _ => trivial) ht trivial as
  rw [hrun] at hstate hu
  obtain rfl : m' = { m with table := u } := hstate
  rw [Nat.zero_add] at hu
  have hgap : u.HasGap ↔ u.size < u.capacity := by
    rw [Table.hasGap_iff, ← Table.counted_iff.1 hu.counted]
  refine ⟨hu.counted, hu.size_le, locate_iff_hasGap.trans hgap, ?_, ?_⟩
  · intro hroom
    exact locate_iff_hasGap.2 (hu.hasGap hroom)
  · intro h0
    rw [h0] at hu
    exact locate_iff_hasGap.2 (hu.hasGap hu.threshold_lt)

/-- A map over eight slots that admit no entry. -/
def narrow : Map UInt64 :=
  ⟨Table.narrow, id, -1⟩

theorem ofConfig_narrow : ofConfig ⟨8, ⟨1⟩, -1⟩ id = .ok narrow := by
  have hmade : Table.ofHint 8 ⟨1⟩ = .ok Table.narrow := by decide +kernel
  simp only [ofConfig, Config.validate, if_pos (show Single.isFraction ⟨1⟩ = true by decide), hmade]
  rfl

/-- Inserts of the keys below `n`. -/
def crowd (n : Nat) : List (Action UInt64) :=
  (List.range n).map fun i => .command (.insert? (.ofNat i) 1)

/-- Eight inserts that overflow fill all eight slots, and the look-up of another key does not
end. -/
theorem actAll_crowd_full : ofConfig ⟨8, ⟨1⟩, -1⟩ id = .ok narrow ∧
    ¬(narrow.actAll (crowd 8)).2.table.HasGap ∧
    (narrow.actAll (crowd 8)).2.contains 8 = .error .endless := by
  refine ⟨ofConfig_narrow, ?_⟩
  rw [Table.hasGap_iff]
  decide +kernel

theorem locate_of_actAll_crowd : overflows (narrow.actAll (crowd 2)).1 = 2 ∧
    (narrow.actAll (crowd 2)).2.size = 2 ∧
    ∀ h p, ∃ spot, (narrow.actAll (crowd 2)).2.table.locate h p = .ok spot := by
  have hm : narrow = empty 0 id ∨ ∃ config, ofConfig config id = .ok narrow :=
    Or.inr ⟨_, ofConfig_narrow⟩
  have htwo : overflows (narrow.actAll (crowd 2)).1 = 2 ∧
      (narrow.actAll (crowd 2)).2.size = 2 ∧
      (narrow.actAll (crowd 2)).2.table.threshold + 2 < (narrow.actAll (crowd 2)).2.capacity := by
    decide +kernel
  obtain ⟨hn, hsize, hroom⟩ := htwo
  exact ⟨hn, hsize, (locate_of_actAll hm rfl).2.2.2.1 (hn ▸ hroom)⟩

end Map

end LinearProbe
