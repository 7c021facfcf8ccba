import LinearProbe.Proofs.Entries
import LinearProbe.Table.Probe

/-!
# Where probes stop

A probe passes keys that are not accepted and stops at one that is or at an empty slot
(`Table.StopsAt`), which it does in every table with an empty slot (`Table.exists_locate`).
If entries are within reach and equal keys have equal hashes (`Respects`), a probe that stops at
an empty slot shows that the key is absent (`Table.StopsAt.not_beq`), and an entry written there
is within reach (`Table.Reachable.write`).
-/

namespace LinearProbe

/-- Equal keys have equal hashes. -/
def Respects {K : Type} [BEq K] (hash : K → UInt64) : Prop :=
  ∀ k l, (k == l) = true → hash k = hash l

namespace Table

variable {K : Type} {t : Table K} {i j : Nat} {k : K} {v : Int32} {p : K → Bool} {spot : Spot}

/-! ## Where a probe stops -/

/-- Every slot from `i` up to `j` holds a key that `p` does not accept. -/
def Passes (t : Table K) (p : K → Bool) (i j : Nat) : Prop :=
  ∀ m, m < t.capacity → t.distance i m < t.distance i j → ∃ k, t.key? m = some k ∧ p k = false

/-- A probe from slot `i` on for a key that `p` accepts stops there. -/
def StopsAt (t : Table K) (p : K → Bool) (i : Nat) : Spot → Prop
  | .held j => t.Passes p i j ∧ ∃ k, t.key? j = some k ∧ p k = true
  | .free j => t.Passes p i j ∧ j < t.capacity ∧ t.key? j = none

theorem passes_self : t.Passes p i i := by
  intro m _ h
  rw [distance_self] at h
  exact absurd h (Nat.not_lt_zero _)

/-- A probe that passes the first slot goes on from the next one. -/
theorem Passes.cons (hi : i < t.capacity) (hj : j < t.capacity) (hij : i ≠ j)
    (hk : t.key? i = some k) (hp : p k = false) (h : t.Passes p (t.next i) j) :
    t.Passes p i j := by
  intro m hm hlt
  by_cases him : i = m
  · exact ⟨k, him ▸ hk, hp⟩
  · rw [distance_of_next hi hm him, distance_of_next hi hj hij] at hlt
    exact h m hm (by omega)

theorem StopsAt.index_lt (hs : t.StopsAt p i spot) : spot.index < t.capacity := by
  cases spot with
  | held j =>
    obtain ⟨-, k, hk, -⟩ := hs
    exact lt_capacity_of_key? hk
  | free j => exact hs.2.1

/-- A probe does not stop at a key that is not accepted. -/
theorem StopsAt.index_ne (hs : t.StopsAt p i spot) (hk : t.key? j = some k) (hp : p k = false) :
    j ≠ spot.index := by
  rintro rfl
  cases spot with
  | held m =>
    obtain ⟨-, l, hl, hpl⟩ := hs
    obtain rfl := Option.some.inj (hk.symm.trans hl)
    exact Bool.false_ne_true (hp.symm.trans hpl)
  | free m => exact Option.some_ne_none k (hk.symm.trans hs.2.2)

theorem stopsAt_of_locateFrom {n : Nat} (hi : i < t.capacity)
    (h : t.locateFrom p n i = .ok spot) : t.StopsAt p i spot := by
  induction n generalizing i with
  | zero => simp [locateFrom] at h
  | succ n ih =>
    rw [locateFrom] at h
    split at h
    · next hnone =>
      cases h
      exact ⟨passes_self, hi, hnone⟩
    · next k hk =>
      split at h
      · next hp =>
        cases h
        exact ⟨passes_self, k, hk, hp⟩
      · next hp =>
        have hp : p k = false := by simpa using hp
        have hnext := ih (next_lt (Nat.zero_lt_of_lt hi)) h
        have hij := hnext.index_ne hk hp
        cases spot with
        | held j => exact ⟨hnext.1.cons hi hnext.index_lt hij hk hp, hnext.2⟩
        | free j => exact ⟨hnext.1.cons hi hnext.index_lt hij hk hp, hnext.2⟩

theorem stopsAt_of_locate {h : UInt64} (hrun : t.locate h p = .ok spot) :
    t.StopsAt p (t.home h) spot := by
  rcases Nat.eq_zero_or_pos t.capacity with h0 | hc
  · rw [locate, h0] at hrun
    cases hrun
  · exact stopsAt_of_locateFrom (home_lt hc h) hrun

/-- Probes that accept the same of the same keys in the same slots stop at the same spot. -/
theorem locateFrom_congr {u : Table K} {q : K → Bool} {n : Nat} (hc : u.capacity = t.capacity)
    (hk : ∀ j, u.key? j = t.key? j) (hpq : ∀ j k, t.key? j = some k → q k = p k) :
    u.locateFrom q n i = t.locateFrom p n i := by
  induction n generalizing i with
  | zero => rfl
  | succ n ih =>
    rw [locateFrom, locateFrom, hk]
    cases hki : t.key? i with
    | none => rfl
    | some k => simp only [hpq i k hki, next_congr hc, ih]

theorem locate_congr {u : Table K} {q : K → Bool} {h : UInt64} (hc : u.capacity = t.capacity)
    (hk : ∀ j, u.key? j = t.key? j) (hpq : ∀ j k, t.key? j = some k → q k = p k) :
    u.locate h q = t.locate h p := by
  rw [locate, locate, hc, home_congr hc, locateFrom_congr hc hk hpq]

/-- A probe that does not stop goes round for ever. -/
theorem locate_eq_error {h : UInt64} {a : Abort} (hrun : t.locate h p = .error a) :
    a = .endless := by
  suffices hfrom : ∀ n i, t.locateFrom p n i = .error a → a = .endless from hfrom _ _ hrun
  intro n
  induction n with
  | zero =>
    intro i h
    cases h
    rfl
  | succ n ih =>
    intro i h
    rw [locateFrom] at h
    split at h
    · cases h
    · split at h
      · cases h
      · exact ih _ h

/-- A probe that may look at an empty slot stops. -/
theorem exists_locateFrom {n e : Nat} (hi : i < t.capacity) (he : e < t.capacity)
    (hnone : t.key? e = none) (hn : t.distance i e < n) :
    ∃ spot, t.locateFrom p n i = .ok spot := by
  induction n generalizing i with
  | zero => exact absurd hn (Nat.not_lt_zero _)
  | succ n ih =>
    rw [locateFrom]
    split
    · exact ⟨_, rfl⟩
    · next k hk =>
      split
      · exact ⟨_, rfl⟩
      · have hie : i ≠ e := by
          rintro rfl
          simp_all
        rw [distance_of_next hi he hie] at hn
        exact ih (next_lt (Nat.zero_lt_of_lt hi)) (by omega)

/-- A probe stops at the first key that is accepted. -/
theorem locateFrom_of_passes {n : Nat} (hi : i < t.capacity) (hpass : t.Passes p i j)
    (hk : t.key? j = some k) (hp : p k = true) (hn : t.distance i j < n) :
    t.locateFrom p n i = .ok (.held j) := by
  have hj := lt_capacity_of_key? hk
  induction n generalizing i with
  | zero => exact absurd hn (Nat.not_lt_zero _)
  | succ n ih =>
    rw [locateFrom]
    by_cases hij : i = j
    · subst hij
      simp [hk, hp]
    · have hstep := distance_of_next hi hj hij
      obtain ⟨l, hl, hno⟩ := hpass i hi (by rw [distance_self]; omega)
      simp only [hl, hno]
      refine ih (next_lt (Nat.zero_lt_of_lt hi)) (fun m hm hlt => ?_) (by omega)
      by_cases him : i = m
      · subst him
        have := distance_next_self hi
        have := distance_lt (t := t) (i := t.next i) (j := j) (Nat.zero_lt_of_lt hi)
        omega
      · have := distance_of_next hi hm him
        exact hpass m hm (by omega)

/-- In a table with an empty slot every probe stops. -/
theorem exists_locate (hg : t.HasGap) (hash : UInt64) (p : K → Bool) :
    ∃ spot, t.locate hash p = .ok spot ∧ t.StopsAt p (t.home hash) spot := by
  obtain ⟨e, he, hnone⟩ := hg
  have hc := Nat.zero_lt_of_lt he
  obtain ⟨spot, h⟩ := exists_locateFrom (home_lt hc hash) he (not_occupied_iff.1 hnone)
    (distance_lt hc) (p := p)
  exact ⟨spot, h, stopsAt_of_locate h⟩

theorem indexOf?_of_locate {h : UInt64} (hrun : t.locate h p = .ok spot) :
    t.indexOf? h p = .ok spot.held? := by
  rw [indexOf?, hrun]
  rfl

/-- The slot that a look-up answers with holds a key. -/
theorem exists_of_indexOf? {h : UInt64} {p : K → Bool} (hrun : t.indexOf? h p = .ok (some i)) :
    ∃ k, t.key? i = some k := by
  unfold indexOf? at hrun
  cases hloc : t.locate h p with
  | error a => simp [hloc, Except.map] at hrun
  | ok spot =>
    cases spot with
    | free j => simp [hloc, Except.map, Spot.held?] at hrun
    | held j =>
      obtain ⟨-, l, hl, -⟩ := stopsAt_of_locate hloc
      simp only [hloc, Except.map, Spot.held?, Except.ok.injEq, Option.some.injEq] at hrun
      exact ⟨l, hrun ▸ hl⟩

/-! ## Access by index -/

/-- Overwriting at an index does so exactly if there is an entry. -/
theorem replaceAt?_cases (t : Table K) (i : Nat) (v : Int32) :
    (t.capacity ≤ i ∧ t.replaceAt? i v = .error (.indexOutOfBounds t.capacity i) t) ∨
    (t.key? i = none ∧ t.replaceAt? i v = .ok none t) ∨
    ∃ k, t.key? i = some k ∧ t.replaceAt? i v = .ok (some (t.value i)) (t.writeValue i v) := by
  unfold replaceAt? valueAt? checkIndex
  rcases Nat.lt_or_ge i t.capacity with hi | hi
  · cases hk : t.key? i with
    | none => simp [hi, Except.map, slot?, hk]
    | some k => simp [hi, Except.map, slot?, hk]
  · simp [hi, Nat.not_lt.2 hi, Except.map]

/-! ## Reachability -/

section Reachable

variable {hash : K → UInt64} {u : Table K}

theorem Passes.occupied (h : t.Passes p i j) {m : Nat} (hm : m < t.capacity)
    (hlt : t.distance i m < t.distance i j) : t.Occupied m :=
  let ⟨k, hk, _⟩ := h m hm hlt
  occupied_iff.2 ⟨k, hk⟩

theorem occupied_write (hi : i < t.capacity) :
    (t.write i k v).Occupied j ↔ i = j ∨ t.Occupied j := by
  unfold Occupied
  rw [key?_write hi]
  split
  · next h => simp [h]
  · next h => simp [h]

/-- From the home of an entry, the entry comes before every empty slot. -/
theorem Reachable.distance_lt (hr : t.Reachable hash) {g : Nat} (hk : t.key? j = some k)
    (hg : g < t.capacity) (hempty : t.key? g = none) :
    t.distance (t.home (hash k)) j < t.distance (t.home (hash k)) g := by
  have hj := lt_capacity_of_key? hk
  rcases Nat.lt_trichotomy (t.distance (t.home (hash k)) j) (t.distance (t.home (hash k)) g)
    with hlt | heq | hgt
  · exact hlt
  · obtain rfl := eq_of_distance_eq (home_lt (Nat.zero_lt_of_lt hj) _) hj hg heq
    simp [hk] at hempty
  · exact absurd (reachable_iff.1 hr j k hk g hg hgt) (not_occupied_iff.2 hempty)

/-- Tables with the same keys in the same slots have the same entries within reach. -/
theorem Reachable.congr (hr : t.Reachable hash) (hc : u.capacity = t.capacity)
    (hk : ∀ i, u.key? i = t.key? i) : u.Reachable hash := by
  have ho : ∀ i, u.Occupied i ↔ t.Occupied i := fun i => by simp only [Occupied, hk]
  rw [reachable_iff] at hr ⊢
  intro i k hik j hj hlt
  simp only [distance_congr hc, home_congr hc] at hlt
  exact (ho j).2 (hr i k (hk i ▸ hik) j (hc ▸ hj) hlt)

/-- An entry written where the slots from its home on are occupied is within reach, and so are
the others. -/
theorem Reachable.write (hr : t.Reachable hash) (hi : i < t.capacity)
    (hpath : t.Passes p (t.home (hash k)) i) : (t.write i k v).Reachable hash := by
  rw [reachable_iff] at hr ⊢
  intro j l hl m hm hlt
  simp only [distance_congr capacity_write, home_congr capacity_write, capacity_write] at hm hlt
  rw [occupied_write hi]
  rw [key?_write hi] at hl
  split at hl
  · next hij =>
    subst hij
    obtain rfl : k = l := by simpa using hl
    exact Or.inr (hpath.occupied hm hlt)
  · exact Or.inr (hr j l hl m hm hlt)

end Reachable

/-! ## Look-ups by key -/

section Key

variable [BEq K] {hash : K → UInt64} {l : K}

/-- Where the probe for a key stops at an empty slot, no slot holds an equal key. -/
theorem StopsAt.not_beq (hh : Respects hash) (hr : t.Reachable hash)
    (hs : t.StopsAt (· == k) (t.home (hash k)) (.free i)) (hl : t.key? j = some l) :
    (l == k) = false := by
  obtain ⟨hpass, hi, hempty⟩ := hs
  refine Bool.eq_false_iff.2 fun hlk => ?_
  have hlt := hr.distance_lt hl hi hempty
  rw [hh l k hlk] at hlt
  obtain ⟨l', hl', hne⟩ := hpass j (lt_capacity_of_key? hl) hlt
  obtain rfl : l = l' := by simpa [hl] using hl'
  simp [hlk] at hne

end Key

end Table

end LinearProbe
