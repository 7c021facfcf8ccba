import LinearProbe.Proofs.Probing
import LinearProbe.Proofs.Thresholds
import LinearProbe.Table.Update

/-!
# Placing entries

An entry that is stored is one entry more, and counted (`Counted.store`). To be placed is to be
written into the first empty slot from its home on. `Placed` is what placing a list of entries one
after the other leaves : those entries beside the ones before, all within reach. Moving all entries
to a new row is placing them in an empty table, and ends if the row can be allocated
(`exists_rehash`). A table grows exactly if some doubling of its slots admits the entries and the
least that does can be allocated (`grow_cases`, `exists_of_grow_eq_ok`).
-/

namespace LinearProbe.Table

variable {K : Type} {hash : K → UInt64} {t u w : Table K} {i : Nat} {k : K} {v : Int32}
  {e : K × Int32} {es fs : List (K × Int32)}

/-! ## Empty slots -/

/-- Some slot is empty exactly if there are fewer entries than slots. -/
theorem hasGap_iff : t.HasGap ↔ t.entries.length < t.capacity := by
  have hlen : t.entries.length < t.capacity ↔
      t.occupied.length < (List.range t.capacity).length := by
    rw [length_entries, List.length_range]
  rw [hlen, occupied, List.length_filter_lt_length_iff_exists]
  simp [HasGap, Occupied]

theorem Counted.hasGap (hc : t.Counted) (h : t.size < t.capacity) : t.HasGap :=
  hasGap_iff.2 (counted_iff.1 hc ▸ h)

/-! ## Storing -/

theorem capacity_store : (t.store i k v).capacity = t.capacity :=
  capacity_write (v := v)

theorem size_store : (t.store i k v).size = t.size + 1 := rfl

theorem threshold_store : (t.store i k v).threshold = t.threshold := rfl

theorem size_values_store : (t.store i k v).values.size = t.values.size := by
  simp [store, write]

theorem key?_store (hi : i < t.capacity) :
    (t.store i k v).key? j = if i = j then some k else t.key? j :=
  key?_write (v := v) hi

theorem value_store (hs : t.values.size = t.capacity) (hi : i < t.capacity) :
    (t.store i k v).value j = if i = j then v else t.value j :=
  value_write (k := k) (hs ▸ hi)

theorem slot?_store (hs : t.values.size = t.capacity) (hi : i < t.capacity) :
    (t.store i k v).slot? j = if i = j then some (k, v) else t.slot? j :=
  slot?_write hs hi

theorem entries_store_perm (hs : t.values.size = t.capacity) (hi : i < t.capacity)
    (hempty : t.key? i = none) : (t.store i k v).entries.Perm ((k, v) :: t.entries) :=
  entries_write_perm hs hi hempty

theorem Counted.store (hc : t.Counted) (hs : t.values.size = t.capacity) (hi : i < t.capacity)
    (hempty : t.key? i = none) : (t.store i k v).Counted := by
  rw [counted_iff, (entries_store_perm hs hi hempty).length_eq, size_store, counted_iff.1 hc,
    List.length_cons]

/-! ## Placing -/

/-- What writing the entries `es` into empty slots of `t` leaves. -/
structure Filled (t : Table K) (es : List (K × Int32)) (u : Table K) : Prop where
  capacity_eq : u.capacity = t.capacity
  size_values : u.values.size = u.capacity
  size_eq : u.size = t.size
  threshold_eq : u.threshold = t.threshold
  loadFactor_eq : u.loadFactor = t.loadFactor
  entries : u.entries.Perm (es ++ t.entries)

namespace Filled

theorem refl (hs : t.values.size = t.capacity) : Filled t [] t :=
  ⟨rfl, hs, rfl, rfl, rfl, .refl _⟩

theorem trans (h : Filled t es u) (h' : Filled u fs w) : Filled t (es ++ fs) w where
  capacity_eq := h'.capacity_eq.trans h.capacity_eq
  size_values := h'.size_values
  size_eq := h'.size_eq.trans h.size_eq
  threshold_eq := h'.threshold_eq.trans h.threshold_eq
  loadFactor_eq := h'.loadFactor_eq.trans h.loadFactor_eq
  entries := by
    refine (h'.entries.trans (h.entries.append_left fs)).trans ?_
    rw [← List.append_assoc]
    exact List.perm_append_comm.append_right _

end Filled

theorem filled_write (hs : t.values.size = t.capacity) (hi : i < t.capacity)
    (hempty : t.key? i = none) : Filled t [(k, v)] (t.write i k v) where
  capacity_eq := capacity_write
  size_values := by rw [capacity_write, ← hs]; simp [write]
  size_eq := rfl
  threshold_eq := rfl
  loadFactor_eq := rfl
  entries := entries_write_perm hs hi hempty

/-- What placing the entries `es` in `t` leaves. -/
structure Placed (hash : K → UInt64) (t : Table K) (es : List (K × Int32)) (u : Table K) :
    Prop extends Filled t es u where
  reachable : t.Reachable hash → u.Reachable hash
  zeroed : t.Zeroed → u.Zeroed

namespace Placed

theorem refl (hs : t.values.size = t.capacity) : Placed hash t [] t :=
  ⟨.refl hs, id, id⟩

theorem trans (h : Placed hash t es u) (h' : Placed hash u fs w) :
    Placed hash t (es ++ fs) w where
  toFilled := h.toFilled.trans h'.toFilled
  reachable hr := h'.reachable (h.reachable hr)
  zeroed hz := h'.zeroed (h.zeroed hz)

end Placed

/-- An entry written where a probe for it passes is placed. -/
theorem placed_write {p : K → Bool} (hs : t.values.size = t.capacity) (hi : i < t.capacity)
    (hempty : t.key? i = none) (hpath : t.Passes p (t.home (hash k)) i) :
    Placed hash t [(k, v)] (t.write i k v) where
  toFilled := filled_write hs hi hempty
  reachable hr := hr.write hi hpath
  zeroed hz := by
    intro j hj
    rw [key?_write hi] at hj
    rw [value_write (hs ▸ hi)]
    split at hj
    · simp at hj
    · next hij => rw [if_neg hij, hz j hj]

/-- While some slot is empty an entry can be placed. -/
theorem exists_place (hash : K → UInt64) (hs : t.values.size = t.capacity) (hg : t.HasGap)
    (e : K × Int32) : ∃ u, place hash t e = .ok u ∧ Placed hash t [e] u := by
  obtain ⟨spot, hrun, hstop⟩ := exists_locate hg (hash e.1) fun _ => false
  cases spot with
  | held i =>
    obtain ⟨-, k, -, hp⟩ := hstop
    simp at hp
  | free i =>
    obtain ⟨hpath, hi, hempty⟩ := hstop
    refine ⟨t.write i e.1 e.2, ?_, placed_write hs hi hempty hpath⟩
    rw [place, hrun]
    rfl

/-- As many entries can be placed as slots are empty. -/
theorem exists_foldlM_place (hash : K → UInt64) (hs : t.values.size = t.capacity)
    (hlen : es.length + t.entries.length ≤ t.capacity) :
    ∃ u, es.foldlM (place hash) t = .ok u ∧ Placed hash t es u := by
  induction es generalizing t with
  | nil => exact ⟨t, rfl, .refl hs⟩
  | cons e es ih =>
    rw [List.length_cons] at hlen
    obtain ⟨u, hrun, hu⟩ := exists_place hash hs (hasGap_iff.2 (by omega)) e
    have hlen' : es.length + u.entries.length ≤ u.capacity := by
      rw [hu.capacity_eq, hu.entries.length_eq, List.length_append, List.length_singleton]
      omega
    obtain ⟨w, hrun', hw⟩ := ih hu.size_values hlen'
    refine ⟨w, ?_, hu.trans hw⟩
    rw [List.foldlM_cons, hrun]
    exact hrun'

/-! ## Moving all entries -/

/-- What moving the entries of `t` to a row of `slots` slots leaves, whatever slots they are moved
to. -/
structure Moved (t : Table K) (slots : Nat) (u : Table K) : Prop where
  capacity_eq : u.capacity = slots
  size_values : u.values.size = u.capacity
  size_eq : u.size = t.size
  threshold_eq : u.threshold = LinearProbe.threshold slots t.loadFactor
  loadFactor_eq : u.loadFactor = t.loadFactor
  entries : u.entries.Perm t.entries

/-- What placing the entries of `t` in a row of `slots` slots leaves. -/
structure Rehashed (hash : K → UInt64) (t : Table K) (slots : Nat) (u : Table K) :
    Prop extends Moved t slots u where
  reachable : u.Reachable hash
  zeroed : u.Zeroed

theorem entries_empty (slots : Nat) (loadFactor : Single) :
    (empty slots loadFactor : Table K).entries = [] := by
  simp [entries, List.filterMap_eq_nil_iff, slot?_eq_none]

theorem reachable_empty (slots : Nat) (loadFactor : Single) :
    (empty slots loadFactor : Table K).Reachable hash := by
  intro i k _ hk
  simp at hk

theorem zeroed_empty (slots : Nat) (loadFactor : Single) :
    (empty slots loadFactor : Table K).Zeroed := by
  intro i _
  simp only [value, empty, Array.getD_eq_getD_getElem?, Array.getElem?_replicate]
  split <;> rfl

/-- An empty row of slots that is to hold the entries of a table. -/
def row (t : Table K) (slots : Nat) : Table K :=
  { (empty slots t.loadFactor : Table K) with size := t.size }

theorem moved_of_filled {slots : Nat} (h : Filled (t.row slots) t.entries u) :
    Moved t slots u where
  capacity_eq := h.capacity_eq.trans Array.size_replicate
  size_values := h.size_values
  size_eq := h.size_eq
  threshold_eq := h.threshold_eq
  loadFactor_eq := h.loadFactor_eq
  entries := by
    have hrow : (t.row slots).entries = [] := entries_empty slots t.loadFactor
    simpa [hrow] using h.entries

/-- There is room in a row for as many entries as it has slots. -/
theorem room_row {slots : Nat} (hlen : t.entries.length ≤ slots) :
    (t.row slots).values.size = (t.row slots).capacity ∧
      t.entries.length + (t.row slots).entries.length ≤ (t.row slots).capacity := by
  have hcap : (t.row slots).capacity = slots := Array.size_replicate
  have hrow : (t.row slots).entries = [] := entries_empty slots t.loadFactor
  refine ⟨?_, ?_⟩
  · rw [hcap]
    exact Array.size_replicate
  · rw [hcap, hrow]
    exact hlen

/-- A number of slots to which a table may be resized. -/
structure Fits (t : Table K) (slots : Nat) : Prop where
  isPowerOfTwo : ∃ c, slots = 2 ^ c
  minCapacity_le : minCapacity ≤ slots
  size_le : t.size ≤ exactThreshold slots t.loadFactor
  threshold_eq : LinearProbe.threshold slots t.loadFactor = exactThreshold slots t.loadFactor
  threshold_lt : exactThreshold slots t.loadFactor < slots

theorem fits_of_two_pow {c : Nat} (hf : t.loadFactor.isFraction = true) (hmin : minCapacity ≤ 2 ^ c)
    (hlt : 2 ^ c < wordSize) (hle : t.size ≤ exactThreshold (2 ^ c) t.loadFactor) :
    Fits t (2 ^ c) :=
  ⟨⟨c, rfl⟩, hmin, hle, threshold_eq_exactThreshold (Nat.le_of_lt hlt) hf,
    exactThreshold_lt (Nat.two_pow_pos c) hf⟩

theorem fits_of_fitting? {slots fit c : Nat} (hf : t.loadFactor.isFraction = true)
    (hslots : slots = 2 ^ c) (hmin : minCapacity ≤ slots)
    (h : fitting? t.loadFactor t.size slots = some fit) : Fits t fit := by
  obtain ⟨⟨j, rfl⟩, hlt, hsize⟩ := fitting?_eq_some h
  have hle : minCapacity ≤ slots * 2 ^ j :=
    Nat.le_trans hmin (Nat.le_mul_of_pos_right _ (Nat.two_pow_pos j))
  have hpow : slots * 2 ^ j = 2 ^ (c + j) := by rw [hslots, Nat.pow_add]
  rw [hpow] at hlt hsize hle ⊢
  exact fits_of_two_pow hf hle hlt (threshold_eq_exactThreshold (Nat.le_of_lt hlt) hf ▸ hsize)

/-- A doubling of the slots that admits the entries fits. -/
theorem Aligned.fits_of_fitting? {fit : Nat} (ha : t.Aligned) (hf : t.loadFactor.isFraction = true)
    (h : fitting? t.loadFactor t.size (2 * t.capacity) = some fit) : Fits t fit := by
  obtain ⟨-, ⟨c, hpow⟩, hmin⟩ := ha
  refine Table.fits_of_fitting? hf (c := c + 1) ?_ (by omega) h
  rw [hpow, Nat.pow_succ, Nat.mul_comm]

variable [Stored K]

/-- The entries of a table are moved to any row that has room for them and can be allocated. -/
theorem exists_rehash (hash : K → UInt64) {slots : Nat} (hlen : t.entries.length ≤ slots)
    (halloc : isAllocatable K slots = true) :
    ∃ u, rehash hash slots t = .ok u ∧ Rehashed hash t slots u := by
  obtain ⟨hs, hroom⟩ := room_row hlen
  obtain ⟨u, hrun, hu⟩ := exists_foldlM_place hash hs hroom
  refine ⟨u, ?_, moved_of_filled hu.toFilled, hu.reachable (reachable_empty slots t.loadFactor),
    hu.zeroed (zeroed_empty slots t.loadFactor)⟩
  rw [rehash, if_pos halloc]
  exact hrun

/-- A table is resized to a number of slots that fits, unless they cannot be allocated. -/
theorem Fits.rehash_cases (hash : K → UInt64) {slots : Nat} (hc : t.Counted) (h : Fits t slots) :
    (isAllocatable K slots = true ∧
      ∃ u, rehash hash slots t = .ok u ∧ Rehashed hash t slots u) ∨
    (isAllocatable K slots = false ∧ rehash hash slots t = .error .capacityOverflow) := by
  cases halloc : isAllocatable K slots with
  | false => exact Or.inr ⟨rfl, by rw [rehash, halloc]; rfl⟩
  | true =>
    refine Or.inl ⟨rfl, exists_rehash hash ?_ halloc⟩
    have := h.size_le
    have := h.threshold_lt
    rw [← counted_iff.1 hc]
    omega

/-- Entries that are moved are moved to a row that can be allocated. -/
theorem Fits.of_rehash_eq_ok {slots : Nat} (h : Fits t slots) (hc : t.Counted)
    (hrun : t.rehash hash slots = .ok u) :
    isAllocatable K slots = true ∧ Rehashed hash t slots u := by
  rcases h.rehash_cases hash hc with ⟨halloc, w, hw, hu⟩ | ⟨-, hw⟩
  · obtain rfl : w = u := Except.ok.inj (hw.symm.trans hrun)
    exact ⟨halloc, hu⟩
  · cases hw.symm.trans hrun

/-! ## Resizing -/

/-- Some doubling of the slots admits the entries, and the least that does can be allocated. -/
def Growable (t : Table K) : Prop :=
  ∃ slots, fitting? t.loadFactor t.size (2 * t.capacity) = some slots ∧
    isAllocatable K slots = true

/-- One entry more makes the table grow, and it can not. -/
def Cramped (t : Table K) : Prop :=
  t.threshold ≤ t.size ∧ ¬Growable { t with size := t.size + 1 }

theorem growable_congr (hc : u.capacity = t.capacity) (hs : u.size = t.size)
    (hf : u.loadFactor = t.loadFactor) : u.Growable ↔ t.Growable := by
  rw [Growable, Growable, hc, hs, hf]

/-- Some row admits the entries, and the least that does is no smaller than the row there is or can
be allocated. -/
def Compactable (t : Table K) : Prop :=
  ∃ slots, fitting? t.loadFactor t.size minCapacity = some slots ∧
    (slots < t.capacity → isAllocatable K slots = true)

/-- A table grows to a number of slots that fits, or not at all. -/
theorem grow_cases (hash : K → UInt64) (hc : t.Counted) (hf : t.loadFactor.isFraction = true)
    (ha : t.Aligned) :
    (t.Growable ∧ ∃ slots u, t.grow hash = .ok u ∧ Fits t slots ∧ Rehashed hash t slots u) ∨
      (¬t.Growable ∧ t.grow hash = .error .capacityOverflow) := by
  unfold grow Growable
  cases hfit : fitting? t.loadFactor t.size (2 * t.capacity) with
  | none => exact Or.inr ⟨by simp, rfl⟩
  | some slots =>
    have hfits := ha.fits_of_fitting? hf hfit
    rcases hfits.rehash_cases hash hc with ⟨halloc, u, hrun, hu⟩ | ⟨halloc, hrun⟩
    · exact Or.inl ⟨⟨slots, rfl, halloc⟩, slots, u, hrun, hfits, hu⟩
    · exact Or.inr ⟨by simp [halloc], hrun⟩

/-- A table is compacted to a number of slots that fits, or is left as it is. -/
theorem compact_cases (hash : K → UInt64) (hc : t.Counted) (hf : t.loadFactor.isFraction = true) :
    (∃ u, t.compact hash = .ok () u ∧
        (u = t ∨ ∃ slots, Fits t slots ∧ Rehashed hash t slots u)) ∨
      t.compact hash = .error .capacityOverflow t := by
  unfold compact
  split
  · exact Or.inr rfl
  · next slots hfit =>
    have hfits := fits_of_fitting? hf (c := 3) rfl (Nat.le_refl _) hfit
    split
    · rcases hfits.rehash_cases hash hc with ⟨-, u, hrun, hu⟩ | ⟨-, hrun⟩
      · exact Or.inl ⟨u, by rw [hrun], Or.inr ⟨slots, hfits, hu⟩⟩
      · exact Or.inr (by rw [hrun])
    · exact Or.inl ⟨t, rfl, Or.inl rfl⟩

/-- A table that has grown has the least doubling of the slots that fits. -/
theorem exists_of_grow_eq_ok (ha : t.Aligned) (hc : t.Counted)
    (hf : t.loadFactor.isFraction = true) (hrun : t.grow hash = .ok u) :
    ∃ slots, fitting? t.loadFactor t.size (2 * t.capacity) = some slots ∧
      isAllocatable K slots = true ∧ Rehashed hash t slots u := by
  unfold grow at hrun
  split at hrun
  · next slots hfit =>
    obtain ⟨halloc, hu⟩ := (ha.fits_of_fitting? hf hfit).of_rehash_eq_ok hc hrun
    exact ⟨slots, hfit, halloc, hu⟩
  · cases hrun

/-- A table that has been compacted is as it was, or has a number of slots that fits. -/
theorem eq_or_exists_of_compact_eq_ok (hc : t.Counted) (hf : t.loadFactor.isFraction = true)
    (hrun : t.compact hash = .ok () u) :
    u = t ∨ ∃ slots, Fits t slots ∧ isAllocatable K slots = true ∧ Rehashed hash t slots u := by
  unfold compact at hrun
  split at hrun
  · cases hrun
  · next slots hfit =>
    have hfits := fits_of_fitting? hf (c := 3) rfl (Nat.le_refl _) hfit
    split at hrun
    · split at hrun
      · next hw =>
        cases hrun
        exact Or.inr ⟨slots, hfits, hfits.of_rehash_eq_ok hc hw⟩
      · cases hrun
    · cases hrun
      exact Or.inl rfl

end LinearProbe.Table
