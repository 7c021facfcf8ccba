import LinearProbe.Proofs.Histories
import LinearProbe.Proofs.Storing

/-!
# Rebuilding a table

Moving all entries to a new row places them without comparing keys, without counting, and without
asking whether the row is full. It comes to the same as inserting them one after the other into a
new table of that size (`Table.rehash_rebuilds`) : as long as the entries have unequal keys, the
probe for each of them accepts no key it meets, and as long as the threshold of the row admits them
all, no insert makes it grow (`Table.Fills`). The row that is being filled and the table that is
being inserted into differ in their count alone, and that catches up with the last entry
(`Table.exists_foldlM_place_fills`).
-/

namespace LinearProbe.Table

variable {K : Type}

/-! ## New tables -/

/-- A power of two of slots is found anew when it is the hint. -/
theorem capacityFor_two_pow {c : Nat} (hmin : minCapacity ≤ 2 ^ c) (hlt : 2 ^ c < wordSize) :
    capacityFor (2 ^ c).toUInt64 = .ok (2 ^ c) := by
  have hhint : (2 ^ c).toUInt64.toNat = 2 ^ c := UInt64.toNat_ofNat_of_lt' hlt
  rw [capacityFor, hhint, Nat.max_eq_left hmin, leastPowerOfTwo_two_pow]
  exact if_pos hlt

/-- A table made for a power of two of slots has that many. -/
theorem ofHint_two_pow [Stored K] {c : Nat} {loadFactor : Single} (hmin : minCapacity ≤ 2 ^ c)
    (halloc : isAllocatable K (2 ^ c) = true) :
    ofHint (2 ^ c).toUInt64 loadFactor = .ok (empty (2 ^ c) loadFactor : Table K) := by
  have hcap := capacityFor_two_pow hmin (lt_wordSize_of_isAllocatable halloc)
  simp [ofHint, hcap, halloc]

/-! ## Filling a table -/

section Fills

variable [BEq K] [Stored K] {hash : K → UInt64} {t u w : Table K} {es : List (K × Int32)}

/-- The entries are inserted into `t` one after the other, each at the free spot of its key, and
none of them makes the table grow; that leaves `u`. -/
inductive Fills (hash : K → UInt64) : Table K → List (K × Int32) → Table K → Prop
  | nil {t : Table K} : Fills hash t [] t
  | cons {t u : Table K} {e : K × Int32} {es : List (K × Int32)} {i : Nat}
      (hfree : t.locate (hash e.1) (· == e.1) = .ok (.free i))
      (hstore : t.insertAt hash i e.1 e.2 = .ok () (t.store i e.1 e.2))
      (h : Fills hash (t.store i e.1 e.2) es u) : Fills hash t (e :: es) u

/-- Carried out as commands these inserts answer that none of the keys was there. -/
theorem Fills.run (h : Fills hash t es u) (c : Cursor) :
    (Session.mk t c).run (es.map fun e => .insert? hash (hash e.1) (· == e.1) e.1 e.2) =
      .ok (es.map fun _ => .value? none) ⟨u, c⟩ := by
  induction h with
  | nil => rfl
  | @cons t u e es i hfree hstore _ ih =>
    have hperform : (Session.mk t c).perform (.insert? hash (hash e.1) (· == e.1) e.1 e.2) =
        .ok (.value? none) ⟨t.store i e.1 e.2, c⟩ := by
      rw [Session.perform, insert?_of_free hfree, hstore]
      rfl
    rw [List.map_cons, Session.run, hperform]
    dsimp only
    rw [ih]
    rfl

omit [Stored K] in
/-- An entry whose key no slot holds is placed where it would be stored. -/
theorem exists_place_store {e : K × Int32} (hg : w.HasGap)
    (hnew : ∀ j l, w.key? j = some l → (l == e.1) = false) (n : Nat) :
    ∃ i, w.locate (hash e.1) (· == e.1) = .ok (.free i) ∧
      place hash { w with size := n } e = .ok { w.store i e.1 e.2 with size := n } := by
  obtain ⟨i, hfree⟩ := exists_locate_free hg (h := hash e.1) (p := (· == e.1))
    fun j l _ hl => hnew j l hl
  have hlocate : ({ w with size := n } : Table K).locate (hash e.1) (fun _ => false) =
      w.locate (hash e.1) (· == e.1) :=
    locate_congr (t := w) (u := { w with size := n }) rfl (fun _ => rfl) fun j l hl =>
      (hnew j l hl).symm
  refine ⟨i, hfree, ?_⟩
  rw [place, hlocate, hfree]
  rfl

/-- Placing entries with unequal keys is inserting them, but for the count, as long as the threshold
admits them all. -/
theorem exists_foldlM_place_fills [EquivBEq K] (hs : w.values.size = w.capacity) (hc : w.Counted)
    (hlt : w.threshold < w.capacity) (hroom : w.size + es.length ≤ w.threshold)
    (hes : es.Pairwise fun a b => (a.1 == b.1) = false)
    (hnew : ∀ e ∈ es, ∀ j l, w.key? j = some l → (l == e.1) = false) (n : Nat) :
    ∃ u, es.foldlM (place hash) { w with size := n } = .ok { u with size := n } ∧
      Fills hash w es u ∧ u.size = w.size + es.length := by
  -- each step needs that the table holds none of the keys to come, and has room for all of them
  induction es generalizing w with
  | nil => exact ⟨w, rfl, .nil, rfl⟩
  | cons e es ih =>
    obtain ⟨he, hes⟩ := List.pairwise_cons.1 hes
    obtain ⟨hew, hnew⟩ := List.forall_mem_cons.1 hnew
    rw [List.length_cons] at hroom
    have hsize : w.size < w.threshold := by omega
    obtain ⟨i, hfree, hplace⟩ :=
      exists_place_store (hc.hasGap (Nat.lt_trans hsize hlt)) hew n
    obtain ⟨-, hi, hempty⟩ := stopsAt_of_locate hfree
    have hnew' : ∀ e' ∈ es, ∀ j l, (w.store i e.1 e.2).key? j = some l → (l == e'.1) = false := by
      intro e' he' j l hl
      rw [key?_store hi] at hl
      split at hl
      · obtain rfl : e.1 = l := by simpa using hl
        exact he e' he'
      · exact hnew e' he' j l hl
    obtain ⟨u, hrun, hu, hsize'⟩ := ih (w := w.store i e.1 e.2)
      (by rw [size_values_store, capacity_store, hs]) (hc.store hs hi hempty)
      (by rw [capacity_store]; exact hlt) (by simp only [size_store, threshold_store]; omega) hes
      hnew'
    refine ⟨u, ?_, .cons hfree (insertAt_of_lt hsize) hu, ?_⟩
    · rw [List.foldlM_cons, hplace]
      exact hrun
    · rw [hsize', List.length_cons, size_store]
      omega

/-! ## Moving all entries -/

/-- Moving all entries to a row that fits and can be allocated is inserting them into an empty
one. -/
theorem Fits.exists_rehash_fills [EquivBEq K] (hash : K → UInt64) {slots : Nat}
    (hfits : Fits t slots) (hc : t.Counted) (hd : t.Distinct)
    (halloc : isAllocatable K slots = true) :
    ∃ u, t.rehash hash slots = .ok u ∧ Fills hash (empty slots t.loadFactor) t.entries u := by
  have hcap : (empty slots t.loadFactor : Table K).capacity = slots := capacity_empty
  have hthreshold : (empty slots t.loadFactor : Table K).threshold =
      exactThreshold slots t.loadFactor := hfits.threshold_eq
  have hroom : (empty slots t.loadFactor : Table K).size + t.entries.length ≤
      (empty slots t.loadFactor : Table K).threshold := by
    rw [hthreshold, ← counted_iff.1 hc]
    exact (Nat.zero_add _).trans_le hfits.size_le
  obtain ⟨u, hrun, hu, hlen⟩ : ∃ u, t.entries.foldlM (place hash)
      { (empty slots t.loadFactor : Table K) with size := t.size } = .ok { u with size := t.size } ∧
        Fills hash (empty slots t.loadFactor) t.entries u ∧ u.size = 0 + t.entries.length :=
    exists_foldlM_place_fills (by rw [hcap]; exact Array.size_replicate)
      (by rw [counted_iff, entries_empty]; rfl)
      (by rw [hthreshold, hcap]; exact hfits.threshold_lt) hroom (distinct_iff.1 hd) (by simp)
      t.size
  have hcount : ({ u with size := t.size } : Table K) = u := by
    have hlen' : t.size = u.size := by
      rw [hlen, counted_iff.1 hc, Nat.zero_add]
    rw [hlen']
  refine ⟨u, ?_, hu⟩
  rw [rehash, if_pos halloc, ← hcount]
  exact hrun

/-- A counted table with unequal keys is moved to any row that can be allocated and whose threshold
admits its entries : no probe is endless and nothing faults. What the move leaves, and with it a
table that grows or is compacted to that many slots, is the table that inserting the entries by
index of their slots into a new one leaves, none of which makes it grow. -/
theorem rehash_rebuilds [EquivBEq K] (hash : K → UInt64) {c : Nat}
    (hf : t.loadFactor.isFraction = true) (hc : t.Counted) (hd : t.Distinct)
    (hmin : minCapacity ≤ 2 ^ c) (hle : t.size ≤ exactThreshold (2 ^ c) t.loadFactor)
    (halloc : isAllocatable K (2 ^ c) = true) :
    ∃ t₀ u, ofHint (2 ^ c).toUInt64 t.loadFactor = .ok t₀ ∧ t₀.capacity = 2 ^ c ∧
      Fills hash t₀ t.entries u ∧
      (∀ cursor, (Session.mk t₀ cursor).run
          (t.entries.map fun e => .insert? hash (hash e.1) (· == e.1) e.1 e.2) =
        .ok (t.entries.map fun _ => .value? none) ⟨u, cursor⟩) ∧
      Checked.rehash (fun _ => hash) (2 ^ c) t = .ok u ∧ t.rehash hash (2 ^ c) = .ok u ∧
      (fitting? t.loadFactor t.size (2 * t.capacity) = some (2 ^ c) → t.grow hash = .ok u) ∧
      (fitting? t.loadFactor t.size minCapacity = some (2 ^ c) → 2 ^ c < t.capacity →
        t.compact hash = .ok () u) := by
  have hfits := fits_of_two_pow hf hmin (lt_wordSize_of_isAllocatable halloc) hle
  obtain ⟨u, hrun, hu⟩ := hfits.exists_rehash_fills hash hc hd halloc
  refine ⟨_, u, ofHint_two_pow hmin halloc, capacity_empty, hu, hu.run, ?_, hrun, ?_, ?_⟩
  · rcases Checked.rehash_cases hc hfits fun _ => hash with ⟨w, hw, -⟩ | ⟨hno, -⟩
    · have hrefines : Refines (Checked.rehash (fun _ => hash) (2 ^ c) t) (t.rehash hash (2 ^ c)) :=
        Checked.refines_rehash
      rw [hrun] at hrefines
      rw [hw, hrefines.eq_of_ok hw]
    · simp [halloc] at hno
  · intro hfit
    rw [grow, hfit]
    exact hrun
  · intro hfit hlt
    rw [compact, hfit]
    simp [hlt, hrun]

end Fills

/-- Sixteen slots with four entries, as many as eight slots can hold under a load factor of a half.
-/
def strung : Table UInt64 :=
  ⟨#[some 15, none, none, none, none, none, none, some 8, some 24, some 7, none, none, none, none,
    none, none], #[150, 0, 0, 0, 0, 0, 0, 80, 240, 70, 0, 0, 0, 0, 0, 0], 4, 8, ⟨0x3f000000⟩⟩

/-- Moved to eight slots, two of the entries pass over the end of the row and the ones before them.
-/
theorem rehash_rebuilds_strung : strung.Counted ∧ strung.Distinct ∧
    strung.rehash id 8 = .ok ⟨#[some 15, some 24, some 7, none, none, none, none, some 8],
      #[150, 240, 70, 0, 0, 0, 0, 80], 4, 4, ⟨0x3f000000⟩⟩ ∧
    ∃ t₀ u, ofHint 8 ⟨0x3f000000⟩ = .ok t₀ ∧ t₀.capacity = 8 ∧
      Fills id t₀ [(15, 150), (8, 80), (24, 240), (7, 70)] u ∧
      (∀ cursor, (Session.mk t₀ cursor).run
          [.insert? id 15 (· == 15) 15 150, .insert? id 8 (· == 8) 8 80,
            .insert? id 24 (· == 24) 24 240, .insert? id 7 (· == 7) 7 70] =
        .ok [.value? none, .value? none, .value? none, .value? none] ⟨u, cursor⟩) ∧
      Checked.rehash (fun _ => id) 8 strung = .ok u ∧ strung.rehash id 8 = .ok u ∧
      (fitting? ⟨0x3f000000⟩ 4 32 = some 8 → strung.grow id = .ok u) ∧
      (fitting? ⟨0x3f000000⟩ 4 8 = some 8 → 8 < 16 → strung.compact id = .ok () u) := by
  have hd : strung.Distinct := distinct_iff.2 (by decide)
  exact ⟨by decide, hd, by decide +kernel,
    rehash_rebuilds (c := 3) id (by decide) (by decide) hd (by decide) (by decide) (by decide)⟩

end LinearProbe.Table
