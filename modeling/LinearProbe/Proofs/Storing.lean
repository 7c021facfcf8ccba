import LinearProbe.Proofs.Shifts

/-!
# Storing an entry and taking it back

An entry stored where the probe for its key stopped is met by that probe afterwards
(`Table.locate_store`), and taking it out again gives back the table as it was
(`Table.takeOut_store`). The gap that it leaves was an empty slot before, so no probe path crosses
it, and closing it moves nothing (`Table.closeGap_of_reachable`). Hence erasing a key right after it
was inserted restores every cell (`Table.erase?_undoes_insert?`), whatever hash it was looked for
with.
-/

namespace LinearProbe.Table

variable {K : Type} {hash : K → UInt64} {t u : Table K} {i j : Nat} {k : K} {v : Int32}
  {p : K → Bool} {h : UInt64}

/-! ## Taking back -/

/-- An entry taken out of a slot that was empty and zero before leaves that slot as it was. -/
theorem takeOut_store (hi : i < t.capacity) (hempty : t.key? i = none) (hzero : t.value i = 0) :
    (t.store i k v).takeOut i = t := by
  have hkeys : t.keys.setIfInBounds i none = t.keys := by
    refine Array.ext_getElem? fun j => ?_
    rw [Array.getElem?_setIfInBounds]
    split
    · next hij =>
      subst hij
      have hi' : i < t.keys.size := hi
      simpa [key?, Array.getD, hi', eq_comm] using hempty
    · rfl
  have hvalues : t.values.setIfInBounds i 0 = t.values := by
    refine Array.ext_getElem? fun j => ?_
    rw [Array.getElem?_setIfInBounds]
    split
    · next hij =>
      subst hij
      by_cases hi' : i < t.values.size
      · simpa [value, Array.getD, hi', eq_comm] using hzero
      · simp [hi']
    · rfl
  simp [store, takeOut, write, vacate, hkeys, hvalues]

/-! ## Looking for a stored key -/

/-- A probe that stopped at an empty slot stops at the entry stored there. -/
theorem locateFrom_store {n : Nat} (hi : i < t.capacity) (hempty : t.key? i = none)
    (hp : p k = true) (hrun : t.locateFrom p n j = .ok (.free i)) :
    (t.store i k v).locateFrom p n j = .ok (.held i) := by
  induction n generalizing j with
  | zero => cases hrun
  | succ n ih =>
    rw [locateFrom] at hrun ⊢
    rw [key?_store hi]
    split at hrun
    · cases hrun
      simp [hp]
    · next l hl =>
      have hij : i ≠ j := by
        rintro rfl
        simp [hl] at hempty
      rw [if_neg hij, hl]
      split at hrun
      · cases hrun
      · next hno =>
        rw [next_congr capacity_store]
        simpa [hno] using ih hrun

theorem locate_store (hp : p k = true) (hrun : t.locate h p = .ok (.free i)) :
    (t.store i k v).locate h p = .ok (.held i) := by
  obtain ⟨-, hi, hempty⟩ := stopsAt_of_locate hrun
  rw [locate, home_congr capacity_store, capacity_store]
  exact locateFrom_store hi hempty hp hrun

theorem find?_store (hs : t.values.size = t.capacity) (hp : p k = true)
    (hrun : t.locate h p = .ok (.free i)) :
    (t.store i k v).find? h p = .ok (some (k, v)) := by
  obtain ⟨-, hi, -⟩ := stopsAt_of_locate hrun
  rw [find?, indexOf?_of_locate (locate_store hp hrun)]
  simp [Except.map, Spot.held?, slot?_store hs hi]

theorem find?_of_free (hrun : t.locate h p = .ok (.free i)) : t.find? h p = .ok none := by
  rw [find?, indexOf?, hrun]
  rfl

/-- If no key on the probe path of a hash is accepted, the probe stops at the empty slot behind
it. -/
theorem exists_locate_free (hg : t.HasGap)
    (hpath : ∀ j l, t.Run (t.home h) j → t.key? j = some l → p l = false) :
    ∃ i, t.locate h p = .ok (.free i) := by
  obtain ⟨spot, hrun, hstop⟩ := exists_locate hg h p
  cases spot with
  | free i => exact ⟨i, hrun⟩
  | held j =>
    obtain ⟨hpass, l, hl, hpl⟩ := hstop
    have hj := lt_capacity_of_key? hl
    have hpathj : t.Run (t.home h) j := by
      refine ⟨hj, fun m hm hle => ?_⟩
      rcases Nat.lt_or_eq_of_le hle with hlt | heq
      · exact hpass.occupied hm hlt
      · have hhome := home_lt (Nat.zero_lt_of_lt hj) h
        exact eq_of_distance_eq hhome hm hj heq ▸ occupied_iff.2 ⟨l, hl⟩
    rw [hpath j l hpathj hl] at hpl
    cases hpl

/-! ## Closing a gap that no path crosses -/

/-- An entry within reach is nearer to its home than to any empty slot. -/
theorem Reachable.displacement_lt_distance (hr : t.Reachable hash) (hk : t.key? j = some k)
    (hi : i < t.capacity) (hempty : t.key? i = none) :
    t.displacement (hash k) j < t.distance i j := by
  have hj := lt_capacity_of_key? hk
  refine Nat.lt_of_not_le fun hle => ?_
  have hcross := (distance_le_iff (home_lt (Nat.zero_lt_of_lt hj) (hash k)) hi hj).1 hle
  exact absurd (hr.distance_lt hk hi hempty) (Nat.not_lt.2 hcross)

/-- If all entries are within reach, closing the gap at an empty slot moves nothing. -/
theorem closeGap_of_reachable (hs : t.values.size = t.capacity) (hr : t.Reachable hash)
    (hi : i < t.capacity) (hempty : t.key? i = none) : t.closeGap hash i = .ok t := by
  obtain ⟨u, hrun⟩ := exists_closeGap hash hs hi hempty
  -- no entry is as far from its home as from the gap, so the loop makes no move
  have hmove : ∀ u gap j k, Closing t u gap j → u = t ∧ gap = i → u.key? (u.next j) = some k →
      u.distance gap (u.next j) ≤ u.displacement (hash k) (u.next j) →
      u.shift (u.next j) gap k = t ∧ u.next j = i := by
    rintro u gap j k - ⟨rfl, rfl⟩ hk hle
    exact absurd (hr.displacement_lt_distance hk hi hempty) (Nat.not_lt.2 hle)
  obtain ⟨_, _, -, ⟨rfl, -⟩, -⟩ := closeGapFrom_rule (P := fun u gap _ => u = t ∧ gap = i) hmove
    (fun _ _ _ _ _ h _ _ => h) (.refl hs hi hempty) ⟨rfl, rfl⟩ hrun
  exact hrun

/-- An entry stored in an empty slot can be erased, and nothing is left of it. -/
theorem eraseAt?_store (hs : t.values.size = t.capacity) (hr : t.Reachable hash) (hz : t.Zeroed)
    (hi : i < t.capacity) (hempty : t.key? i = none) :
    (t.store i k v).eraseAt? hash i = .ok (some (k, v)) t := by
  have he : (t.store i k v).slot? i = some (k, v) := by rw [slot?_store hs hi, if_pos rfl]
  rw [eraseAt?_of_slot? he, takeOut_store hi hempty (hz i hempty),
    closeGap_of_reachable hs hr hi hempty]

/-! ## Inserting and erasing -/

theorem erase?_of_held (hrun : t.locate h p = .ok (.held i)) :
    t.erase? hash h p = t.eraseAt? hash i := by
  rw [erase?, indexOf?_of_locate hrun]
  rfl

/-- The checked probe stops where the probe does. -/
theorem Checked.locate_eq {spot : Spot} (hrun : t.locate h p = .ok spot) :
    Checked.locate t h (fun _ => p) = .ok spot := by
  have hc : 0 < t.capacity := Nat.pos_of_ne_zero fun h0 => by
    rw [Table.locate, h0] at hrun
    cases hrun
  rw [refines_locate.eq_mapError (locate_ne_fault hc _ _), hrun]
  rfl

variable [Stored K]

/-- Within the threshold an insert into a free spot stores the entry, and nothing grows. -/
theorem insertAt_of_lt (hroom : t.size < t.threshold) :
    t.insertAt hash i k v = .ok () (t.store i k v) :=
  if_neg (Nat.not_lt.2 (Nat.succ_le_of_lt hroom))

theorem Checked.insertAt_of_lt (hs : t.values.size = t.capacity) (hi : i < t.capacity)
    (hempty : t.key? i = none) (hroom : t.size < t.threshold) (hash : Nat → K → UInt64) :
    Checked.insertAt hash t i k v = .ok (t.store i k v) := by
  rw [insertAt_eq hs hi hempty]
  exact if_neg (Nat.not_lt.2 (Nat.succ_le_of_lt hroom))

theorem insert?_of_free (hrun : t.locate h p = .ok (.free i)) :
    t.insert? hash h p k v = (t.insertAt hash i k v).map fun _ => none := by
  rw [insert?, hrun]

/-- A key that no key on the probe path of a hash answers for is inserted, within the threshold, by
writing one slot, where it is found afterwards. Erasing it leaves every cell and every count as it
was before, for every hash and predicate. -/
theorem erase?_undoes_insert? (hs : t.values.size = t.capacity) (hr : t.Reachable hash)
    (hz : t.Zeroed) (hg : t.HasGap) (hroom : t.size < t.threshold) (hp : p k = true)
    (hpath : ∀ j l, t.Run (t.home h) j → t.key? j = some l → p l = false) :
    ∃ i u, t.locate h p = .ok (.free i) ∧ i < t.capacity ∧ t.key? i = none ∧
      Checked.insert? (fun _ => hash) t h (fun _ => p) k v = .ok (none, u) ∧
      t.insert? hash h p k v = .ok none u ∧
      u.slot? i = some (k, v) ∧ (∀ j, j ≠ i → u.key? j = t.key? j ∧ u.value j = t.value j) ∧
      u.capacity = t.capacity ∧ u.size = t.size + 1 ∧ u.threshold = t.threshold ∧
      u.locate h p = .ok (.held i) ∧ u.find? h p = .ok (some (k, v)) ∧
      Checked.erase? (fun _ => hash) u h (fun _ => p) = .ok (some (k, v), t) ∧
      u.erase? hash h p = .ok (some (k, v)) t := by
  obtain ⟨i, hfree⟩ := exists_locate_free hg hpath
  obtain ⟨-, hi, hempty⟩ := stopsAt_of_locate hfree
  have hheld := locate_store (v := v) hp hfree
  have hs' : (t.store i k v).values.size = (t.store i k v).capacity := by
    rw [size_values_store, capacity_store, hs]
  have hinsert : t.insert? hash h p k v = .ok none (t.store i k v) := by
    rw [insert?_of_free hfree, insertAt_of_lt hroom]
    rfl
  have he : (t.store i k v).slot? i = some (k, v) := by rw [slot?_store hs hi, if_pos rfl]
  have herase := eraseAt?_store (k := k) (v := v) hs hr hz hi hempty
  refine ⟨i, t.store i k v, hfree, hi, hempty, ?_, hinsert, he, fun j hj => ⟨?_, ?_⟩,
    capacity_store, rfl, rfl, hheld, find?_store hs hp hfree, ?_, ?_⟩
  · rw [Checked.insert?, Checked.locate_eq hfree, Checked.ok_bind]
    dsimp only
    rw [Checked.insertAt_of_lt hs hi hempty hroom]
    rfl
  · rw [key?_store hi, if_neg hj.symm]
  · rw [value_store hs hi, if_neg hj.symm]
  · rw [Checked.erase?, Checked.locate_eq hheld, Checked.ok_bind]
    dsimp only
    rw [Checked.refines_eraseAt?.eq_mapError
      (Checked.eraseAt?_ne_fault hs' he t.size.succ_pos _), herase]
    rfl
  · rw [erase?_of_held hheld, herase]

/-- Eight slots in which an empty one parts two runs of entries. -/
def parted : Table UInt64 :=
  ⟨#[none, some 6, some 14, none, none, none, some 1, some 9], #[0, 60, 140, 0, 0, 0, 10, 90],
    4, 6, ⟨0x3f400000⟩⟩

/-- An entry inserted with a foreign hash joins the two runs across the end of the row, and none of
the entries behind it moves when it is erased. -/
theorem erase?_undoes_insert?_parted :
    parted.Reachable id ∧ parted.Zeroed ∧ parted.HasGap ∧
    (∀ j l, parted.Run (parted.home 8) j → parted.key? j = some l → (l == 3) = false) ∧
    ∃ i u, parted.locate 8 (· == 3) = .ok (.free i) ∧ i < 8 ∧ parted.key? i = none ∧
      Checked.insert? (fun _ => id) parted 8 (fun _ => (· == 3)) 3 30 = .ok (none, u) ∧
      parted.insert? id 8 (· == 3) 3 30 = .ok none u ∧ u.slot? i = some (3, 30) ∧
      (∀ j, j ≠ i → u.key? j = parted.key? j ∧ u.value j = parted.value j) ∧
      u.capacity = 8 ∧ u.size = 4 + 1 ∧ u.threshold = 6 ∧
      u.locate 8 (· == 3) = .ok (.held i) ∧ u.find? 8 (· == 3) = .ok (some (3, 30)) ∧
      Checked.erase? (fun _ => id) u 8 (fun _ => (· == 3)) = .ok (some (3, 30), parted) ∧
      u.erase? id 8 (· == 3) = .ok (some (3, 30)) parted := by
  have hr : parted.Reachable id := by decide +kernel
  have hz : parted.Zeroed := by
    intro i hi
    rcases Nat.lt_or_ge i 8 with hlt | hge
    · have hcells : ∀ i, i < 8 → parted.key? i = none → parted.value i = 0 := by decide
      exact hcells i hlt hi
    · simp [value, parted, Array.getD, Nat.not_lt.2 hge]
  have hpath : ∀ j l, parted.Run (parted.home 8) j → parted.key? j = some l →
      (l == 3) = false := by
    have hkeys : ∀ j, j < 8 → parted.key? j ≠ some 3 := by decide
    intro j l _ hl
    refine beq_eq_false_iff_ne.2 ?_
    rintro rfl
    exact hkeys j (lt_capacity_of_key? hl) hl
  have hg : parted.HasGap := by decide
  exact ⟨hr, hz, hg, hpath, erase?_undoes_insert? rfl hr hz hg (by decide) rfl hpath⟩

end LinearProbe.Table
