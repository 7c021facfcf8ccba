import LinearProbe.Proofs.Positions
import LinearProbe.Table.Traversal
import Mathlib.Data.List.Nodup

/-!
# The entries of a table

What writing to one slot does to the list of entries, up to order : an entry written into an empty
slot is one entry more (`entries_write_perm`), a slot made empty one entry less
(`entries_perm_vacate`). Whether all keys are unequal can be read off that list
(`distinct_iff`), so it is kept by whatever keeps the entries (`Distinct.of_perm`). A traversal
lists the same entries (`toList_perm`), and starts behind an empty slot
(`exists_next_eq_start`).
-/

namespace LinearProbe.Table

variable {K : Type} {t u : Table K} {i j s : Nat} {k : K} {v : Int32} {e : K × Int32}

/-! ## Slots -/

theorem slot?_eq_some : t.slot? i = some e ↔ t.key? i = some e.1 ∧ t.value i = e.2 := by
  unfold slot?
  cases t.key? i with
  | none => simp
  | some k => simp [Prod.ext_iff]

theorem slot?_eq_none : t.slot? i = none ↔ t.key? i = none := by
  simp [slot?]

theorem slot?_congr (hk : u.key? i = t.key? i) (hv : u.value i = t.value i) :
    u.slot? i = t.slot? i := by
  simp only [slot?, hk, hv]

theorem isSome_slot? : (t.slot? i).isSome = (t.key? i).isSome := by
  simp [slot?]

theorem occupied_iff : t.Occupied i ↔ ∃ k, t.key? i = some k :=
  Option.isSome_iff_exists

theorem not_occupied_iff : ¬t.Occupied i ↔ t.key? i = none := by
  simp [Occupied]

theorem Occupied.lt_capacity (h : t.Occupied i) : i < t.capacity :=
  let ⟨_, hk⟩ := occupied_iff.1 h
  lt_capacity_of_key? hk

theorem slot?_write (hs : t.values.size = t.capacity) (hi : i < t.capacity) :
    (t.write i k v).slot? j = if i = j then some (k, v) else t.slot? j := by
  unfold slot?
  rw [key?_write hi, value_write (hs ▸ hi)]
  split <;> rfl

theorem slot?_writeValue (hs : t.values.size = t.capacity) (hi : i < t.capacity) :
    (t.writeValue i v).slot? j = if i = j then (t.key? i).map (·, v) else t.slot? j := by
  unfold slot?
  rw [key?_writeValue, value_writeValue (hs ▸ hi)]
  split
  · next h => rw [h]
  · rfl

theorem slot?_vacate : (t.vacate i).slot? j = if i = j then none else t.slot? j := by
  unfold slot?
  rw [key?_vacate, value_vacate]
  split <;> rfl

/-! ## Lists of entries -/

theorem length_entries : t.entries.length = t.occupied.length := by
  simp only [entries, occupied, List.length_filterMap_eq_countP, List.countP_eq_length_filter,
    isSome_slot?]

theorem length_entries_le : t.entries.length ≤ t.capacity := by
  simpa [entries] using List.length_filterMap_le t.slot? (List.range t.capacity)

theorem counted_iff : t.Counted ↔ t.size = t.entries.length := by
  rw [Counted, length_entries]

theorem mem_entries : e ∈ t.entries ↔ ∃ i, t.slot? i = some e := by
  constructor
  · intro h
    obtain ⟨i, -, hi⟩ := List.mem_filterMap.1 h
    exact ⟨i, hi⟩
  · rintro ⟨i, hi⟩
    have := lt_capacity_of_key? (slot?_eq_some.1 hi).1
    exact List.mem_filterMap.2 ⟨i, List.mem_range.2 this, hi⟩

/-- A list of indices without repetition that has all slots of the row gives the entries. -/
theorem filterMap_perm_entries {is : List Nat} (hd : is.Nodup)
    (hm : ∀ i, i ∈ is ↔ i < t.capacity) : (is.filterMap t.slot?).Perm t.entries := by
  refine List.Perm.filterMap _ ((List.perm_ext_iff_of_nodup hd List.nodup_range).2 fun i => ?_)
  rw [hm, List.mem_range]

/-- Two tables that differ in one slot, empty in one of them, differ by the entry there. -/
theorem entries_perm_cons (hc : u.capacity = t.capacity) (hu : u.slot? i = some e)
    (ht : t.slot? i = none) (hrest : ∀ j, i ≠ j → u.slot? j = t.slot? j) :
    u.entries.Perm (e :: t.entries) := by
  have hi : i < t.capacity := hc ▸ lt_capacity_of_key? (slot?_eq_some.1 hu).1
  have hp := List.perm_cons_erase (List.mem_range.2 hi)
  have hrest' : ((List.range t.capacity).erase i).filterMap u.slot? =
      ((List.range t.capacity).erase i).filterMap t.slot? := by
    refine List.filterMap_congr fun j hj => hrest j ?_
    rintro rfl
    exact List.Nodup.not_mem_erase List.nodup_range hj
  have h1 : u.entries.Perm (e :: ((List.range t.capacity).erase i).filterMap t.slot?) := by
    simpa [entries, hc, hu, hrest'] using hp.filterMap u.slot?
  have h2 : t.entries.Perm (((List.range t.capacity).erase i).filterMap t.slot?) := by
    simpa [entries, ht] using hp.filterMap t.slot?
  exact h1.trans (h2.symm.cons e)

/-- The entries are that of a slot and those of the table without it. -/
theorem entries_perm_vacate (h : t.slot? i = some e) :
    t.entries.Perm (e :: (t.vacate i).entries) := by
  refine entries_perm_cons capacity_vacate.symm h ?_ fun j hij => ?_
  · rw [slot?_vacate, if_pos rfl]
  · rw [slot?_vacate, if_neg hij]

theorem Counted.size_pos (hc : t.Counted) (h : t.slot? i = some e) : 0 < t.size := by
  rw [counted_iff.1 hc, (entries_perm_vacate h).length_eq]
  exact Nat.succ_pos _

theorem entries_write_perm (hs : t.values.size = t.capacity) (hi : i < t.capacity)
    (h : t.key? i = none) : (t.write i k v).entries.Perm ((k, v) :: t.entries) := by
  refine entries_perm_cons capacity_write ?_ (slot?_eq_none.2 h) fun j hij => ?_
  · rw [slot?_write hs hi, if_pos rfl]
  · rw [slot?_write hs hi, if_neg hij]

theorem entries_writeValue_perm (hs : t.values.size = t.capacity) (h : t.key? i = some k) :
    (t.writeValue i v).entries.Perm ((k, v) :: (t.vacate i).entries) := by
  have hi := lt_capacity_of_key? h
  refine entries_perm_cons (i := i) capacity_vacate.symm ?_ ?_ fun j hij => ?_
  · rw [slot?_writeValue hs hi, if_pos rfl, h, Option.map_some]
  · rw [slot?_vacate, if_pos rfl]
  · rw [slot?_writeValue hs hi, if_neg hij, slot?_vacate, if_neg hij]

/-! ## Unequal keys -/

section Distinct

variable [BEq K] [EquivBEq K]

theorem distinct_iff :
    t.Distinct ↔ t.entries.Pairwise fun a b => (a.1 == b.1) = false := by
  unfold entries
  rw [List.pairwise_filterMap]
  constructor
  · intro hd
    refine List.pairwise_lt_range.imp fun {i j} hij a ha b hb => ?_
    refine Bool.eq_false_iff.2 fun hab => ?_
    have := hd i j _ _ (slot?_eq_some.1 ha).1 (slot?_eq_some.1 hb).1 hab
    omega
  · intro hp i j k l hk hl hkl
    have hi := lt_capacity_of_key? hk
    have hj := lt_capacity_of_key? hl
    have hlt : ∀ {i j : Nat} {k l : K}, j < t.capacity → t.key? i = some k → t.key? j = some l →
        i < j → (k == l) = false := by
      intro i j k l hj hk hl hij
      have := List.pairwise_iff_getElem.1 hp i j (by simp; omega) (by simpa using hj) hij
      simp only [List.getElem_range] at this
      exact this (k, t.value i) (slot?_eq_some.2 ⟨hk, rfl⟩) (l, t.value j)
        (slot?_eq_some.2 ⟨hl, rfl⟩)
    rcases Nat.lt_trichotomy i j with hij | hij | hij
    · simp [hlt hj hk hl hij] at hkl
    · exact hij
    · have := hlt hi hl hk hij
      rw [BEq.comm] at this
      simp [this] at hkl

theorem Distinct.of_perm (hd : t.Distinct) (h : u.entries.Perm t.entries) : u.Distinct :=
  distinct_iff.2 ((h.pairwise_iff fun hab => by rwa [BEq.comm]).2 (distinct_iff.1 hd))

end Distinct

/-! ## Traversals -/

theorem start_lt (hc : 0 < t.capacity) : t.start < t.capacity := by
  unfold start
  split
  · exact hc
  · split
    · exact next_lt hc
    · exact hc

theorem mem_cycle (hs : s < t.capacity) : i ∈ t.cycle s ↔ i < t.capacity := by
  unfold cycle
  rw [List.mem_map]
  constructor
  · rintro ⟨d, -, rfl⟩
    exact Nat.mod_lt _ (Nat.zero_lt_of_lt hs)
  · intro hi
    exact ⟨t.distance s i, List.mem_range.2 (distance_lt (Nat.zero_lt_of_lt hs)),
      add_distance hs hi⟩

theorem nodup_cycle (hs : s < t.capacity) : (t.cycle s).Nodup := by
  refine List.Nodup.map_on (fun d hd d' hd' h => ?_) List.nodup_range
  rw [← distance_add_mod hs (List.mem_range.1 hd), h, distance_add_mod hs (List.mem_range.1 hd')]

theorem held_map_slots (is : List Nat) :
    Entries.held (is.map fun i => (t.key? i, t.value i)) = is.filterMap t.slot? := by
  simp only [Entries.held, List.filterMap_map]
  rfl

/-- The two rows side by side. -/
theorem zip_rows (hs : t.values.size = t.capacity) : t.keys.toList.zip t.values.toList =
    (List.range t.capacity).map fun i => (t.key? i, t.value i) := by
  refine List.ext_getElem (by simp [hs, capacity]) fun i hi _ => ?_
  have hik : i < t.keys.size := by simpa [hs, capacity] using hi
  have hiv : i < t.values.size := hs ▸ hik
  simp [key?, value, Array.getD, hik, hiv]

/-- The two rows side by side hold the entries. -/
theorem held_zip (hs : t.values.size = t.capacity) :
    Entries.held (t.keys.toList.zip t.values.toList) = t.entries := by
  rw [zip_rows hs, held_map_slots, entries]

/-- A drain yields the entries by index. -/
theorem toList_drain (hs : t.values.size = t.capacity) (hc : t.Counted) :
    t.drain.1.toList = t.entries := by
  rw [drain, Entries.toList, held_zip hs, counted_iff.1 hc, List.take_length]

theorem mem_order : i ∈ t.order ↔ i < t.capacity := by
  rcases Nat.eq_zero_or_pos t.capacity with h0 | hpos
  · simp [order, cycle, h0]
  · exact mem_cycle (start_lt hpos)

theorem nodup_order : t.order.Nodup := by
  rcases Nat.eq_zero_or_pos t.capacity with h0 | hpos
  · simp [order, cycle, h0]
  · exact nodup_cycle (start_lt hpos)

theorem filterMap_order_perm : (t.order.filterMap t.slot?).Perm t.entries :=
  filterMap_perm_entries nodup_order fun _ => mem_order

/-- A traversal does not stop before it has met all entries. -/
theorem toList_eq_filterMap (hc : t.Counted) : t.toList = t.order.filterMap t.slot? := by
  rw [toList, iter, Entries.toList, held_map_slots, counted_iff.1 hc,
    ← filterMap_order_perm.length_eq]
  exact List.take_length

/-- A traversal lists the entries, each one time. -/
theorem toList_perm (hc : t.Counted) : t.toList.Perm t.entries :=
  toList_eq_filterMap hc ▸ filterMap_order_perm

/-- The slot in front of the start of a traversal is empty. -/
theorem exists_next_eq_start (h : t.HasGap) :
    ∃ g, g < t.capacity ∧ t.key? g = none ∧ t.next g = t.start := by
  obtain ⟨i, hi, hempty⟩ := h
  rw [not_occupied_iff] at hempty
  unfold start
  split
  · next hlast =>
    refine ⟨t.capacity - 1, by omega, hlast, ?_⟩
    rw [next, show t.capacity - 1 + 1 = t.capacity by omega, Nat.mod_self]
  · split
    · next g hg =>
      have hsome := List.find?_some hg
      exact ⟨g, List.mem_range.1 (List.mem_of_find?_eq_some hg), by simpa using hsome, rfl⟩
    · next hnone =>
      have := List.find?_eq_none.1 hnone i (List.mem_range.2 hi)
      simp [hempty] at this

end LinearProbe.Table
