import LinearProbe.Dictionary
import LinearProbe.Proofs.WellFormed

/-!
# Maps that represent dictionaries

A map represents a dictionary (`Map.Represents`) if its table is sound, its entries are those of the
dictionary up to order, and no value stands for absence. Then every key is in one of two situations,
the same on both sides (`Represents.cases`) : the probe stops at the slot with an entry that the
dictionary has for the key (`Dictionary.Holds`), or at an empty slot and the dictionary has none
(`Dictionary.Lacks`). So look-ups agree (`Represents.get?`, `Represents.getPair?`,
`Represents.contains`), and overwriting, erasing and inserting lead to a map that represents the
changed dictionary.
-/

set_option linter.unusedSectionVars false

namespace LinearProbe

/-! ## Dictionaries -/

namespace Dictionary

variable {K : Type} [BEq K] {d : Dictionary K} {k : K} {v : Int32} {e : K × Int32}
  {rest : List (K × Int32)}

/-- The dictionary has the entry `e` for the key, and the entries `rest` besides. -/
structure Holds (d : Dictionary K) (k : K) (e : K × Int32) (rest : List (K × Int32)) : Prop where
  perm : d.entries.Perm (e :: rest)
  beq : (e.1 == k) = true
  others : ∀ x ∈ rest, (x.1 == k) = false

/-- The dictionary has no entry for the key. -/
def Lacks (d : Dictionary K) (k : K) : Prop :=
  ∀ x ∈ d.entries, (x.1 == k) = false

namespace Holds

theorem find? (h : d.Holds k e rest) : d.find? k = some e := by
  cases hfind : d.find? k with
  | none =>
    have := List.find?_eq_none.1 hfind e (h.perm.mem_iff.2 List.mem_cons_self)
    exact absurd h.beq this
  | some x =>
    have hx : (x.1 == k) = true :=
      List.find?_some (p := fun x : K × Int32 => x.1 == k) hfind
    rcases List.mem_cons.1 (h.perm.mem_iff.1 (List.mem_of_find?_eq_some hfind)) with rfl | hmem
    · rfl
    · simp [h.others x hmem] at hx

theorem get? (h : d.Holds k e rest) : d.get? k = some e.2 := by
  rw [Dictionary.get?, h.find?, Option.map_some]

/-- An entry that is overwritten keeps its key. -/
theorem entries_set (h : d.Holds k e rest) : (d.set k v).entries.Perm ((e.1, v) :: rest) := by
  have hrest : (rest.map fun x => if x.1 == k then (x.1, v) else x) = rest := by
    refine (List.map_congr_left fun x hx => ?_).trans (List.map_id rest)
    rw [h.others x hx]
    rfl
  have hperm := h.perm.map fun x => if x.1 == k then (x.1, v) else x
  rw [List.map_cons, h.beq, if_pos rfl, hrest] at hperm
  simpa only [set, h.find?] using hperm

theorem entries_erase (h : d.Holds k e rest) : (d.erase k).entries.Perm rest := by
  have hrest : (rest.filter fun x => !(x.1 == k)) = rest := by
    rw [List.filter_eq_self]
    intro x hx
    rw [h.others x hx]
    rfl
  have hperm := h.perm.filter fun x => !(x.1 == k)
  rwa [List.filter_cons, h.beq, if_neg (by simp), hrest] at hperm

end Holds

namespace Lacks

theorem find? (h : d.Lacks k) : d.find? k = none :=
  List.find?_eq_none.2 fun x hx => by simp [h x hx]

theorem get? (h : d.Lacks k) : d.get? k = none := by
  rw [Dictionary.get?, h.find?, Option.map_none]

theorem entries_set (h : d.Lacks k) : (d.set k v).entries = d.entries ++ [(k, v)] := by
  simp only [set, h.find?]

theorem erase (h : d.Lacks k) : d.erase k = d := by
  have hfilter : (d.entries.filter fun x => !(x.1 == k)) = d.entries :=
    List.filter_eq_self.2 fun x hx => by simp [h x hx]
  rw [Dictionary.erase, filter, hfilter]

end Lacks

theorem missing_set : (d.set k v).missing = d.missing := by
  unfold set
  split <;> rfl

theorem map_permitting {α β : Type} {o : Outcome Failure (Dictionary K) α} (f : α → β) :
    (d.permitting v o).map f = d.permitting v (o.map f) := by
  unfold permitting
  split <;> rfl

end Dictionary

/-! ## Representation -/

namespace Map

variable {K : Type} [BEq K] [EquivBEq K] {hash : K → UInt64} {m : Map K} {d : Dictionary K}
  {k : K} {v : Int32} {i : Nat} {e : K × Int32}

/-- The map hashes with `hash`, its table is sound, and it has the entries of the dictionary and the
same missing value, which none of them has. -/
structure Represents (hash : K → UInt64) (m : Map K) (d : Dictionary K) : Prop where
  hash_eq : m.hash = hash
  missing_eq : d.missing = m.missing
  sound : m.table.Sound hash
  entries : m.table.entries.Perm d.entries
  storable : ∀ x ∈ d.entries, x.2 ≠ d.missing

namespace Represents

/-- The probe for a key stops at the entry that the dictionary has for it, or where it would go. -/
theorem cases (h : Represents hash m d) (hh : Respects hash) (k : K) :
    (∃ i e, m.table.locate (m.hash k) (· == k) = .ok (.held i) ∧ m.table.slot? i = some e ∧
      d.Holds k e (m.table.vacate i).entries) ∨
    ∃ i, m.table.locate (m.hash k) (· == k) = .ok (.free i) ∧
      m.table.StopsAt (· == k) (m.table.home (hash k)) (.free i) ∧ d.Lacks k := by
  rw [h.hash_eq]
  rcases h.sound.locate_cases k with ⟨i, l, hrun, hl, hlk⟩ | ⟨i, hrun, hstop⟩
  · obtain ⟨hperm, hothers⟩ := h.sound.distinct.entries_perm hl hlk
    exact Or.inl ⟨i, _, hrun, Table.slot?_eq_some.2 ⟨hl, rfl⟩, h.entries.symm.trans hperm, hlk,
      hothers⟩
  · refine Or.inr ⟨i, hrun, hstop, ?_⟩
    intro x hx
    obtain ⟨j, hj⟩ := Table.mem_entries.1 (h.entries.mem_iff.2 hx)
    exact hstop.not_beq hh h.sound.reachable (Table.slot?_eq_some.1 hj).1

/-! ## Looking up -/

theorem getPair? (h : Represents hash m d) (hh : Respects hash) (k : K) :
    m.getPair? k = .ok (d.find? k) := by
  rcases h.cases hh k with ⟨i, e, hrun, he, hd⟩ | ⟨i, hrun, -, hd⟩
  · rw [hd.find?, Map.getPair?, Table.find?, Table.indexOf?_of_locate hrun]
    exact congrArg _ he
  · rw [hd.find?, Map.getPair?, Table.find?, Table.indexOf?_of_locate hrun]
    rfl

theorem get? (h : Represents hash m d) (hh : Respects hash) (k : K) :
    m.get? k = .ok (d.get? k) := by
  rcases h.cases hh k with ⟨i, e, hrun, he, hd⟩ | ⟨i, hrun, -, hd⟩
  · rw [hd.get?, ← (Table.slot?_eq_some.1 he).2, Map.get?, Table.get?,
      Table.indexOf?_of_locate hrun]
    rfl
  · rw [hd.get?, Map.get?, Table.get?, Table.indexOf?_of_locate hrun]
    rfl

theorem getD (h : Represents hash m d) (hh : Respects hash) (k : K) (v : Int32) :
    m.getD k v = .ok ((d.get? k).getD v) := by
  rw [Map.getD, h.get? hh]
  rfl

theorem contains (h : Represents hash m d) (hh : Respects hash) (k : K) :
    m.contains k = .ok (d.find? k).isSome := by
  rcases h.cases hh k with ⟨i, e, hrun, he, hd⟩ | ⟨i, hrun, -, hd⟩
  · rw [hd.find?, Map.contains, Table.indexOf?_of_locate hrun]
    rfl
  · rw [hd.find?, Map.contains, Table.indexOf?_of_locate hrun]
    rfl

theorem toList (h : Represents hash m d) : m.toList.Perm d.entries :=
  (Table.toList_perm h.sound.counted).trans h.entries

theorem size (h : Represents hash m d) : m.size = d.entries.length :=
  (Table.counted_iff.1 h.sound.counted).trans h.entries.length_eq

theorem containsValue (h : Represents hash m d) (v : Int32) :
    m.containsValue v = d.entries.any fun x => x.2 = v := by
  rw [← h.toList.any_eq, Map.containsValue, Table.containsValue]
  by_cases hv : v = m.missing
  · rw [show decide (v ≠ m.missing) = false by simpa using hv, Bool.false_and, eq_comm,
      List.any_eq_false]
    intro x hx
    have := h.storable x (h.toList.mem_iff.1 hx)
    rw [h.missing_eq, ← hv] at this
    simpa using this
  · simp [hv, Map.toList]

/-! ## Changing one entry -/

/-- The value of the entry for a key overwritten. -/
theorem writeValue (h : Represents hash m d) (he : m.table.slot? i = some e)
    (hd : d.Holds k e (m.table.vacate i).entries) (hv : v ≠ d.missing) :
    Represents hash { m with table := m.table.writeValue i v } (d.set k v) where
  hash_eq := h.hash_eq
  missing_eq := Dictionary.missing_set.trans h.missing_eq
  sound := h.sound.writeValue (Table.slot?_eq_some.1 he).1
  entries := (Table.entries_writeValue_perm h.sound.aligned.size_values
    (Table.slot?_eq_some.1 he).1).trans hd.entries_set.symm
  storable x hx := by
    rw [Dictionary.missing_set]
    rcases List.mem_cons.1 (hd.entries_set.mem_iff.1 hx) with rfl | hmem
    · exact hv
    · exact h.storable x (hd.perm.mem_iff.2 (List.mem_cons_of_mem _ hmem))

/-- The entry for a key erased. -/
theorem eraseAt? (h : Represents hash m d) (he : m.table.slot? i = some e)
    (hd : d.Holds k e (m.table.vacate i).entries) :
    ∃ u, m.table.eraseAt? m.hash i = .ok (some e) u ∧
      Represents hash { m with table := u } (d.erase k) := by
  obtain ⟨u, hrun, hu⟩ := Table.exists_eraseAt? hash h.sound.aligned.size_values he
  refine ⟨u, h.hash_eq ▸ hrun, h.hash_eq, h.missing_eq, hu.sound h.sound, ?_, ?_⟩
  · have hvacate := Table.entries_perm_vacate he
    exact (hu.entries.symm.trans hvacate).cons_inv.trans hd.entries_erase.symm
  · intro x hx
    exact h.storable x (List.mem_of_mem_filter hx)

/-- An entry inserted for a key that has none, unless that would need too many slots. -/
theorem insertAt [Stored K] (h : Represents hash m d) (hh : Respects hash)
    (hstop : m.table.StopsAt (· == k) (m.table.home (hash k)) (.free i)) (hd : d.Lacks k)
    (hv : v ≠ d.missing) :
    (∃ u, m.table.insertAt m.hash i k v = .ok () u ∧
      Represents hash { m with table := u } (d.set k v)) ∨
    ∃ u, m.table.insertAt m.hash i k v = .error .capacityOverflow u := by
  rcases h.sound.insertAt_cases (v := v) hh hstop with ⟨u, hrun, hsound, hperm⟩ | hrun
  · refine Or.inl ⟨u, h.hash_eq ▸ hrun, h.hash_eq, Dictionary.missing_set.trans h.missing_eq,
      hsound, ?_, ?_⟩
    · rw [hd.entries_set]
      exact hperm.trans ((h.entries.cons _).trans (List.perm_append_singleton _ _).symm)
    · intro x hx
      rw [hd.entries_set] at hx
      rw [Dictionary.missing_set]
      rcases List.mem_append.1 hx with hmem | hmem
      · exact h.storable x hmem
      · rw [List.mem_singleton.1 hmem]
        exact hv
  · exact Or.inr ⟨_, h.hash_eq ▸ hrun⟩

end Represents

end Map

end LinearProbe
