import LinearProbe.Proofs.Agreement
import LinearProbe.Proofs.Extensionality

/-!
# Looking up after a change

What a dictionary has for a key after the value of some key was set, or after a key was erased,
depends only on what it had for this key, and on whether the two keys are equal
(`Dictionary.find?_set`, `Dictionary.find?_erase`). A map that was reached without overflows
represents the dictionary of the entries it lists (`Map.represents_of_reached`), so what is true of
dictionaries can be said of the look-ups of such a map.
-/

set_option linter.unusedSectionVars false

namespace LinearProbe

namespace Dictionary

variable {K : Type} [BEq K] [EquivBEq K] {d : Dictionary K} {k k' : K} {v : Int32} {e : K × Int32}

theorem beq_of_find? (h : d.find? k = some e) : (e.1 == k) = true :=
  List.find?_some (p := fun e : K × Int32 => e.1 == k) h

theorem find?_congr (hk : (k == k') = true) : d.find? k = d.find? k' := by
  simp only [find?, BEq.congr_right hk]

/-- A key that is set stays the key that it was set with first. -/
theorem find?_set : (d.set k v).find? k' =
    if k == k' then some (((d.find? k).getD (k, v)).1, v) else d.find? k' := by
  cases hfind : d.find? k with
  | none =>
    have hset : (d.set k v).find? k' = (d.find? k').or ([(k, v)].find? fun e => e.1 == k') := by
      simp only [set, hfind]
      exact List.find?_append
    rw [hset]
    by_cases hk : k == k'
    · simp [← find?_congr hk, hfind, hk]
    · simp [hk]
  | some e =>
    have hset : (d.set k v).find? k' =
        (d.find? k').map fun e => if e.1 == k then (e.1, v) else e := by
      have hkey : ∀ x : K × Int32, ((if x.1 == k then (x.1, v) else x).1 == k') = (x.1 == k') := by
        intro x
        split <;> rfl
      simp only [set, hfind]
      rw [find?, List.find?_map]
      simp only [Function.comp_def, hkey]
      rfl
    rw [hset]
    by_cases hk : k == k'
    · simp [← find?_congr hk, hfind, hk, beq_of_find? hfind]
    · cases hfind' : d.find? k' with
      | none => simp [hk]
      | some e' =>
        have hne : ¬(e'.1 == k) = true := fun h =>
          hk (BEq.trans (BEq.symm h) (beq_of_find? hfind'))
        simp [hk, hne]

theorem find?_erase : (d.erase k).find? k' = if k == k' then none else d.find? k' := by
  simp only [erase, filter, find?, List.find?_filter]
  by_cases hk : k == k'
  · simp [hk, BEq.congr_right hk]
  · rw [if_neg hk]
    congr 1
    funext e
    by_cases he : e.1 == k'
    · have hne : ¬(e.1 == k) = true := fun h => hk (BEq.trans (BEq.symm h) he)
      simp [he, hne]
    · simp [he]

end Dictionary

namespace Map

variable {K : Type} [BEq K] {hash : K → UInt64} {m : Map K} {d : Dictionary K} {k : K}
  {e : K × Int32} {n : Nat}

variable [EquivBEq K]

/-- Of entries with unequal keys the one with a given key is found. -/
theorem Unequal.find?_eq_some_iff {es : List (K × Int32)} (hes : Unequal es) :
    (es.find? fun e => e.1 == k) = some e ↔ e ∈ es ∧ (e.1 == k) = true := by
  constructor
  · intro hfind
    exact ⟨List.mem_of_find?_eq_some hfind,
      List.find?_some (p := fun e : K × Int32 => e.1 == k) hfind⟩
  · rintro ⟨he, hk⟩
    induction es with
    | nil => cases he
    | cons x es ih =>
      obtain ⟨hx, hes⟩ := List.pairwise_cons.1 hes
      rcases List.mem_cons.1 he with rfl | hmem
      · rw [List.find?_cons, hk]
      · have hxk : (x.1 == k) = false := by
          rw [← hx e hmem]
          exact (BEq.congr_right hk).symm
        rw [List.find?_cons, hxk]
        exact ih hes hmem

theorem Represents.unequal (h : Represents hash m d) : Unequal d.entries :=
  (h.entries.pairwise_iff fun hxy => by rwa [BEq.comm]).1 (Table.distinct_iff.1 h.sound.distinct)

theorem Represents.find?_of_slot? {i : Nat} (h : Represents hash m d)
    (he : m.table.slot? i = some e) : d.find? e.1 = some e :=
  h.unequal.find?_eq_some_iff.2 ⟨h.entries.mem_iff.1 (Table.mem_entries.2 ⟨i, he⟩), BEq.rfl⟩

omit [EquivBEq K]

variable [Stored K]

/-- No entry of a map that was reached has the missing value. -/
theorem Reached.storable (h : Reached hash n m) : ∀ e ∈ m.table.entries, e.2 ≠ m.missing := by
  obtain ⟨m₀, missing, as, hnew, rfl, -⟩ := h
  obtain ⟨-, c, loadFactor, htable, hmin, hlt, hf⟩ := exists_of_new hnew
  have hentries : m₀.table.entries = [] := htable ▸ Table.entries_empty _ _
  obtain ⟨u, hstate, hstorable, -⟩ := actAll_rule (P := fun t => ∀ e ∈ t.entries, e.2 ≠ m₀.missing)
    (fun _ _ _ _ ht hp h => h.forall_storable ht hp) (htable ▸ Table.intact_empty hmin hlt hf)
    (by simp [hentries]) as
  rw [hstate]
  exact hstorable

/-- A map that was reached without overflows represents the dictionary of the entries it lists. -/
theorem represents_of_reached [EquivBEq K] (h : Reached hash 0 m) (hh : Respects hash) :
    Represents hash m ⟨m.toList, m.missing⟩ := by
  obtain ⟨hhash, hintact, harranged⟩ := h.arranged
  have hperm : m.toList.Perm m.table.entries := Table.toList_perm hintact.counted
  exact ⟨hhash, rfl, (harranged hh).sound hintact, hperm.symm,
    fun e he => h.storable e (hperm.mem_iff.1 he)⟩

end Map

end LinearProbe
