import LinearProbe.Proofs.WellFormed

/-!
# Histories of a table

A table is `Reached` under a hash function if it was made for some hint and a load factor between
0 and 1, and then changed by commands that keep the contract for that function, none of which
aborted. A command is carried out with any cursor, also one that was made for another table or
before the table was resized, so a history may use as many cursors as it likes.

Each command keeps a table sound (`Sound.perform`), so every table that is reached is well-formed
(`wellFormed_of_reached`).
-/

set_option linter.unusedSectionVars false

namespace LinearProbe.Table

variable {K : Type} [BEq K] [EquivBEq K] {hash : K → UInt64} {t u : Table K} {i : Nat} {k : K}
  {v : Int32}

/-! ## One command -/

theorem Sound.eraseAt? {e? : Option (K × Int32)} (ht : t.Sound hash)
    (h : t.eraseAt? hash i = .ok e? u) : u.Sound hash := by
  cases e? with
  | none => exact (eq_of_eraseAt?_eq_none h).1 ▸ ht
  | some e => exact (erased_of_eraseAt? ht.aligned.size_values h).sound ht

theorem Sound.erase? {e? : Option (K × Int32)} (ht : t.Sound hash)
    (h : t.erase? hash (hash k) (· == k) = .ok e? u) : u.Sound hash := by
  unfold Table.erase? at h
  rcases ht.locate_cases k with ⟨i, l, hrun, -, -⟩ | ⟨i, hrun, -⟩
  · rw [indexOf?_of_locate hrun] at h
    exact ht.eraseAt? h
  · rw [indexOf?_of_locate hrun] at h
    cases h
    exact ht

theorem Sound.replace? {old? : Option Int32} (ht : t.Sound hash)
    (h : t.replace? (hash k) (· == k) v = .ok old? u) : u.Sound hash := by
  unfold Table.replace? at h
  rcases ht.locate_cases k with ⟨i, l, hrun, hl, -⟩ | ⟨i, hrun, -⟩
  · rw [indexOf?_of_locate hrun] at h
    cases h
    exact ht.writeValue hl
  · rw [indexOf?_of_locate hrun] at h
    cases h
    exact ht

theorem Sound.replaceAt? {old? : Option Int32} (ht : t.Sound hash)
    (h : t.replaceAt? i v = .ok old? u) : u.Sound hash := by
  rcases t.replaceAt?_cases i v with ⟨-, hrun⟩ | ⟨-, hrun⟩ | ⟨k, hk, hrun⟩ <;> rw [hrun] at h <;>
    cases h
  · exact ht
  · exact ht.writeValue hk

variable [Stored K]

theorem Sound.insert? {old? : Option Int32} (ht : t.Sound hash) (hh : Respects hash)
    (h : t.insert? hash (hash k) (· == k) k v = .ok old? u) : u.Sound hash := by
  unfold Table.insert? at h
  rcases ht.locate_cases k with ⟨i, l, hrun, hl, -⟩ | ⟨i, hrun, hstop⟩
  · rw [hrun] at h
    cases h
    exact ht.writeValue hl
  · rw [hrun] at h
    rcases ht.insertAt_cases (v := v) hh hstop with ⟨w, hw, hsound, -⟩ | herr
    · simp only [hw, Outcome.map, EStateM.Result.ok.injEq] at h
      exact h.2 ▸ hsound
    · simp [herr, Outcome.map] at h

theorem Sound.compact (ht : t.Sound hash) (h : t.compact hash = .ok () u) : u.Sound hash := by
  rcases eq_or_exists_of_compact_eq_ok ht.counted ht.fraction h with rfl | ⟨slots, hfits, -, hu⟩
  · exact ht
  · exact sound_of_rehashed ht.fraction ht.counted ht.distinct hfits hu

theorem Session.eq_ok_of_lift_map {α : Type} {s s' : Session K} {o : Outcome Abort (Table K) α}
    {f : α → Answer K} {r : Answer K} (h : (s.lift o).map f = .ok r s') :
    ∃ a u, o = .ok a u ∧ s' = { s with table := u } := by
  obtain ⟨a, ha, -⟩ := Outcome.exists_of_map_eq_ok h
  obtain ⟨u, hu, rfl⟩ := Outcome.exists_of_within_eq_ok ha
  exact ⟨a, u, hu, rfl⟩

/-- Erasing at a cursor leaves the table alone or erases at the index of its entry. -/
theorem Sound.eraseCursor {e? : Option (K × Int32)} {c c' : Cursor} (ht : t.Sound hash)
    (h : c.erase hash t = .ok e? (u, c')) : u.Sound hash := by
  unfold Cursor.erase at h
  split at h
  · cases h
    exact ht
  · split at h
    · cases h
    · next w hw =>
      cases h
      exact ht.eraseAt? hw
    · next w hw =>
      cases h
      exact ht.eraseAt? hw

/-- A command that keeps the contract keeps a table sound, whatever cursor it is given. -/
theorem Sound.perform {c : Command K} {s s' : Session K} {r : Answer K} (ht : s.table.Sound hash)
    (hh : Respects hash) (hc : c.IsLawful hash) (h : s.perform c = .ok r s') :
    s'.table.Sound hash := by
  cases c with
  | insert? hash' h' p k v =>
    obtain ⟨rfl, rfl, rfl⟩ := hc
    obtain ⟨a, u, ho, rfl⟩ := Session.eq_ok_of_lift_map h
    exact ht.insert? hh ho
  | replace? h' p v =>
    obtain ⟨k, rfl, rfl⟩ := hc
    obtain ⟨a, u, ho, rfl⟩ := Session.eq_ok_of_lift_map h
    exact ht.replace? ho
  | replaceAt? i v =>
    obtain ⟨a, u, ho, rfl⟩ := Session.eq_ok_of_lift_map h
    exact ht.replaceAt? ho
  | erase? hash' h' p =>
    obtain ⟨rfl, k, rfl, rfl⟩ := hc
    obtain ⟨a, u, ho, rfl⟩ := Session.eq_ok_of_lift_map h
    exact ht.erase? ho
  | eraseAt? hash' i =>
    obtain rfl : hash' = hash := hc
    obtain ⟨a, u, ho, rfl⟩ := Session.eq_ok_of_lift_map h
    exact ht.eraseAt? ho
  | compact hash' =>
    obtain rfl : hash' = hash := hc
    obtain ⟨a, u, ho, rfl⟩ := Session.eq_ok_of_lift_map h
    exact ht.compact ho
  | clear =>
    cases h
    exact ht.clear
  | drain n =>
    cases h
    exact ht.clear
  | startCursor =>
    cases h
    exact ht
  | advanceCursor =>
    cases h
    exact ht
  | eraseCursor hash' =>
    obtain rfl : hash' = hash := hc
    obtain ⟨a, ha, -⟩ := Outcome.exists_of_map_eq_ok h
    obtain ⟨⟨u, c'⟩, ho, rfl⟩ := Outcome.exists_of_within_eq_ok ha
    exact ht.eraseCursor ho

/-! ## Histories -/

/-- The tables to which lawful commands lead from a table made for some hint. -/
inductive Reached (hash : K → UInt64) : Table K → Prop
  | made {hint : UInt64} {loadFactor : Single} {t : Table K} :
      loadFactor.isFraction = true → ofHint hint loadFactor = .ok t → Reached hash t
  | changed {s s' : Session K} {c : Command K} {r : Answer K} :
      Reached hash s.table → c.IsLawful hash → s.perform c = .ok r s' → Reached hash s'.table

/-- A run of lawful commands goes on from a table that is reached to another one. -/
theorem Reached.run {cs : List (Command K)} {s s' : Session K} {rs : List (Answer K)}
    (hs : Reached hash s.table) (hcs : ∀ c ∈ cs, c.IsLawful hash) (h : s.run cs = .ok rs s') :
    Reached hash s'.table := by
  induction cs generalizing s rs with
  | nil =>
    cases h
    exact hs
  | cons c cs ih =>
    rw [Session.run] at h
    split at h
    · cases h
    · next r s₁ hc =>
      obtain ⟨rs', hrun, -⟩ := Outcome.exists_of_map_eq_ok h
      exact ih (hs.changed (hcs c List.mem_cons_self) hc)
        (fun c' hc' => hcs c' (List.mem_cons_of_mem c hc')) hrun

theorem sound_of_ofHint {hint : UInt64} {loadFactor : Single}
    (hf : loadFactor.isFraction = true) (h : ofHint hint loadFactor = .ok t) : t.Sound hash := by
  obtain ⟨c, rfl, hmin, hlt⟩ := exists_of_ofHint h
  exact sound_empty hmin hlt hf

theorem Reached.sound (hh : Respects hash) (h : Reached hash t) : t.Sound hash := by
  induction h with
  | made hf hmade => exact sound_of_ofHint hf hmade
  | changed _ hc hperform ih => exact ih.perform hh hc hperform

/-! ## Keys that collide in the last slot -/

/-- Two of three keys that collide in the last slot, after the first one was erased. -/
def wrapped : Table UInt64 :=
  ⟨#[some 3, none, none, none, none, none, none, some 2], #[30, 0, 0, 0, 0, 0, 0, 20], 2, 6,
    ⟨0x3f400000⟩⟩

theorem ofHint_eight : ofHint 8 ⟨0x3f400000⟩ =
    .ok (⟨Array.replicate 8 none, Array.replicate 8 0, 0, 6, ⟨0x3f400000⟩⟩ : Table UInt64) := by
  decide +kernel

/-- Erasing the first key moves the other two back across the end of the row. -/
theorem reached_wrapped : Reached (fun _ => 8) wrapped := by
  have hrun : (Session.mk ⟨Array.replicate 8 none, Array.replicate 8 0, 0, 6, ⟨0x3f400000⟩⟩
      ⟨0, 0, none⟩).run
      [.insert? (fun _ => 8) 8 (· == 1) (1 : UInt64) 10, .insert? (fun _ => 8) 8 (· == 2) 2 20,
        .insert? (fun _ => 8) 8 (· == 3) 3 30, .erase? (fun _ => 8) 8 (· == 1)] =
      .ok [.value? none, .value? none, .value? none, .pair? (some (1, 10))]
        ⟨wrapped, ⟨0, 0, none⟩⟩ := rfl
  refine Reached.run (.made (by decide) ofHint_eight) ?_ hrun
  simp only [List.forall_mem_cons]
  exact ⟨⟨rfl, rfl, rfl⟩, ⟨rfl, rfl, rfl⟩, ⟨rfl, rfl, rfl⟩, ⟨rfl, 1, rfl, rfl⟩,
    fun _ h => absurd h List.not_mem_nil⟩

/-! ## Well-formedness -/

/-- Every table that is reached by commands that keep the contract is well-formed. -/
theorem wellFormed_of_reached (hh : Respects hash) (h : Reached hash t) : t.WellFormed hash :=
  (h.sound hh).toWellFormed

theorem wellFormed_wrapped : Reached (fun _ => 8) wrapped ∧ wrapped.WellFormed fun _ => 8 :=
  ⟨reached_wrapped, wellFormed_of_reached (fun _ _ _ => rfl) reached_wrapped⟩

end LinearProbe.Table
