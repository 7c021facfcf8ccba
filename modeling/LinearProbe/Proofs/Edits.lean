import LinearProbe.Proofs.WellFormed
import Mathlib.Logic.Relation

/-!
# Edits

There are few ways in which a table is ever changed : an `Edit` writes a value over that of an entry
or inserts an absent key where the probe for it stopped, erases an entry, compacts or clears. What
each of them keeps, any number of them keep (`Edits.rule`) : a table stays intact but for one
entry too many with each insert that overflows (`Edit.intact`), only values that may be stored are
in it (`Edit.forall_storable`), and under a hash function that respects equality it stays arranged
(`Edit.arranged`).

Most operations bring in no entry and leave the row of slots as it is. They are edits that only
write, erase or clear (`Trims`).

`Edited` says of an outcome that it left a table changed by edits, and that no more of them
overflowed than the outcome reports.
-/

set_option linter.unusedSectionVars false

namespace LinearProbe.Table

variable {K : Type} {hash : K → UInt64} {storable : Int32 → Prop} {t u w : Table K}
  {i n m slack : Nat} {k : K} {v : Int32} {c : Cursor}

/-! ## Changes that bring in no entry -/

/-- A change of the table `t` by which no entry is inserted or moved to another row. -/
inductive Trim (hash : K → UInt64) (storable : Int32 → Prop) (t : Table K) : Table K → Prop
  | write {i : Nat} {k : K} {v : Int32} (hk : t.key? i = some k) (hv : storable v) :
      Trim hash storable t (t.writeValue i v)
  | erase {i : Nat} : Trim hash storable t (t.eraseAt? hash i).state
  | clear : Trim hash storable t t.clear

/-- Such changes one after the other. -/
def Trims (hash : K → UInt64) (storable : Int32 → Prop) : Table K → Table K → Prop :=
  Relation.ReflTransGen (Trim hash storable)

theorem Trim.single (h : Trim hash storable t u) : Trims hash storable t u :=
  Relation.ReflTransGen.single h

theorem Trims.refl : Trims hash storable t t :=
  Relation.ReflTransGen.refl

theorem Trims.trans (h : Trims hash storable t u) (h' : Trims hash storable u w) :
    Trims hash storable t w :=
  Relation.ReflTransGen.trans h h'

theorem trims_replace? {h : UInt64} {p : K → Bool} (hv : storable v) :
    Trims hash storable t (t.replace? h p v).state := by
  unfold replace?
  split
  · exact .refl
  · exact .refl
  · next i hrun =>
    obtain ⟨l, hl⟩ := exists_of_indexOf? hrun
    exact (Trim.write hl hv).single

theorem trims_replaceAt? (hv : storable v) :
    Trims hash storable t (t.replaceAt? i v).state := by
  rcases t.replaceAt?_cases i v with ⟨-, hrun⟩ | ⟨-, hrun⟩ | ⟨k, hk, hrun⟩ <;> rw [hrun]
  · exact .refl
  · exact .refl
  · exact (Trim.write hk hv).single

theorem trims_erase? {h : UInt64} {p : K → Bool} :
    Trims hash storable t (t.erase? hash h p).state := by
  unfold erase?
  split
  · exact .refl
  · exact .refl
  · exact Trim.erase.single

/-- Erasing at a cursor is erasing at an index, if it stands on an entry. -/
theorem trims_eraseCursor : Trims hash storable t (c.erase hash t).state.1 := by
  unfold Cursor.erase
  split
  · exact .refl
  · next i _ =>
    have htrims := (Trim.erase (i := i) : Trim hash storable t _).single
    split <;> next hrun => rwa [hrun] at htrims

/-! ## Edits of a table -/

variable [BEq K] [Stored K]

/-- A change of the table `t`, in which so many inserts overflow. -/
inductive Edit (hash : K → UInt64) (storable : Int32 → Prop) (t : Table K) : Nat → Table K → Prop
  | write {i : Nat} {k : K} {v : Int32} (hk : t.key? i = some k) (hv : storable v) :
      Edit hash storable t 0 (t.writeValue i v)
  | insert {i : Nat} {k : K} {v : Int32}
      (hstop : t.StopsAt (· == k) (t.home (hash k)) (.free i)) (hv : storable v) :
      Edit hash storable t ((t.insertAt hash i k v).failsWith .capacityOverflow)
        (t.insertAt hash i k v).state
  | erase {i : Nat} : Edit hash storable t 0 (t.eraseAt? hash i).state
  | compact : Edit hash storable t 0 (t.compact hash).state
  | clear : Edit hash storable t 0 t.clear

/-- Edits one after the other, with the number of inserts that overflow. -/
inductive Edits (hash : K → UInt64) (storable : Int32 → Prop) : Table K → Nat → Table K → Prop
  | refl {t : Table K} : Edits hash storable t 0 t
  | step {t u w : Table K} {n m : Nat} (h : Edit hash storable t n u)
      (hs : Edits hash storable u m w) : Edits hash storable t (n + m) w

theorem Edit.single (h : Edit hash storable t n u) : Edits hash storable t n u :=
  .step h .refl

theorem Edits.trans (h : Edits hash storable t n u) (h' : Edits hash storable u m w) :
    Edits hash storable t (n + m) w := by
  induction h with
  | refl => rwa [Nat.zero_add]
  | step h _ ih =>
    rw [Nat.add_assoc]
    exact .step h (ih h')

theorem Trim.edit (h : Trim hash storable t u) : Edit hash storable t 0 u := by
  cases h with
  | write hk hv => exact .write hk hv
  | erase => exact .erase
  | clear => exact .clear

theorem Trims.edits (h : Trims hash storable t u) : Edits hash storable t 0 u := by
  induction h with
  | refl => exact .refl
  | tail _ h ih => exact ih.trans h.edit.single

/-! ## What edits keep -/

/-- An edit leaves one entry too many at most, and only if an insert overflows. -/
theorem Edit.intact (h : Edit hash storable t n u) (ht : t.Intact slack) :
    u.Intact (slack + n) := by
  cases h with
  | write hk hv => exact ht.writeValue
  | @insert i k v hstop hv =>
    rcases ht.insertAt hstop.2.1 hstop.2.2 hash k v with ⟨u, hrun, hu, -⟩ | hrun <;> rw [hrun]
    · exact hu
    · exact ht.store hstop.2.1 hstop.2.2 (Nat.lt_succ_of_le ht.size_le)
  | @erase i =>
    rcases eraseAt?_cases ht.aligned.size_values hash i with
      ⟨-, hrun⟩ | ⟨-, hrun⟩ | ⟨e, u, hrun, hu⟩ <;> rw [hrun]
    · exact ht
    · exact ht
    · exact hu.toRemoved.intact ht
  | compact =>
    rcases ht.compact hash with ⟨u, hrun, hu, -⟩ | hrun <;> rw [hrun]
    · exact hu
    · exact ht
  | clear => exact ht.clear

/-- What each edit of an intact table keeps, all edits keep. -/
theorem Edits.rule {P : Table K → Prop}
    (hP : ∀ slack t n u, t.Intact slack → P t → Edit hash storable t n u → P u)
    (h : Edits hash storable t n u) (ht : t.Intact slack) (hp : P t) :
    u.Intact (slack + n) ∧ P u := by
  induction h generalizing slack with
  | refl => exact ⟨ht, hp⟩
  | step h _ ih =>
    rw [← Nat.add_assoc]
    exact ih (h.intact ht) (hP _ _ _ _ ht hp h)

/-- The values that edits bring in may be stored. -/
theorem Edit.forall_storable (h : Edit hash storable t n u) (ht : t.Intact slack)
    (hv : ∀ e ∈ t.entries, storable e.2) : ∀ e ∈ u.entries, storable e.2 := by
  have hperm : ∀ {u : Table K} {es : List (K × Int32)}, u.entries.Perm es →
      (∀ e ∈ es, storable e.2) → ∀ e ∈ u.entries, storable e.2 :=
    fun hu hes e he => hes e (hu.mem_iff.1 he)
  cases h with
  | @write i k v hk hnew =>
    have hslot : t.slot? i = some (k, t.value i) := slot?_eq_some.2 ⟨hk, rfl⟩
    refine hperm (entries_writeValue_perm ht.aligned.size_values hk)
      (List.forall_mem_cons.2 ⟨hnew, fun e he => hv e ?_⟩)
    exact (entries_perm_vacate hslot).mem_iff.2 (List.mem_cons_of_mem _ he)
  | @insert i k v hstop hnew =>
    have hcons : ∀ e ∈ (k, v) :: t.entries, storable e.2 := List.forall_mem_cons.2 ⟨hnew, hv⟩
    rcases ht.insertAt hstop.2.1 hstop.2.2 hash k v with ⟨u, hrun, -, hu⟩ | hrun <;> rw [hrun]
    · exact hperm hu hcons
    · exact hperm (entries_store_perm ht.aligned.size_values hstop.2.1 hstop.2.2) hcons
  | @erase i =>
    rcases eraseAt?_cases ht.aligned.size_values hash i with
      ⟨-, hrun⟩ | ⟨-, hrun⟩ | ⟨e, u, hrun, hu⟩ <;> rw [hrun]
    · exact hv
    · exact hv
    · exact fun e' he => hv e' (hu.entries.mem_iff.2 (List.mem_cons_of_mem _ he))
  | compact =>
    rcases ht.compact hash with ⟨u, hrun, -, hu⟩ | hrun <;> rw [hrun]
    · exact hperm hu hv
    · exact hv
  | clear => exact hperm (.of_eq entries_clear) (by simp)

/-- Under a hash function that respects equality edits keep entries in their places. -/
theorem Edit.arranged [EquivBEq K] (h : Edit hash storable t n u) (ht : t.Intact slack)
    (hh : Respects hash) (ha : t.Arranged hash) : u.Arranged hash := by
  cases h with
  | write hk hv => exact ha.writeValue ht.aligned.size_values hk
  | insert hstop hv => exact ha.insertAt ht hh hstop
  | @erase i =>
    rcases eraseAt?_cases ht.aligned.size_values hash i with
      ⟨-, hrun⟩ | ⟨-, hrun⟩ | ⟨e, u, hrun, hu⟩ <;> rw [hrun]
    · exact ha
    · exact ha
    · exact hu.arranged ha
  | compact =>
    rcases compact_cases hash ht.counted ht.fraction with ⟨u, hrun, rfl | ⟨slots, -, hu⟩⟩ | hrun <;>
      rw [hrun]
    · exact ha
    · exact arranged_of_rehashed ha.distinct hu
    · exact ha
  | clear => exact Arranged.clear

/-! ## Operations that edit -/

/-- The outcome left a table that was changed by edits, of which no more overflowed than the outcome
says. -/
def Edited (hash : K → UInt64) (storable : Int32 → Prop) (t : Table K) {α : Type}
    (o : Outcome Abort (Table K) α) : Prop :=
  ∃ n, Edits hash storable t n o.state ∧ n ≤ o.failsWith .capacityOverflow

namespace Edited

variable {α β : Type} {o : Outcome Abort (Table K) α}

theorem of_edit (h : Edit hash storable t 0 o.state) : Edited hash storable t o :=
  ⟨0, h.single, Nat.zero_le _⟩

theorem of_state_eq (h : o.state = t) : Edited hash storable t o :=
  ⟨0, h ▸ .refl, Nat.zero_le _⟩

theorem map (h : Edited hash storable t o) (f : α → β) : Edited hash storable t (o.map f) := by
  obtain ⟨n, hedits, hn⟩ := h
  exact ⟨n, by rwa [Outcome.state_map], by rwa [Outcome.failsWith_map]⟩

end Edited

theorem edited_insertAt (hv : storable v)
    (hrun : t.locate (hash k) (· == k) = .ok (.free i)) :
    Edited hash storable t (t.insertAt hash i k v) :=
  ⟨_, (Edit.insert (stopsAt_of_locate hrun) hv).single, Nat.le_refl _⟩

theorem edited_insert? (hv : storable v) :
    Edited hash storable t (t.insert? hash (hash k) (· == k) k v) := by
  unfold insert?
  split
  · exact .of_state_eq rfl
  · next i hrun =>
    obtain ⟨-, l, hl, -⟩ := stopsAt_of_locate hrun
    exact .of_edit (.write hl hv)
  · next i hrun => exact (edited_insertAt hv hrun).map _

end LinearProbe.Table
