import LinearProbe.Map.Update
import LinearProbe.Proofs.Courses
import LinearProbe.Proofs.Cursors

/-!
# Walks meet every entry once

For every run of a cursor over a counted table with an empty slot there is an order of the entries
for which the run answers as the course over that list does, and leaves the entries that the course
has (`visits_each_once`). The order is known only in hindsight, since erasing may change which of
two entries ahead is met first; the runs are therefore taken from behind, by one lemma for each kind
of step (`exists_call`, `exists_take`) that finds an order before the step from one after it.

Filtering is a walk that erases what is not accepted. Each entry ahead is met once, which bounds the
steps (`exists_filterFrom`), and what is kept and the last state are those of asking for the
entries of a list one after the other (`sift`).
-/

namespace LinearProbe

open Table Cursor

variable {K : Type} {behind : List (K × Int32)} {current : Option (K × Int32)}

/-! ## Where a course has come to -/

/-- The table and the cursor over it are where the course is. -/
structure Course.Fits (r : Course K) (t : Table K) (c : Cursor) : Prop where
  follows : Follows t c r.behind r.current
  ahead : r.ahead.Perm (c.ahead t)

/-- The counted table has the entries of the course, and the cursor stands on its current entry; if
there is none, erasing answers so and leaves the table and the cursor as they are. -/
structure Course.Accords (r : Course K) (t : Table K) (c : Cursor) : Prop where
  counted : t.Counted
  entries : t.entries.Perm r.entries
  current : c.current.bind t.slot? = r.current
  idle : r.current = none → ∀ hash, c.erase hash t = .ok none (t, c)

theorem Course.Fits.accords {r : Course K} {t : Table K} {c : Cursor} (h : r.Fits t c) :
    r.Accords t c where
  counted := h.follows.counted
  entries := h.follows.entries.trans (h.ahead.symm.append_left _)
  current := h.follows.current_eq
  idle hnone _ := erase_of_none (hnone ▸ h.follows).current_eq_none

/-- An order of the entries behind the first one gives an order of all. -/
theorem exists_perm_of_tail {es' l : List (K × Int32)} (h : es'.Perm l.tail) :
    ∃ es : List (K × Int32), es.Perm l ∧ es.head? = l.head? ∧ es.tail = es' := by
  cases l with
  | nil => exact ⟨[], .refl _, rfl, (List.perm_nil.1 h).symm⟩
  | cons e l => exact ⟨e :: es', h.cons e, rfl, rfl⟩

/-! ## Cursors over a table -/

namespace Table.Session

/-- An order after a call gives one before it. -/
theorem exists_call {s : Session K} (h : Follows s.table s.cursor behind current) (a : Call K) :
    ∃ r s', s.call a = .ok r s' ∧ ∃ behind' current', Follows s'.table s'.cursor behind' current' ∧
      ∀ es', es'.Perm (s'.cursor.ahead s'.table) → ∃ es, es.Perm (s.cursor.ahead s.table) ∧
        (Course.mk behind current es).call a = (r, ⟨behind', current', es'⟩) := by
  cases a with
  | advance =>
    obtain ⟨i?, c', hadvance, hmet, -, hahead, hf⟩ := h.advance
    refine ⟨(s.cursor.ahead s.table).head?, ⟨s.table, c'⟩, ?_, _, _, hf, ?_⟩
    · rw [call, hadvance]
      simp only [hmet]
    · intro es' hes'
      obtain ⟨es, hes, hhead, rfl⟩ := exists_perm_of_tail (hahead ▸ hes')
      refine ⟨es, hes, ?_⟩
      rw [Course.call, Course.next, hhead]
  | erase hash =>
    cases current with
    | none =>
      refine ⟨none, s, ?_, behind, none, h, fun es' hes' => ⟨es', hes', rfl⟩⟩
      rw [call, erase_of_none h.current_eq_none]
      rfl
    | some e =>
      obtain ⟨i, u, c', hrun, -, hf, hperm⟩ := h.erase hash
      refine ⟨some e, ⟨u, c'⟩, ?_, behind, none, hf, fun es' hes' => ⟨es', hes'.trans hperm, rfl⟩⟩
      rw [call, hrun]
      rfl

/-- Calls of a cursor answer as those of a course over the entries ahead in some order. -/
theorem exists_callAll {s : Session K} (h : Follows s.table s.cursor behind current)
    (cs : List (Call K)) :
    ∃ es, es.Perm (s.cursor.ahead s.table) ∧ ∃ rs s' c, s.callAll cs = .ok rs s' ∧
      (Course.mk behind current es).callAll cs = (rs, c) ∧ c.Fits s'.table s'.cursor := by
  induction cs generalizing s behind current with
  | nil => exact ⟨_, .refl _, [], s, _, rfl, rfl, h, .refl _⟩
  | cons a cs ih =>
    obtain ⟨r, s', hcall, behind', current', hf, hback⟩ := exists_call h a
    obtain ⟨es', hes', rs, s'', c, hrun, hcourse, hfits⟩ := ih hf
    obtain ⟨es, hes, hfirst⟩ := hback es' hes'
    refine ⟨es, hes, r :: rs, s'', c, ?_, ?_, hfits⟩
    · rw [callAll, hcall]
      simp only [hrun, Outcome.map]
    · rw [Course.callAll, hfirst]
      simp only [hcourse]

end Table.Session

/-! ## Walks over a map -/

namespace Map

namespace Walk

/-- Without a current entry erasing is refused and changes neither the map nor the cursor. -/
theorem erase_of_none {w : Walk K} (h : w.cursor.current = none) :
    w.erase = .error (.refused .noCurrentEntry) w := by
  rw [erase, Cursor.erase_of_none h]
  rfl

theorem permit_eq {m : Map K} {v : Int32} :
    m.permit v = if v = m.missing then .error (.missingValue v) else .ok () := rfl

theorem set_of_some {w : Walk K} {v : Int32} {i : Nat} {e : K × Int32} (hv : v ≠ w.map.missing)
    (hc : w.cursor.current = some i) (he : w.map.table.slot? i = some e) :
    w.set v = .ok e.2
      ⟨{ w.map with table := w.map.table.writeValue i v }, w.cursor⟩ := by
  have hi := lt_capacity_of_key? (slot?_eq_some.1 he).1
  simp [set, permit_eq, hv, hc, replaceAt?, valueAt?, checkIndex, hi, he, Except.map, lift,
    Outcome.within]

/-- An order after a step gives one before it. -/
theorem exists_take {w : Walk K} (h : Follows w.map.table w.cursor behind current) (s : Step) :
    ∃ u c, (w.take s).state = ⟨{ w.map with table := u }, c⟩ ∧
      ∃ behind' current', Follows u c behind' current' ∧
        ∀ es', es'.Perm (c.ahead u) → ∃ es, es.Perm (w.cursor.ahead w.map.table) ∧
          ((Course.mk behind current es).take w.map.missing s).result = (w.take s).result ∧
          ((Course.mk behind current es).take w.map.missing s).state =
            ⟨behind', current', es'⟩ := by
  cases s with
  | next =>
    obtain ⟨i?, c', hadvance, hmet, -, hahead, hf⟩ := h.advance
    have hnext : w.next = ((w.cursor.ahead w.map.table).head?, ⟨w.map, c'⟩) := by
      rw [next, hadvance]
      simp only [hmet]
    refine ⟨_, _, by rw [take, hnext]; rfl, _, _, hf, ?_⟩
    intro es' hes'
    obtain ⟨es, hes, hhead, rfl⟩ := exists_perm_of_tail (hahead ▸ hes')
    refine ⟨es, hes, ?_, ?_⟩
    · rw [take, hnext, Course.take, Course.next, hhead]
      rfl
    · rw [Course.take, Course.next, hhead]
      rfl
  | current? =>
    refine ⟨_, _, rfl, _, _, h, fun es' hes' => ⟨es', hes', ?_, rfl⟩⟩
    rw [take, current?, h.current_eq]
    rfl
  | set v =>
    by_cases hv : v = w.map.missing
    · have hset : w.set v = .error (.refused (.missingValue v)) w := by
        simp [set, permit_eq, hv]
      refine ⟨_, _, by rw [take, hset]; rfl, _, _, h, ?_⟩
      intro es' hes'
      refine ⟨es', hes', ?_, ?_⟩
      · rw [take, hset, Course.take, if_pos hv]
        rfl
      · rw [Course.take, if_pos hv]
        rfl
    · cases current with
      | none =>
        have hset : w.set v = .error (.refused .noCurrentEntry) w := by
          simp [set, permit_eq, hv, h.current_eq_none]
        refine ⟨_, _, by rw [take, hset]; rfl, _, _, h, ?_⟩
        intro es' hes'
        refine ⟨es', hes', ?_, ?_⟩
        · rw [take, hset, Course.take, if_neg hv]
          rfl
        · rw [Course.take, if_neg hv]
          rfl
      | some e =>
        obtain ⟨k, old⟩ := e
        obtain ⟨i, hc, he, hf, hahead⟩ := h.write (v := v)
        have hset := set_of_some hv hc he
        refine ⟨_, _, by rw [take, hset]; rfl, _, _, hf, ?_⟩
        intro es' hes'
        refine ⟨es', hahead ▸ hes', ?_, ?_⟩
        · rw [take, hset, Course.take, if_neg hv]
          rfl
        · rw [Course.take, if_neg hv]
          rfl
  | erase =>
    cases current with
    | none =>
      have herase := erase_of_none h.current_eq_none
      refine ⟨_, _, by rw [take, herase]; rfl, _, _, h, fun es' hes' => ⟨es', hes', ?_, rfl⟩⟩
      rw [take, herase]
      rfl
    | some e =>
      obtain ⟨i, u, c', hrun, -, hf, hperm⟩ := h.erase w.map.hash
      have herase : w.erase = .ok e ⟨{ w.map with table := u }, c'⟩ := by
        rw [erase, hrun]
        rfl
      refine ⟨u, c', by rw [take, herase]; rfl, _, _, hf, fun es' hes' =>
        ⟨es', hes'.trans hperm, ?_, rfl⟩⟩
      rw [take, herase]
      rfl

/-- Steps of a walk answer as those of a course over the entries ahead in some order. -/
theorem exists_takeAll {w : Walk K} (h : Follows w.map.table w.cursor behind current)
    (ss : List Step) :
    ∃ es, es.Perm (w.cursor.ahead w.map.table) ∧ ∃ rs u c r,
      w.takeAll ss = (rs, ⟨{ w.map with table := u }, c⟩) ∧
      (Course.mk behind current es).takeAll w.map.missing ss = (rs, r) ∧ r.Fits u c := by
  induction ss generalizing w behind current with
  | nil => exact ⟨_, .refl _, [], _, _, _, rfl, rfl, h, .refl _⟩
  | cons s ss ih =>
    obtain ⟨u, c, hstate, behind', current', hf, hback⟩ := exists_take h s
    obtain ⟨es', hes', rs, u', c', r, hrun, hcourse, hfits⟩ :=
      ih (w := ⟨{ w.map with table := u }, c⟩) hf
    obtain ⟨es, hes, hresult, hstate'⟩ := hback es' hes'
    refine ⟨es, hes, (w.take s).result :: rs, u', c', r, ?_, ?_, hfits⟩
    · rw [takeAll, hstate, hrun]
    · rw [Course.takeAll, hresult, hstate']
      simp only [hcourse]

end Walk

/-! ## Filtering -/

section Filter

variable {σ : Type}

/-- The entries of a list that `p` accepts, which passes a state from entry to entry, and the last
state. -/
def sift (p : σ → K → Int32 → Bool × σ) : σ → List (K × Int32) → List (K × Int32) × σ
  | s, [] => ([], s)
  | s, (k, v) :: es =>
    let (keep, s') := p s k v
    let (kept, s'') := sift p s' es
    (if keep then (k, v) :: kept else kept, s'')

/-- Without a state the accepted entries are a filtered list. -/
theorem sift_pure (p : K → Int32 → Bool) (es : List (K × Int32)) :
    sift (fun _ k v => (p k v, ())) () es = (es.filter fun e => p e.1 e.2, ()) := by
  induction es with
  | nil => rfl
  | cons e es ih => simp only [sift, ih, List.filter_cons]

/-- With a step for each entry ahead and one more, filtering asks for each of them in some order.
What erasing an entry keeps true of the table is true in the end. -/
theorem exists_filterFrom {P : Table K → Prop} {m : Map K}
    (hP : ∀ t i e u, P t → Erased m.hash t i e u → P u) (p : σ → K → Int32 → Bool × σ) {n : Nat}
    {c : Cursor} (s : σ) (h : Follows m.table c behind current)
    (hn : (c.ahead m.table).length < n) (hm : P m.table) :
    ∃ es u, es.Perm (c.ahead m.table) ∧
      filterFrom p n m c s = .ok (sift p s es).2 { m with table := u } ∧ u.Counted ∧ P u ∧
      u.entries.Perm (behind ++ current.toList ++ (sift p s es).1) := by
  induction n generalizing m c s behind current with
  | zero => omega
  | succ n ih =>
    obtain ⟨i?, c', hadvance, hmet, hcurrent, hahead, hf⟩ := h.advance
    rw [filterFrom, hadvance]
    cases hnext : c.ahead m.table with
    | nil =>
      rw [hnext] at hf
      obtain rfl : i? = none := hcurrent.symm.trans hf.current_eq_none
      refine ⟨[], m.table, .refl _, rfl, h.counted, hm, ?_⟩
      simpa [hnext, sift] using h.entries
    | cons e rest =>
      obtain ⟨k, v⟩ := e
      rw [hnext] at hmet hahead hf hn
      rw [List.head?_cons] at hmet hf
      rw [List.tail_cons] at hahead
      rw [List.length_cons] at hn
      obtain ⟨i, rfl, he⟩ := Option.bind_eq_some_iff.1 hmet
      simp only [he]
      rcases hasked : p s k v with ⟨_ | _, s'⟩
      · obtain ⟨j, u, c'', herase, hu, hf', hperm⟩ := hf.erase m.hash
        obtain ⟨es, u', hes, hrun, hcounted, hu', hentries⟩ :=
          ih (m := { m with table := u }) hP s' hf'
            (by rw [hperm.length_eq, hahead]; omega) (hP _ _ _ _ hm hu)
        refine ⟨(k, v) :: es, u', ?_, ?_, hcounted, hu', ?_⟩
        · exact (hes.trans (hperm.trans (.of_eq hahead))).cons _
        · simpa [herase, sift, hasked] using hrun
        · simpa [sift, hasked] using hentries
      · obtain ⟨es, u, hes, hrun, hcounted, hu, hentries⟩ :=
          ih hP s' hf (by rw [hahead]; omega) hm
        refine ⟨(k, v) :: es, u, ?_, ?_, hcounted, hu, ?_⟩
        · exact (hes.trans (.of_eq hahead)).cons _
        · simpa [sift, hasked] using hrun
        · simpa [sift, hasked] using hentries

/-- Filtering asks for each entry in some order. -/
theorem exists_filterWith {P : Table K → Prop} {m : Map K}
    (hP : ∀ t i e u, P t → Erased m.hash t i e u → P u) (p : σ → K → Int32 → Bool × σ) (s : σ)
    (hs : m.table.values.size = m.table.capacity) (hc : m.table.Counted) (hg : m.table.HasGap)
    (hm : P m.table) :
    ∃ es u, es.Perm m.table.entries ∧
      m.filterWith p s = .ok (sift p s es).2 { m with table := u } ∧ u.Counted ∧ P u ∧
      u.entries.Perm (sift p s es).1 := by
  have hf := Follows.new hs hc hg
  have hahead : m.table.entries.Perm ((Cursor.new m.table).ahead m.table) := hf.entries
  have hle := length_entries_le (t := m.table)
  obtain ⟨es, u, hes, hrun, hcounted, hu, hentries⟩ :=
    exists_filterFrom hP p s hf (n := 2 * m.capacity + 1)
      (by rw [← hahead.length_eq, capacity]; omega) hm
  exact ⟨es, u, hes.trans hahead.symm, hrun, hcounted, hu, hentries⟩

end Filter

/-! ## Every entry once -/

/-- Over a counted table with an empty slot, whatever hash functions are used to erase, every run of
a cursor, every run of a walk and every filtering are those over a list of the entries in some
order: they answer the same and leave the same entries. The entries moved to are those of the list
from the first on, and all of them once there is no next one. -/
theorem visits_each_once (m : Map K) (hs : m.table.values.size = m.table.capacity)
    (hc : m.table.Counted) (hg : m.table.HasGap) :
    (∀ cs : List (Session.Call K), ∃ es, es.Perm m.table.entries ∧ ∃ rs s r,
      (Session.new m.table).callAll cs = .ok rs s ∧ (Course.start es).callAll cs = (rs, r) ∧
      r.Accords s.table s.cursor ∧ Session.met cs rs ++ r.ahead = es ∧
      ((.advance, none) ∈ cs.zip rs → Session.met cs rs = es)) ∧
    (∀ ss : List Walk.Step, ∃ es, es.Perm m.table.entries ∧ ∃ rs u c r,
      m.walk.takeAll ss = (rs, ⟨{ m with table := u }, c⟩) ∧
      (Course.start es).takeAll m.missing ss = (rs, r) ∧ r.Accords u c ∧
      (r.current = none → Walk.erase ⟨{ m with table := u }, c⟩ =
        .error (.refused .noCurrentEntry) ⟨{ m with table := u }, c⟩) ∧
      Walk.met ss rs ++ r.ahead = es ∧
      ((.next, .ok (.pair? none)) ∈ ss.zip rs → Walk.met ss rs = es)) ∧
    (∀ (σ : Type) (p : σ → K → Int32 → Bool × σ) (s : σ), ∃ es, es.Perm m.table.entries ∧ ∃ u,
      m.filterWith p s = .ok (sift p s es).2 { m with table := u } ∧ u.Counted ∧
      u.entries.Perm (sift p s es).1) := by
  have hf := Follows.new hs hc hg
  have hahead : m.table.entries.Perm ((Cursor.new m.table).ahead m.table) := hf.entries
  refine ⟨?_, ?_, ?_⟩
  · intro cs
    obtain ⟨es, hes, rs, s, r, hrun, hcourse, hfits⟩ :=
      Session.exists_callAll (s := Session.new m.table) hf cs
    have hmet := Course.met_callAll (c := Course.start es) cs
    have hall := Course.ahead_callAll (c := Course.start es) cs
    rw [Course.start, hcourse] at hmet hall
    refine ⟨es, hes.trans hahead.symm, rs, s, r, hrun, hcourse, hfits.accords, hmet, ?_⟩
    intro hnone
    rwa [hall hnone, List.append_nil] at hmet
  · intro ss
    obtain ⟨es, hes, rs, u, c, r, hrun, hcourse, hfits⟩ :=
      Walk.exists_takeAll (w := m.walk) hf ss
    have hmet := Course.met_takeAll (c := Course.start es) m.missing ss
    have hall := Course.ahead_takeAll (c := Course.start es) m.missing ss
    rw [Course.start] at hmet hall
    rw [show m.missing = m.walk.map.missing from rfl, hcourse] at hmet hall
    refine ⟨es, hes.trans hahead.symm, rs, u, c, r, hrun, hcourse, hfits.accords, ?_,
      hmet, ?_⟩
    · intro hnone
      exact Walk.erase_of_none (hnone ▸ hfits.follows).current_eq_none
    · intro hnone
      rwa [hall hnone, List.append_nil] at hmet
  · intro σ p s
    obtain ⟨es, u, hes, hrun, hcounted, -, hentries⟩ :=
      exists_filterWith (P := fun _ => True) (fun _ _ _ _ _ _ => trivial) p s hs hc hg trivial
    exact ⟨es, hes, u, hrun, hcounted, hentries⟩

/-- Three entries that no hash function has put where they are. -/
def scattered : Map UInt64 where
  table := ⟨#[some 7, none, none, some 5, none, none, none, some 6],
    #[70, 0, 0, 50, 0, 0, 0, 60], 3, 6, ⟨0x3f400000⟩⟩
  hash := fun _ => 6
  missing := -1

theorem visits_each_once_scattered :
    scattered.table.values.size = scattered.table.capacity ∧ scattered.table.Counted ∧
    scattered.table.HasGap ∧
    ∃ es, es.Perm [(7, 70), (5, 50), (6, 60)] ∧ ∃ rs u c r,
      scattered.walk.takeAll [.erase, .next, .erase, .erase, .next, .set 9, .next, .next] =
        (rs, ⟨{ scattered with table := u }, c⟩) ∧
      (Course.start es).takeAll (-1)
        [.erase, .next, .erase, .erase, .next, .set 9, .next, .next] = (rs, r) ∧
      r.Accords u c := by
  have hs : scattered.table.values.size = scattered.table.capacity := by decide
  have hc : scattered.table.Counted := by unfold Table.Counted; decide
  have hg : scattered.table.HasGap := ⟨1, by decide, not_occupied_iff.2 (by decide)⟩
  obtain ⟨es, hes, rs, u, c, r, hrun, hcourse, haccords, -⟩ :=
    (visits_each_once scattered hs hc hg).2.1
      [.erase, .next, .erase, .erase, .next, .set 9, .next, .next]
  exact ⟨hs, hc, hg, es, hes, rs, u, c, r, hrun, hcourse, haccords⟩

end Map

end LinearProbe
