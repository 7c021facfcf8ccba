import LinearProbe.Map.Rewriting
import LinearProbe.Proofs.MissingValue
import LinearProbe.Proofs.Traversals
import LinearProbe.Proofs.Walks

/-!
# Rewriting is replacing

A loop that overwrites values as it goes writes into slots, and replacing the value of a key probes
for it. What a loop is going to do is a list of `Map.Draft`s, one for each entry that it is asked to
overwrite. Rewriting one entry changes nothing about those in other slots (`stopsIn_apply`), so the
loops make the drafts of the entries that were there at the start, in order (`rewriteVisits_eq`,
`Walk.rewrite_eq`). In a map whose entries are in their places the probe for the key of a draft
stops at its slot (`Draft.Found`), so that calls with the same keys make the same drafts
(`performAll_replace?`), and as no two of them are about one slot their order does not matter
(`foldl_apply_perm`). `rewrites_as_replacing` puts these together.
-/

set_option linter.unusedSectionVars false

namespace LinearProbe

namespace Table

variable {K : Type} {t : Table K} {i j : Nat} {v w : Int32} {is : List Nat}

/-! ## Overwriting in any order -/

theorem slot?_writeValue_of_ne (h : i ≠ j) : (t.writeValue i v).slot? j = t.slot? j := by
  refine slot?_congr key?_writeValue ?_
  simp [value, writeValue, Array.getD_eq_getD_getElem?, h]

/-- A value that is overwritten in a slot that is not among the stops changes none of them. -/
theorem stopsIn_writeValue (h : ∀ e, (i, e) ∉ t.stopsIn is) :
    (t.writeValue i v).stopsIn is = t.stopsIn is := by
  refine List.filterMap_congr fun j hj => ?_
  rcases eq_or_ne i j with rfl | hij
  · have hnone : t.slot? i = none := by
      refine Option.eq_none_iff_forall_not_mem.2 fun e he => h e ?_
      exact List.mem_filterMap.2 ⟨i, hj, by simp [Option.mem_def.1 he]⟩
    have hnone' : (t.writeValue i v).slot? i = none :=
      slot?_eq_none.2 (key?_writeValue.trans (slot?_eq_none.1 hnone))
    rw [hnone, hnone']
  · rw [slot?_writeValue_of_ne hij]

/-- No slot is a stop twice. -/
theorem nodup_stops : (t.stops.map Prod.fst).Nodup := by
  rw [map_fst_stops]
  exact nodup_order.filter _

theorem writeValue_comm (h : i ≠ j) :
    (t.writeValue i v).writeValue j w = (t.writeValue j w).writeValue i v := by
  simp only [writeValue, Array.setIfInBounds_comm _ _ h]

end Table

theorem Visits.stopsIn_of_next?_eq_some {K : Type} {t : Table K} {it it' : Visits} {i : Nat}
    (h : it.next? t = some (i, it')) (hleft : it.left = (t.stopsIn it.slots).length) :
    ∃ e, t.slot? i = some e ∧ t.stopsIn it.slots = (i, e) :: t.stopsIn it'.slots ∧
      it'.left = (t.stopsIn it'.slots).length := by
  rcases next?_cases hleft with ⟨hnone, -⟩ | ⟨j, e, it'', hsome, he, hstops, hleft'⟩
  · rw [hnone] at h
    cases h
  · obtain ⟨rfl, rfl⟩ : j = i ∧ it'' = it' := by simpa [hsome] using h
    exact ⟨e, he, hstops, hleft'⟩

namespace Map

variable {K : Type} {m : Map K} {g : K → Int32 → Option Int32} {i : Nat} {k : K} {old v : Int32}
  {stops : List (Nat × K × Int32)}

/-! ## Drafts -/

/-- A rewriting before it is made: the slot of an entry, the entry, and the value it is to have. -/
structure Draft (K : Type) where
  slot : Nat
  key : K
  old : Int32
  value : Int32

/-- What `g` asks for of the entries in some slots. -/
def drafts (g : K → Int32 → Option Int32) (stops : List (Nat × K × Int32)) : List (Draft K) :=
  stops.filterMap fun (i, k, old) => (g k old).map fun v => ⟨i, k, old, v⟩

namespace Draft

/-- What the call answers that makes the rewriting. -/
def answer (missing : Int32) (d : Draft K) : Except Failure Int32 :=
  if d.value = missing then .error (.refused (.missingValue d.value)) else .ok d.old

/-- The rewriting when it has been made. -/
def made (missing : Int32) (d : Draft K) : Rewriting K :=
  ⟨d.key, d.value, d.answer missing⟩

end Draft

/-- The value of the slot overwritten, unless that is with the missing value. -/
def apply (m : Map K) (d : Draft K) : Map K :=
  if d.value = m.missing then m else { m with table := m.table.writeValue d.slot d.value }

/-- The rewritings made one after the other. -/
def applyAll (m : Map K) (ds : List (Draft K)) : List (Rewriting K) × Map K :=
  (ds.map (Draft.made m.missing), ds.foldl apply m)

theorem drafts_cons_of_none (h : g k old = none) :
    drafts g ((i, k, old) :: stops) = drafts g stops := by
  simp [drafts, h]

theorem drafts_cons_of_some (h : g k old = some v) :
    drafts g ((i, k, old) :: stops) = ⟨i, k, old, v⟩ :: drafts g stops := by
  simp [drafts, h]

theorem missing_apply {d : Draft K} : (m.apply d).missing = m.missing := by
  unfold apply
  split <;> rfl

theorem applyAll_cons {d : Draft K} {ds : List (Draft K)} :
    m.applyAll (d :: ds) =
      (d.made m.missing :: ((m.apply d).applyAll ds).1, ((m.apply d).applyAll ds).2) := by
  rw [applyAll, applyAll, missing_apply]
  rfl

/-- Rewriting an entry changes nothing about those in other slots. -/
theorem stopsIn_apply {d : Draft K} {is : List Nat}
    (hd : d.slot ∉ (m.table.stopsIn is).map Prod.fst) :
    (m.apply d).table.stopsIn is = m.table.stopsIn is := by
  unfold apply
  split
  · rfl
  · exact Table.stopsIn_writeValue fun e he => hd (List.mem_map.2 ⟨_, he, rfl⟩)

theorem stopsAhead_apply {d : Draft K} {c : Cursor}
    (hd : d.slot ∉ (c.stopsAhead m.table).map Prod.fst) :
    c.stopsAhead (m.apply d).table = c.stopsAhead m.table := by
  have hcycle : (m.apply d).table.cycle c.start = m.table.cycle c.start := by
    unfold apply
    split <;> rfl
  rw [Cursor.stopsAhead, hcycle]
  exact stopsIn_apply hd

/-! ## The loops -/

/-- A visit makes the rewriting of the entry that it is at. -/
theorem setAt_eq (he : m.table.slot? i = some (k, old)) :
    (m.setAt i v).result = (⟨i, k, old, v⟩ : Draft K).answer m.missing ∧
      (m.setAt i v).state = m.apply ⟨i, k, old, v⟩ := by
  have hold : m.table.value i = old := (Table.slot?_eq_some.1 he).2
  unfold setAt permitting permit apply Draft.answer
  by_cases hv : v = m.missing
  · simp only [if_pos hv]
    exact ⟨rfl, rfl⟩
  · simp only [if_neg hv, hold]
    exact ⟨rfl, rfl⟩

/-- A walk makes the rewriting of the entry that its cursor stands on. -/
theorem Walk.set_eq {w : Walk K} (hc : w.cursor.current = some i)
    (he : w.map.table.slot? i = some (k, old)) :
    (w.set v).result = (⟨i, k, old, v⟩ : Draft K).answer w.map.missing ∧
      (w.set v).state = ⟨w.map.apply ⟨i, k, old, v⟩, w.cursor⟩ := by
  unfold apply Draft.answer
  by_cases hv : v = w.map.missing
  · rw [Walk.set, permit, if_pos hv]
    simp only [if_pos hv]
    exact ⟨rfl, rfl⟩
  · rw [Walk.set_of_some hv hc he]
    simp only [if_neg hv]
    exact ⟨rfl, rfl⟩

/-- A loop of visits makes the rewritings asked for of the entries ahead. -/
theorem rewriteVisits_eq {it : Visits} (hleft : it.left = (m.table.stopsIn it.slots).length)
    (hd : ((m.table.stopsIn it.slots).map Prod.fst).Nodup) :
    m.rewriteVisits g it = m.applyAll (drafts g (m.table.stopsIn it.slots)) := by
  fun_induction rewriteVisits g m it with
  | case1 m it hnext =>
    rcases Visits.next?_cases hleft with ⟨-, hstops⟩ | ⟨i, e, it', hsome, -⟩
    · rw [hstops]
      rfl
    · rw [hsome] at hnext
      cases hnext
  | case2 m it i it' hnext hask ih =>
    obtain ⟨⟨k, old⟩, he, hstops, hleft'⟩ := Visits.stopsIn_of_next?_eq_some hnext hleft
    rw [hstops, List.map_cons, List.nodup_cons] at hd
    have hg : g k old = none := by simpa [he] using hask
    rw [hstops, drafts_cons_of_none hg]
    exact ih hleft' hd.2
  | case3 m it i it' hnext k v hask o rs m' hrest ih =>
    obtain ⟨⟨k', old⟩, he, hstops, hleft'⟩ := Visits.stopsIn_of_next?_eq_some hnext hleft
    rw [hstops, List.map_cons, List.nodup_cons] at hd
    obtain ⟨hg, rfl⟩ : g k' old = some v ∧ k' = k := by simpa [he] using hask
    obtain ⟨hresult, hstate⟩ := setAt_eq (v := v) he
    -- the value is written behind the iterator, so the stops ahead are those that they were
    have hahead := stopsIn_apply (d := ⟨i, k', old, v⟩) hd.1
    rw [hrest, hstate, hahead] at ih
    rw [hstops, drafts_cons_of_some hg, applyAll_cons, ← ih hleft' hd.2, Draft.made, ← hresult]

/-- A walk that goes on comes to the first of the entries ahead, unless there is none. -/
theorem Walk.next_cases (w : Walk K) :
    (∃ w', w.next = (none, w') ∧ w'.map = w.map ∧ w.cursor.stopsAhead w.map.table = []) ∨
      ∃ i e w', w.next = (some e, w') ∧ w'.map = w.map ∧ w'.cursor.current = some i ∧
        w.map.table.slot? i = some e ∧
        w.cursor.stopsAhead w.map.table = (i, e) :: w'.cursor.stopsAhead w.map.table := by
  have hcurrent : (w.cursor.advance w.map.table).2.current = (w.cursor.advance w.map.table).1 := by
    unfold Cursor.advance
    split <;> rfl
  unfold Walk.next
  rcases Cursor.advance_cases w.map.table w.cursor with ⟨c', hrun, hstops, -⟩ |
    ⟨i, e, c', hrun, he, hstops⟩
  · exact Or.inl ⟨⟨w.map, c'⟩, by rw [hrun]; rfl, rfl, hstops⟩
  · rw [hrun] at hcurrent
    exact Or.inr ⟨i, e, ⟨w.map, c'⟩, by rw [hrun]; simp [he], rfl, hcurrent, he, hstops⟩

theorem Walk.stopsAhead_of_next_eq_some {w w' : Walk K} {e : K × Int32}
    (h : w.next = (some e, w')) :
    ∃ i, w'.map = w.map ∧ w'.cursor.current = some i ∧ w.map.table.slot? i = some e ∧
      w.cursor.stopsAhead w.map.table = (i, e) :: w'.cursor.stopsAhead w.map.table := by
  rcases Walk.next_cases w with ⟨w'', hnone, -⟩ | ⟨i, e', w'', hsome, hw⟩
  · rw [hnone] at h
    cases h
  · obtain ⟨rfl, rfl⟩ : e' = e ∧ w'' = w' := by simpa [hsome] using h
    exact ⟨i, hw⟩

/-- A walk makes the rewritings asked for of the entries ahead. -/
theorem Walk.rewrite_eq {w : Walk K} (hd : ((w.cursor.stopsAhead w.map.table).map Prod.fst).Nodup) :
    w.rewrite g = w.map.applyAll (drafts g (w.cursor.stopsAhead w.map.table)) := by
  fun_induction Walk.rewrite g w with
  | case1 w w' hnext =>
    rcases Walk.next_cases w with ⟨w'', hnone, hmap, hstops⟩ | ⟨i, e, w'', hsome, -⟩
    · obtain rfl : w'' = w' := by simpa [hnone] using hnext
      rw [hstops, hmap]
      rfl
    · rw [hsome] at hnext
      cases hnext
  | case2 w k old w' hnext hg ih =>
    obtain ⟨i, hmap, -, -, hstops⟩ := Walk.stopsAhead_of_next_eq_some hnext
    rw [hstops, List.map_cons, List.nodup_cons] at hd
    rw [hmap] at ih
    rw [hstops, drafts_cons_of_none hg]
    exact ih hd.2
  | case3 w k old w' hnext v hg o rs m' hrest ih =>
    obtain ⟨i, hmap, hcurrent, he, hstops⟩ := Walk.stopsAhead_of_next_eq_some hnext
    rw [hstops, List.map_cons, List.nodup_cons] at hd
    rw [← hmap] at he
    obtain ⟨hresult, hstate⟩ := Walk.set_eq (v := v) hcurrent he
    rw [hmap] at hresult hstate
    have hahead := stopsAhead_apply (d := ⟨i, k, old, v⟩) hd.1
    rw [hrest, hstate] at ih
    dsimp only at ih
    rw [hahead] at ih
    rw [hstops, drafts_cons_of_some hg, applyAll_cons, ← ih hd.2, Draft.made, ← hresult]

/-! ## What a run of rewritings leaves -/

section Order

variable {d d' : Draft K} {ds ds' : List (Draft K)}

theorem apply_comm (h : d.slot ≠ d'.slot) : (m.apply d).apply d' = (m.apply d').apply d := by
  unfold apply
  by_cases hv : d.value = m.missing <;> by_cases hv' : d'.value = m.missing
  · simp only [if_pos hv, if_pos hv']
  · simp only [if_pos hv, if_neg hv']
  · simp only [if_neg hv, if_pos hv']
  · simp only [if_neg hv, if_neg hv', Table.writeValue_comm h]

theorem slot?_apply_of_ne (h : d.slot ≠ i) :
    (m.apply d).table.slot? i = m.table.slot? i := by
  unfold apply
  split
  · rfl
  · exact Table.slot?_writeValue_of_ne h

/-- Rewritings change values and nothing else. -/
theorem exists_foldl_apply (m : Map K) (ds : List (Draft K)) :
    ∃ values, ds.foldl apply m = { m with table := { m.table with values := values } } := by
  induction ds generalizing m with
  | nil => exact ⟨_, rfl⟩
  | cons d ds ih =>
    obtain ⟨values, h⟩ := ih (m.apply d)
    refine ⟨values, h.trans ?_⟩
    unfold apply
    split <;> rfl

theorem slot?_foldl_apply_of_forall_ne (h : ∀ d ∈ ds, d.slot ≠ i) :
    (ds.foldl apply m).table.slot? i = m.table.slot? i := by
  induction ds generalizing m with
  | nil => rfl
  | cons d ds ih =>
    rw [List.foldl_cons, ih fun d' hd' => h d' (List.mem_cons_of_mem _ hd'),
      slot?_apply_of_ne (h d List.mem_cons_self)]

/-- Of rewritings in unequal slots each changes its own. -/
theorem slot?_foldl_apply_of_mem (hd : (ds.map Draft.slot).Nodup) (h : d ∈ ds) :
    (ds.foldl apply m).table.slot? d.slot = (m.apply d).table.slot? d.slot := by
  induction ds generalizing m with
  | nil => cases h
  | cons d' ds ih =>
    rw [List.map_cons, List.nodup_cons] at hd
    rw [List.foldl_cons]
    rcases List.mem_cons.1 h with rfl | hmem
    · refine slot?_foldl_apply_of_forall_ne fun x hx hslot => hd.1 ?_
      exact hslot ▸ List.mem_map_of_mem hx
    · have hne : d'.slot ≠ d.slot := fun hslot => hd.1 (hslot ▸ List.mem_map_of_mem hmem)
      rw [ih hd.2 hmem, apply_comm hne, slot?_apply_of_ne hne]

/-- Rewritings in unequal slots can be made in any order. -/
theorem foldl_apply_perm (hd : (ds.map Draft.slot).Nodup) (h : ds'.Perm ds) :
    ds'.foldl apply m = ds.foldl apply m := by
  refine h.foldl_eq' (fun d hmem d' hmem' m => ?_) m
  by_cases heq : d = d'
  · rw [heq]
  · refine apply_comm fun hslot => heq ?_
    exact List.inj_on_of_nodup_map hd (h.subset hmem) (h.subset hmem') hslot

end Order

/-! ## Replacing -/

section Replace

variable [BEq K]

/-- The probe for the key of a draft stops at its slot, where its entry is. -/
def Draft.Found (m : Map K) (d : Draft K) : Prop :=
  m.table.locate (m.hash d.key) (· == d.key) = .ok (.held d.slot) ∧
    m.table.slot? d.slot = some (d.key, d.old)

variable {d d' : Draft K} {ds ds' : List (Draft K)}

theorem Draft.Found.apply (h : d.Found m) (hne : d'.slot ≠ d.slot) : d.Found (m.apply d') := by
  obtain ⟨hrun, he⟩ := h
  refine ⟨?_, (slot?_apply_of_ne hne).trans he⟩
  rw [← hrun]
  unfold Map.apply
  split
  · rfl
  · exact Table.locate_congr Table.capacity_writeValue (fun _ => Table.key?_writeValue)
      fun _ _ _ => rfl

theorem get?_of_found (h : d.Found m) : m.get? d.key = .ok (some d.old) := by
  obtain ⟨hrun, he⟩ := h
  have hold : m.table.value d.slot = d.old := (Table.slot?_eq_some.1 he).2
  rw [get?, Table.get?, Table.indexOf?_of_locate hrun, ← hold]
  rfl

theorem replace?_of_found (h : d.Found m) :
    (m.replace? d.key d.value).result = (d.answer m.missing).map some ∧
      (m.replace? d.key d.value).state = m.apply d := by
  obtain ⟨hrun, he⟩ := h
  have hold : m.table.value d.slot = d.old := (Table.slot?_eq_some.1 he).2
  unfold replace? permitting permit Map.apply Draft.answer
  by_cases hv : d.value = m.missing
  · simp only [if_pos hv]
    exact ⟨rfl, rfl⟩
  · simp only [if_neg hv, Table.replace?, Table.indexOf?_of_locate hrun, hold, Spot.held?]
    exact ⟨rfl, rfl⟩

/-- Calls that replace the values are answered as the rewritings are. -/
theorem performAll_replace? [Stored K] (hd : (ds.map Draft.slot).Nodup) (h : ∀ d ∈ ds, d.Found m) :
    m.performAll (ds.map fun d => .replace? d.key d.value) =
      (ds.map fun d => (d.answer m.missing).map fun old => .value? (some old),
        ds.foldl apply m) := by
  induction ds generalizing m with
  | nil => rfl
  | cons d ds ih =>
    rw [List.map_cons, List.nodup_cons] at hd
    obtain ⟨hresult, hstate⟩ := replace?_of_found (h d List.mem_cons_self)
    have hfirst : (m.perform (.replace? d.key d.value)).result =
        (d.answer m.missing).map fun old => .value? (some old) := by
      rw [perform, Outcome.result_map, hresult]
      cases d.answer m.missing <;> rfl
    have hrest := ih hd.2 fun d' hd' => (h d' (List.mem_cons_of_mem _ hd')).apply
      fun hslot => hd.1 (hslot ▸ List.mem_map_of_mem hd')
    have hafter : (m.perform (.replace? d.key d.value)).state = m.apply d := by
      rw [perform, Outcome.state_map, hstate]
    rw [missing_apply] at hrest
    rw [List.map_cons, performAll, hfirst, hafter, hrest]
    rfl

end Replace

/-! ## Rewriting a reached map -/

/-- An entry after it was rewritten as `g` says. -/
def revised (g : K → Int32 → Option Int32) (missing : Int32) (e : K × Int32) : K × Int32 :=
  match g e.1 e.2 with
  | none => e
  | some v => if v = missing then e else (e.1, v)

theorem mem_drafts {d : Draft K} : d ∈ drafts g stops ↔
    (d.slot, d.key, d.old) ∈ stops ∧ g d.key d.old = some d.value := by
  constructor
  · intro h
    obtain ⟨⟨i, k, old⟩, hmem, hask⟩ := List.mem_filterMap.1 h
    obtain ⟨v, hg, rfl⟩ := Option.map_eq_some_iff.1 hask
    exact ⟨hmem, hg⟩
  · rintro ⟨hmem, hg⟩
    exact List.mem_filterMap.2 ⟨_, hmem, by simp [hg]⟩

theorem nodup_drafts (hd : (stops.map Prod.fst).Nodup) :
    ((drafts g stops).map Draft.slot).Nodup := by
  induction stops with
  | nil => exact .nil
  | cons stop stops ih =>
    obtain ⟨i, k, old⟩ := stop
    rw [List.map_cons, List.nodup_cons] at hd
    cases hg : g k old with
    | none =>
      rw [drafts_cons_of_none hg]
      exact ih hd.2
    | some v =>
      rw [drafts_cons_of_some hg, List.map_cons, List.nodup_cons]
      refine ⟨fun hmem => hd.1 ?_, ih hd.2⟩
      obtain ⟨d, hdraft, hslot⟩ := List.mem_map.1 hmem
      exact List.mem_map.2 ⟨_, (mem_drafts.1 hdraft).1, hslot⟩

/-- Rewriting what `g` asks for changes each entry as `g` says, and leaves it in its slot. -/
theorem slot?_foldl_apply_drafts (hs : m.table.values.size = m.table.capacity) (i : Nat) :
    ((drafts g m.table.stops).foldl apply m).table.slot? i =
      (m.table.slot? i).map (revised g m.missing) := by
  by_cases hask : ∃ d ∈ drafts g m.table.stops, d.slot = i
  · obtain ⟨d, hmem, rfl⟩ := hask
    obtain ⟨hstop, hg⟩ := mem_drafts.1 hmem
    have he := Table.mem_stops.1 hstop
    have hk := (Table.slot?_eq_some.1 he).1
    rw [slot?_foldl_apply_of_mem (nodup_drafts Table.nodup_stops) hmem, he, apply]
    simp only [Option.map_some, revised, hg]
    split
    · exact he
    · rw [Table.slot?_writeValue hs (Table.lt_capacity_of_key? hk), if_pos rfl, hk]
      rfl
  · rw [slot?_foldl_apply_of_forall_ne fun d hmem hslot => hask ⟨d, hmem, hslot⟩]
    cases he : m.table.slot? i with
    | none => rfl
    | some e =>
      have hg : g e.1 e.2 = none := Option.eq_none_iff_forall_not_mem.2 fun v hv =>
        hask ⟨⟨i, e.1, e.2, v⟩, mem_drafts.2 ⟨Table.mem_stops.2 he, hv⟩, rfl⟩
      simp [revised, hg]

section Reached

variable [BEq K] [EquivBEq K] [Stored K] {hash : K → UInt64} {n : Nat}

/-- Going over a reached map by visits or by a walk, and overwriting the values of its entries as
`g` says, or of those for which it says anything, makes one call for each of these entries. Each is
answered as replacing the value of its key is: with the value that a look-up finds, or by the
refusal of the missing value. Replacing the same values key by key, in any order, ends in the same
map. In it every entry is in its slot, its value is as `g` says, and nothing else has changed. -/
theorem rewrites_as_replacing (h : Reached hash n m) (hh : Respects hash)
    (g : K → Int32 → Option Int32) :
    ∃ rs m', m.rewriteVisits g m.visits = (rs, m') ∧ m.walk.rewrite g = (rs, m') ∧
      rs.map (fun r => (r.key, r.value)) = m.toList.filterMap (fun e => (g e.1 e.2).map (e.1, ·)) ∧
      (∀ r ∈ rs, (∃ old, m.get? r.key = .ok (some old) ∧ g r.key old = some r.value ∧ r.result =
          if r.value = m.missing then .error (.refused (.missingValue r.value)) else .ok old) ∧
        (m.replace? r.key r.value).result = r.result.map some) ∧
      (∀ rs' : List (Rewriting K), rs'.Perm rs →
        m.performAll (rs'.map fun r => .replace? r.key r.value) =
          (rs'.map fun r => r.result.map fun old => .value? (some old), m')) ∧
      m' = { m with table := { m.table with values := m'.table.values } } ∧
      ∀ i, m'.table.slot? i = (m.table.slot? i).map (revised g m.missing) := by
  obtain ⟨rfl, hintact, harranged⟩ := h.arranged
  have ha := harranged hh
  have hslots : ((drafts g m.table.stops).map Draft.slot).Nodup := nodup_drafts Table.nodup_stops
  have hfound : ∀ d ∈ drafts g m.table.stops, d.Found m := by
    intro d hd
    have he := Table.mem_stops.1 (mem_drafts.1 hd).1
    exact ⟨ha.locate_held (Table.slot?_eq_some.1 he).1, he⟩
  have hvisits : m.rewriteVisits g m.visits = m.applyAll (drafts g m.table.stops) :=
    rewriteVisits_eq (Table.length_stops hintact.counted).symm Table.nodup_stops
  have hwalk : m.walk.rewrite g = m.applyAll (drafts g m.table.stops) :=
    Walk.rewrite_eq Table.nodup_stops
  refine ⟨_, _, hvisits, hwalk, ?_, ?_, ?_, ?_,
    slot?_foldl_apply_drafts hintact.aligned.size_values⟩
  · have hlist := Table.toList_eq_filterMap hintact.counted
    rw [← Table.map_snd_stops] at hlist
    rw [show m.toList = _ from hlist]
    simp [drafts, List.map_filterMap, List.filterMap_map, Draft.made, Function.comp_def]
  · intro r hr
    obtain ⟨d, hd, rfl⟩ := List.mem_map.1 hr
    exact ⟨⟨d.old, get?_of_found (hfound d hd), (mem_drafts.1 hd).2, rfl⟩,
      (replace?_of_found (hfound d hd)).1⟩
  · intro rs' hrs'
    obtain ⟨ds, rfl, hds⟩ :=
      (congrFun₂ (List.eq_map_comp_perm (Draft.made m.missing)) rs' _).mpr hrs'
    have hds' : (ds.map Draft.slot).Nodup := ((hds.map Draft.slot).nodup_iff).2 hslots
    have hrun := performAll_replace? hds' fun d hd => hfound d (hds.subset hd)
    rw [foldl_apply_perm hslots hds] at hrun
    rw [List.map_map, List.map_map]
    exact hrun
  · obtain ⟨values, heq⟩ := exists_foldl_apply m (drafts g m.table.stops)
    rw [heq]

end Reached

/-- Four entries that lie around the end of the row. -/
def around : Map Tagged :=
  ((empty (-1) fun _ => 8).actAll [.command (.insertMany
    [(⟨8, 1, 0⟩, 10), (⟨8, 2, 0⟩, 20), (⟨8, 3, 0⟩, 30), (⟨8, 4, 0⟩, 40), (⟨8, 2, 5⟩, 21)])]).2

/-- One value is to become the missing value, one is passed over, and the others are doubled. -/
def doubled (k : Tagged) (old : Int32) : Option Int32 :=
  if k.id = 1 then some (-1) else if k.id = 3 then none else some (2 * old)

/-- Replacing goes backwards here. -/
theorem rewrites_as_replacing_around :
    Reached (fun _ => 8) 0 around ∧ Respects (fun _ : Tagged => (8 : UInt64)) ∧
    ∃ rs m', around.rewriteVisits doubled around.visits = (rs, m') ∧
      around.walk.rewrite doubled = (rs, m') ∧
      rs.map (fun r => (r.key, r.value)) = [(⟨8, 1, 0⟩, -1), (⟨8, 2, 0⟩, 42), (⟨8, 4, 0⟩, 80)] ∧
      (∀ r ∈ rs, (around.replace? r.key r.value).result = r.result.map some) ∧
      around.performAll (rs.reverse.map fun r => .replace? r.key r.value) =
        (rs.reverse.map fun r => r.result.map fun old => .value? (some old), m') ∧
      m'.table.slot? 7 = some (⟨8, 1, 0⟩, 10) ∧ m'.table.slot? 0 = some (⟨8, 2, 0⟩, 42) ∧
      m'.table.slot? 1 = some (⟨8, 3, 0⟩, 30) ∧ m'.table.slot? 2 = some (⟨8, 4, 0⟩, 80) := by
  have hreached : Reached (fun _ => 8) 0 around :=
    ⟨_, _, _, Or.inl rfl, rfl, by decide +kernel⟩
  have hh : Respects (fun _ : Tagged => (8 : UInt64)) := fun _ _ _ => rfl
  obtain ⟨rs, m', hvisits, hwalk, hcalls, hone, hall, -, hslots⟩ :=
    rewrites_as_replacing hreached hh doubled
  refine ⟨hreached, hh, rs, m', hvisits, hwalk, hcalls.trans (by decide +kernel),
    fun r hr => (hone r hr).2, hall _ rs.reverse_perm, ?_, ?_, ?_, ?_⟩
  · exact (hslots 7).trans (by decide +kernel)
  · exact (hslots 0).trans (by decide +kernel)
  · exact (hslots 1).trans (by decide +kernel)
  · exact (hslots 2).trans (by decide +kernel)

end Map

end LinearProbe
