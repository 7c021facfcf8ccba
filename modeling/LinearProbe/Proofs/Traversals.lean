import LinearProbe.Map.Reading
import LinearProbe.Proofs.Cursors
import Mathlib.Data.List.Rotate

/-!
# Traversals agree

The slots of a row can be put in the order of a traversal in two ways : by counting on from its
start around the row, and by splitting both rows at the start and putting what is behind it first
(`Table.cycle_eq_rotate`). Iterators and visits go through a list of slots and count down the
entries, cursors count up the slots; all of them stop at the same slots (`Table.stops`), one after
the other.

What a reader will still yield is a list of items (`Reader.items`). Moving it on takes the first of
them (`Reader.next_listing`), so readers of one map, whatever calls are made on which of them, are
told apart from those lists by nothing (`Reading.Simulates.run`, `Map.traversals_agree`).
-/

namespace LinearProbe

namespace Table

variable {K : Type} {t : Table K} {i s : Nat} {e : K × Int32} {is : List Nat}

/-! ## Stops -/

/-- The entries in some slots, each with its slot. -/
def stopsIn (t : Table K) (is : List Nat) : List (Nat × K × Int32) :=
  is.filterMap fun i => (t.slot? i).map (i, ·)

theorem stopsIn_cons_of_none (h : t.slot? i = none) : t.stopsIn (i :: is) = t.stopsIn is := by
  simp [stopsIn, h]

theorem stopsIn_cons_of_some (h : t.slot? i = some e) :
    t.stopsIn (i :: is) = (i, e) :: t.stopsIn is := by
  simp [stopsIn, h]

theorem map_snd_stops : t.stops.map Prod.snd = t.order.filterMap t.slot? := by
  simp [stops, List.map_filterMap, Function.comp_def]

theorem map_fst_stops :
    t.stops.map Prod.fst = t.order.filter fun i => (t.key? i).isSome := by
  simp only [stops, List.map_filterMap, ← List.filterMap_eq_filter]
  refine List.filterMap_congr fun i _ => ?_
  rw [Option.guard_apply, ← isSome_slot?]
  cases t.slot? i <;> rfl

theorem mem_stops : (i, e) ∈ t.stops ↔ t.slot? i = some e := by
  simp only [stops, List.mem_filterMap, Option.map_eq_some_iff, Prod.mk.injEq, mem_order]
  constructor
  · rintro ⟨j, -, e', he, rfl, rfl⟩
    exact he
  · intro he
    exact ⟨i, lt_capacity_of_key? (slot?_eq_some.1 he).1, e, he, rfl, rfl⟩

theorem length_stops (hc : t.Counted) : t.stops.length = t.size := by
  rw [← List.length_map Prod.snd, map_snd_stops, filterMap_order_perm.length_eq, counted_iff.1 hc]

/-! ## The order of a traversal -/

theorem cycle_eq_rotate : t.cycle s = (List.range t.capacity).rotate s := by
  refine List.ext_getElem (by simp [cycle]) fun d hd _ => ?_
  simp [cycle, List.getElem_rotate, Nat.add_comm]

/-- An iterator goes through the part of the rows behind the start, and then through the part in
front of it. -/
theorem slots_iter (hs : t.values.size = t.capacity) :
    t.iter.slots = (t.keys.toList.zip t.values.toList).drop t.start ++
      (t.keys.toList.zip t.values.toList).take t.start := by
  have hle : t.start ≤ (List.range t.capacity).length := by
    rw [List.length_range]
    rcases Nat.eq_zero_or_pos t.capacity with h0 | hpos
    · simp [start, h0, key?_of_capacity_le]
    · exact Nat.le_of_lt (start_lt hpos)
  rw [zip_rows hs, ← List.map_drop, ← List.map_take, ← List.map_append,
    ← List.rotate_eq_drop_append_take hle, ← cycle_eq_rotate]
  rfl

end Table

/-! ## The next stop -/

open Table (stopsIn stopsIn_cons_of_none stopsIn_cons_of_some)

variable {K : Type} {t : Table K} {i : Nat}

namespace Visits

theorem stopsIn_of_seek_eq_none {is : List Nat} (h : seek t is = none) : t.stopsIn is = [] := by
  induction is with
  | nil => rfl
  | cons j is ih =>
    rw [seek] at h
    split at h
    · cases h
    · next hj => rw [stopsIn_cons_of_none (by simpa [Table.slot?] using hj), ih h]

theorem stopsIn_of_seek_eq_some {is rest : List Nat} (h : seek t is = some (i, rest)) :
    ∃ e, t.slot? i = some e ∧ t.stopsIn is = (i, e) :: t.stopsIn rest := by
  induction is with
  | nil => cases h
  | cons j is ih =>
    rw [seek] at h
    split at h
    · next hj =>
      obtain ⟨rfl, rfl⟩ : j = i ∧ is = rest := by simpa using h
      obtain ⟨e, he⟩ := Option.isSome_iff_exists.1 (Table.isSome_slot? ▸ hj)
      exact ⟨e, he, stopsIn_cons_of_some he⟩
    · next hj =>
      rw [stopsIn_cons_of_none (by simpa [Table.slot?] using hj)]
      exact ih h

theorem next?_cases {it : Visits} (h : it.left = (t.stopsIn it.slots).length) :
    (it.next? t = none ∧ t.stopsIn it.slots = []) ∨
      ∃ i e it', it.next? t = some (i, it') ∧ t.slot? i = some e ∧
        t.stopsIn it.slots = (i, e) :: t.stopsIn it'.slots ∧
        it'.left = (t.stopsIn it'.slots).length := by
  unfold next?
  split
  · next h0 => exact Or.inl ⟨rfl, List.eq_nil_of_length_eq_zero (h ▸ h0)⟩
  · cases hseek : seek t it.slots with
    | none => exact Or.inl ⟨rfl, stopsIn_of_seek_eq_none hseek⟩
    | some next =>
      obtain ⟨i, rest⟩ := next
      obtain ⟨e, he, hstops⟩ := stopsIn_of_seek_eq_some hseek
      refine Or.inr ⟨i, e, ⟨rest, it.left - 1⟩, rfl, he, hstops, ?_⟩
      rw [h, hstops]
      rfl

end Visits

theorem Entries.next?_cases {it : Entries K} (h : it.left = it.toList.length) :
    (it.next? = none ∧ it.toList = []) ∨ ∃ e it', it.next? = some (e, it') ∧
      it.toList = e :: it'.toList ∧ it'.left = it'.toList.length := by
  cases hnext : it.next? with
  | none => exact Or.inl ⟨rfl, toList_of_next?_eq_none hnext⟩
  | some next =>
    obtain ⟨e, it'⟩ := next
    have hlist := toList_of_next?_eq_some hnext
    have hleft : it'.left = it.left - 1 := by
      unfold next? at hnext
      split at hnext
      · cases hnext
      · obtain ⟨⟨e', rest⟩, -, heq⟩ := Option.map_eq_some_iff.1 hnext
        rw [← (Prod.mk.inj heq).2]
    exact Or.inr ⟨e, it', rfl, hlist, by rw [hleft, h, hlist, List.length_cons, Nat.add_sub_cancel]⟩

namespace Cursor

/-- The entries in front of a cursor, in order and with their slots. -/
def stopsAhead (t : Table K) (c : Cursor) : List (Nat × K × Int32) :=
  t.stopsIn ((t.cycle c.start).drop c.visited)

/-- Counting up the slots is going through the list of them. -/
theorem seek_eq {s n v : Nat} (hn : n = t.capacity - v) :
    (seek t s n v).map (fun (i, w) => (i, (t.cycle s).drop w)) =
      Visits.seek t ((t.cycle s).drop v) := by
  induction n generalizing v with
  | zero =>
    rw [List.drop_eq_nil_of_le (by rw [Table.length_cycle]; omega)]
    rfl
  | succ n ih =>
    obtain ⟨hlt, hget⟩ := List.getElem?_eq_some_iff.1
      (Table.getElem?_cycle (t := t) (s := s) (v := v) (by omega))
    rw [List.drop_eq_getElem_cons hlt, hget, seek, Visits.seek]
    dsimp only
    split
    · rfl
    · exact ih (by omega)

theorem advance_cases (t : Table K) (c : Cursor) :
    (∃ c', c.advance t = (none, c') ∧ stopsAhead t c = [] ∧ stopsAhead t c' = []) ∨
      ∃ i e c', c.advance t = (some i, c') ∧ t.slot? i = some e ∧
        stopsAhead t c = (i, e) :: stopsAhead t c' := by
  have hseek := seek_eq (t := t) (s := c.start) (v := c.visited) rfl
  unfold advance
  cases hrun : seek t c.start (t.capacity - c.visited) c.visited with
  | none =>
    rw [hrun] at hseek
    refine Or.inl ⟨_, rfl, Visits.stopsIn_of_seek_eq_none hseek.symm, ?_⟩
    rw [stopsAhead, List.drop_eq_nil_of_le (by rw [Table.length_cycle]; exact Nat.le_max_right _ _)]
    rfl
  | some found =>
    obtain ⟨i, w⟩ := found
    rw [hrun] at hseek
    obtain ⟨e, he, hstops⟩ := Visits.stopsIn_of_seek_eq_some hseek.symm
    exact Or.inr ⟨i, e, _, rfl, he, hstops⟩

end Cursor

/-! ## What a reader will yield -/

namespace Reader

variable {m : Map K} {r : Reader K}

/-- The items that a reader will yield. -/
def items (m : Map K) : Reader K → List (Item K)
  | iter part it => it.toList.map part.of
  | visits it => (m.table.stopsIn it.slots).map Traversal.visits.view
  | cursor c => (c.stopsAhead m.table).map Traversal.cursor.view
  | walk w => (w.cursor.stopsAhead m.table).map Traversal.walk.view

/-- The count of a reader is the number of entries it will meet, and a walk is over the map. -/
def Exact (m : Map K) : Reader K → Prop
  | iter _ it => it.left = it.toList.length
  | visits it => it.left = (m.table.stopsIn it.slots).length
  | cursor _ => True
  | walk w => w.map = m

/-- A reader as the list of items that it will yield. -/
def listing (m : Map K) (r : Reader K) : Listing K :=
  ⟨r.way, r.items m⟩

theorem start_listing (hc : m.table.Counted) (way : Traversal) :
    (start m way).listing m = ⟨way, m.table.stops.map way.view⟩ ∧ (start m way).Exact m := by
  have hlist := Table.toList_eq_filterMap hc
  rw [← Table.map_snd_stops] at hlist
  cases way with
  | iter part =>
    refine ⟨?_, ?_⟩
    · have hview : (Traversal.iter part).view = fun s : Nat × K × Int32 => part.of s.2 := rfl
      have hitems : m.iter.toList = m.table.stops.map Prod.snd := hlist
      simp [start, listing, items, Reader.way, hitems, hview, Function.comp_def]
    · have hlen : m.iter.toList.length = m.table.stops.length := by
        rw [show m.iter.toList = _ from hlist, List.length_map]
      exact (hlen.trans (Table.length_stops hc)).symm
  | visits => exact ⟨rfl, (Table.length_stops hc).symm⟩
  | cursor => exact ⟨rfl, trivial⟩
  | walk => exact ⟨rfl, rfl⟩

/-- Moving a reader on takes the first of the items that it will yield. -/
theorem next_listing (h : r.Exact m) : (r.next m).1 = (r.items m).head? ∧
    (r.next m).2.listing m = ⟨r.way, (r.items m).tail⟩ ∧ (r.next m).2.Exact m := by
  -- with nothing left an iterator stays where it is, and a cursor comes to the end of the row
  cases r with
  | iter part it =>
    rcases Entries.next?_cases h with ⟨hnext, hlist⟩ | ⟨e, it', hnext, hlist, hleft⟩
    · have hleft : it.left = 0 := by simpa [Exact, hlist] using h
      simp [next, listing, items, hnext, hlist, Reader.way, hleft, Exact]
    · simp [next, listing, items, hnext, hlist, Reader.way, hleft, Exact]
  | visits it =>
    rcases Visits.next?_cases h with ⟨hnext, hstops⟩ | ⟨i, e, it', hnext, he, hstops, hleft⟩
    · have hleft : it.left = 0 := by simpa [Exact, hstops] using h
      simp [next, listing, items, hnext, hstops, Reader.way, hleft, Exact]
    · simp [next, listing, items, hnext, hstops, he, Reader.way, hleft, Exact, Traversal.view]
  | cursor c =>
    rcases Cursor.advance_cases m.table c with ⟨c', hnext, hstops, hstops'⟩ |
      ⟨i, e, c', hnext, he, hstops⟩
    · simp [next, listing, items, hnext, hstops, hstops', Reader.way, Exact]
    · simp [next, listing, items, hnext, hstops, he, Reader.way, Exact, Traversal.view]
  | walk w =>
    obtain ⟨m', c⟩ := w
    obtain rfl : m' = m := h
    rcases Cursor.advance_cases m'.table c with ⟨c', hnext, hstops, hstops'⟩ |
      ⟨i, e, c', hnext, he, hstops⟩
    · simp [next, Map.Walk.next, listing, items, hnext, hstops, hstops', Reader.way, Exact]
    · simp [next, Map.Walk.next, listing, items, hnext, hstops, he, Reader.way, Exact,
        Traversal.view]

theorem sizeHint?_eq (h : r.Exact m) : r.sizeHint? =
    if r.way.isSized then some ((r.items m).length, some (r.items m).length) else none := by
  cases r with
  | iter part it =>
    have hleft : it.left = it.toList.length := h
    simp [sizeHint?, items, Reader.way, Traversal.isSized, hleft]
  | visits it =>
    have hleft : it.left = (m.table.stopsIn it.slots).length := h
    simp [sizeHint?, items, Reader.way, Traversal.isSized, hleft]
  | cursor c | walk w => rfl

theorem copy?_eq (r : Reader K) : r.copy? = if r.way.isCopied then some r else none := by
  cases r <;> rfl

end Reader

/-! ## Several readers -/

namespace Reading

variable {R R' : Type} {T : Reading K R} {T' : Reading K R'} {f : R → R'} {P : R → Prop}

/-- As long as the traversals of `T` are as `P` says, `f` tells which ones of `T'` do the same. -/
structure Simulates (T : Reading K R) (T' : Reading K R') (f : R → R') (P : R → Prop) : Prop where
  start : ∀ way, f (T.start way) = T'.start way ∧ P (T.start way)
  next : ∀ r, P r → (T.next r).1 = (T'.next (f r)).1 ∧ f (T.next r).2 = (T'.next (f r)).2 ∧
    P (T.next r).2
  sizeHint? : ∀ r, P r → T.sizeHint? r = T'.sizeHint? (f r)
  copy? : ∀ r, P r → (T.copy? r).map f = T'.copy? (f r) ∧ ∀ r', T.copy? r = some r' → P r'

namespace Simulates

/-- One call has the same answer, and leaves traversals of which the same is true. -/
theorem perform {rs : List R} (h : Simulates T T' f P) (hrs : ∀ r ∈ rs, P r) (c : Command) :
    (T.perform rs c).1 = (T'.perform (rs.map f) c).1 ∧
      (T.perform rs c).2.map f = (T'.perform (rs.map f) c).2 ∧ ∀ r ∈ (T.perform rs c).2, P r := by
  cases c with
  | start way =>
    obtain ⟨hstart, hP⟩ := h.start way
    refine ⟨rfl, by simp [Reading.perform, hstart], ?_⟩
    simpa [Reading.perform, or_imp, forall_and, hP] using hrs
  | next j =>
    cases hj : rs[j]? with
    | none => simpa [Reading.perform, hj] using hrs
    | some r =>
      obtain ⟨hitem, hf, hP⟩ := h.next r (hrs r (List.mem_of_getElem? hj))
      refine ⟨by simp [Reading.perform, hj, hitem], by simp [Reading.perform, hj, hf], ?_⟩
      intro r' hr'
      rcases List.mem_or_eq_of_mem_set (by simpa [Reading.perform, hj] using hr') with hmem | rfl
      · exact hrs r' hmem
      · exact hP
  | sizeHint? j =>
    cases hj : rs[j]? with
    | none => simpa [Reading.perform, hj] using hrs
    | some r =>
      have hhint := h.sizeHint? r (hrs r (List.mem_of_getElem? hj))
      simpa [Reading.perform, hj, hhint] using hrs
  | copy? j =>
    cases hj : rs[j]? with
    | none => simpa [Reading.perform, hj] using hrs
    | some r =>
      obtain ⟨hf, hP⟩ := h.copy? r (hrs r (List.mem_of_getElem? hj))
      cases hcopy : T.copy? r with
      | none =>
        rw [hcopy, Option.map_none] at hf
        simpa [Reading.perform, hj, hcopy, ← hf] using hrs
      | some r' =>
        rw [hcopy, Option.map_some] at hf
        simpa [Reading.perform, hj, hcopy, ← hf, or_imp, forall_and, hP r' hcopy] using hrs

/-- Any calls on any of the traversals have the same answers. -/
theorem run {rs : List R} (h : Simulates T T' f P) (hrs : ∀ r ∈ rs, P r) (cs : List Command) :
    (T.run rs cs).1 = (T'.run (rs.map f) cs).1 := by
  induction cs generalizing rs with
  | nil => rfl
  | cons c cs ih =>
    obtain ⟨hanswer, hf, hP⟩ := h.perform hrs c
    simp only [Reading.run, hanswer, ih hP, hf]

theorem after (h : Simulates T T' f P) (way : Traversal) (n : Nat) :
    f (T.after way n) = T'.after way n ∧ P (T.after way n) := by
  induction n with
  | zero => exact h.start way
  | succ n ih =>
    obtain ⟨-, hf, hP⟩ := h.next _ ih.2
    exact ⟨hf.trans (by rw [ih.1]; rfl), hP⟩

end Simulates

end Reading

/-- After `n` steps the first `n` items of a list are gone. -/
theorem Listing.after_eq (stops : List (Nat × K × Int32)) (way : Traversal) (n : Nat) :
    (Listing.reading stops).after way n = ⟨way, (stops.map way.view).drop n⟩ := by
  induction n with
  | zero => rfl
  | succ n ih =>
    rw [Reading.after, ih]
    simp [Listing.reading, List.tail_drop]

namespace Map

variable {m : Map K}

theorem simulates_reading (hc : m.table.Counted) : Reading.Simulates m.reading
    (Listing.reading m.table.stops) (Reader.listing m) (Reader.Exact m) where
  start := Reader.start_listing hc
  next r h := Reader.next_listing h
  sizeHint? r h := Reader.sizeHint?_eq h
  copy? r h := by
    have hcopy : m.reading.copy? r = _ := Reader.copy?_eq r
    rw [hcopy]
    cases hway : r.way.isCopied <;> simp [Listing.reading, Reader.listing, hway, h]

/-- In a counted map, whether or not a slot is empty, every way of traversing it meets the occupied
slots once each and in one order, which goes round from the start. After `n` of them it yields the
entry of the next one, in its own way, and nothing behind the last one; how many are left is what
iterators and visits tell. Calls on several readers, some of them copies of others, are answered as
if each reader were a list of its own of the items that are left. An iterator goes through both rows
split at the start. -/
theorem traversals_agree (hc : m.table.Counted) :
    m.table.stops.map Prod.fst = m.table.order.filter (fun i => (m.table.key? i).isSome) ∧
    m.table.order.Nodup ∧ (∀ i e, (i, e) ∈ m.table.stops ↔ m.table.slot? i = some e) ∧
    (∀ way n, (m.reading.next (m.reading.after way n)).1 = (m.table.stops[n]?).map way.view ∧
      m.reading.sizeHint? (m.reading.after way n) =
        if way.isSized then some (m.table.stops.length - n, some (m.table.stops.length - n))
        else none) ∧
    (∀ cs, (m.reading.run [] cs).1 = ((Listing.reading m.table.stops).run [] cs).1) ∧
    (m.table.values.size = m.table.capacity → m.iter.slots =
      (m.table.keys.toList.zip m.table.values.toList).drop m.table.start ++
        (m.table.keys.toList.zip m.table.values.toList).take m.table.start) := by
  have hsim := simulates_reading hc
  refine ⟨Table.map_fst_stops, Table.nodup_order, fun i e => Table.mem_stops, fun way n => ?_,
    hsim.run (by simp), Table.slots_iter⟩
  obtain ⟨hafter, hexact⟩ := hsim.after way n
  rw [Listing.after_eq] at hafter
  obtain ⟨hnext, -⟩ := hsim.next _ hexact
  rw [hnext, hsim.sizeHint? _ hexact, hafter]
  simp [Listing.reading]

/-- Three entries, the last of which lies behind the end of the row, so that traversals start at the
third slot. -/
def ringed : Map UInt64 :=
  ⟨⟨#[some 3, none, none, none, none, some 1, none, some 2], #[30, 0, 0, 0, 0, 10, 0, 20], 3, 6,
    ⟨0x3f400000⟩⟩, id, -1⟩

/-- An iterator over keys is copied after one step, and the copy yields what was left then. -/
theorem traversals_agree_ringed : ringed.table.Counted ∧
    ringed.table.stops = [(5, 1, 10), (7, 2, 20), (0, 3, 30)] ∧
    ringed.table.stops.map Prod.fst =
      ringed.table.order.filter (fun i => (ringed.table.key? i).isSome) ∧
    ringed.table.order.Nodup ∧
    (∀ i e, (i, e) ∈ ringed.table.stops ↔ ringed.table.slot? i = some e) ∧
    (ringed.reading.next (ringed.reading.after .cursor 2)).1 = some (.slot 0 (3, 30)) ∧
    ringed.reading.sizeHint? (ringed.reading.after .visits 2) = some (1, some 1) ∧
    (ringed.reading.run [] [.start (.iter .key), .next 0, .copy? 0, .next 0, .next 0, .next 0,
      .sizeHint? 1, .next 1, .next 0]).1 = [.done, .item? (some (.key 1)), .done,
        .item? (some (.key 2)), .item? (some (.key 3)), .item? none, .sizeHint? (some (2, some 2)),
        .item? (some (.key 2)), .item? none] ∧
    ringed.iter.slots = [(none, 0), (none, 0), (none, 0), (some 1, 10), (none, 0), (some 2, 20)] ++
      [(some 3, 30), (none, 0)] := by
  have hc : ringed.table.Counted := by decide
  obtain ⟨hslots, hnodup, hmem, hstep, hrun, hrows⟩ := traversals_agree hc
  exact ⟨hc, rfl, hslots, hnodup, hmem, (hstep .cursor 2).1, (hstep .visits 2).2, hrun _, hrows rfl⟩

end Map

end LinearProbe
