import LinearProbe.Proofs.Erasing
import LinearProbe.Table.Traversal

/-!
# Where a cursor stands

A traversal from slot `s` that has looked at `v` slots has the entries `t.before s v` behind it and
the entries `t.after s v` in front of it, in order. `Follows` says that a cursor has left the
entries `behind` and stands on `current`; it holds of a new cursor (`Follows.new`) and is kept by
its steps. Moving on takes the first entry ahead (`Follows.advance`), and overwriting the value
of the current entry changes nothing else (`Follows.write`).

Erasing moves entries ahead of the cursor back, in another order and up to the slot that is looked
at again, but none of them past it : the slot in front of the start was empty when the cursor was
made, and closing a gap neither fills it nor passes it (`before_eq_of_erased`). So the entries ahead
are the same up to order (`Follows.erase`).
-/

namespace LinearProbe

namespace Table

variable {K : Type} {hash : K → UInt64} {t u : Table K} {i s v w : Nat} {e : K × Int32}

/-! ## Both sides of a position -/

/-- The entries in the first `v` slots of a traversal from slot `s`, in order. -/
def before (t : Table K) (s v : Nat) : List (K × Int32) :=
  ((t.cycle s).take v).filterMap t.slot?

/-- The entries behind the first `v` slots of a traversal from slot `s`, in order. -/
def after (t : Table K) (s v : Nat) : List (K × Int32) :=
  ((t.cycle s).drop v).filterMap t.slot?

theorem length_cycle : (t.cycle s).length = t.capacity := by
  simp [cycle]

theorem getElem?_cycle (hv : v < t.capacity) :
    (t.cycle s)[v]? = some ((s + v) % t.capacity) := by
  simp [cycle, hv]

theorem before_succ (hv : v < t.capacity) :
    t.before s (v + 1) = t.before s v ++ (t.slot? ((s + v) % t.capacity)).toList := by
  rw [before, List.take_add_one, getElem?_cycle hv, List.filterMap_append]
  cases h : t.slot? ((s + v) % t.capacity) <;> simp [before, h]

theorem after_of_lt (hv : v < t.capacity) :
    t.after s v = (t.slot? ((s + v) % t.capacity)).toList ++ t.after s (v + 1) := by
  have hget := List.getElem?_eq_some_iff.1 (getElem?_cycle (s := s) hv)
  obtain ⟨hlt, heq⟩ := hget
  rw [after, List.drop_eq_getElem_cons hlt, heq]
  cases h : t.slot? ((s + v) % t.capacity) <;> simp [after, h]

theorem after_capacity : t.after s t.capacity = [] := by
  rw [after, List.drop_eq_nil_of_le (Nat.le_of_eq length_cycle), List.filterMap_nil]

/-- The entries of the table are those on both sides. -/
theorem before_append_after_perm (hs : s < t.capacity) :
    (t.before s v ++ t.after s v).Perm t.entries := by
  rw [before, after, ← List.filterMap_append, List.take_append_drop]
  exact filterMap_perm_entries (nodup_cycle hs) fun i => mem_cycle hs

theorem before_congr (hc : u.capacity = t.capacity) (hv : v ≤ t.capacity)
    (h : ∀ d, d < v → u.slot? ((s + d) % t.capacity) = t.slot? ((s + d) % t.capacity)) :
    u.before s v = t.before s v := by
  induction v with
  | zero => rfl
  | succ v ih =>
    rw [before_succ (hc ▸ hv), before_succ hv, ih (by omega) fun d hd => h d (by omega), hc,
      h v (by omega)]

theorem after_congr (hc : u.capacity = t.capacity)
    (h : ∀ d, v ≤ d → d < t.capacity →
      u.slot? ((s + d) % t.capacity) = t.slot? ((s + d) % t.capacity)) :
    u.after s v = t.after s v := by
  induction hn : t.capacity - v generalizing v with
  | zero =>
    have hle : t.capacity ≤ v := by omega
    rw [after, after, List.drop_eq_nil_of_le (by rwa [length_cycle, hc]),
      List.drop_eq_nil_of_le (by rwa [length_cycle])]
    rfl
  | succ n ih =>
    have hv : v < t.capacity := by omega
    rw [after_of_lt (hc ▸ hv), after_of_lt hv, hc, h v (Nat.le_refl _) hv,
      ih (fun d hd => h d (by omega)) (by omega)]

/-- Erasing the entry `v` steps behind the start changes no slot before it, if the slot in front of
the start is empty, and leaves that slot empty. -/
theorem slot?_eq_of_erased {g d : Nat} (hg : g < t.capacity) (hempty : t.key? g = none)
    (hnext : t.next g = s) (hu : Erased hash t ((s + v) % t.capacity) e u) (hv : v < t.capacity)
    (hd : d < v) : u.slot? ((s + d) % t.capacity) = t.slot? ((s + d) % t.capacity) := by
  have hc := Nat.zero_lt_of_lt hg
  have hs : s < t.capacity := hnext ▸ next_lt hc
  have hi := Nat.mod_lt (s + v) hc
  have hm := Nat.mod_lt (s + d) hc
  have hiv := distance_add_mod hs hv
  have hmd := distance_add_mod hs (Nat.lt_trans hd hv)
  have hlap : t.distance s g + 1 = t.capacity := by
    subst hnext
    exact distance_next_self hg
  have hle : t.distance ((s + v) % t.capacity) g ≤
      t.distance ((s + v) % t.capacity) ((s + d) % t.capacity) := by
    have := t.distance_cases hs hg
    have := t.distance_cases hs hi
    have := t.distance_cases hs hm
    have := t.distance_cases hi hg
    have := t.distance_cases hi hm
    omega
  obtain ⟨hk, hval⟩ := hu.frame g _ hg hempty hm hle
  exact slot?_congr hk hval

end Table

namespace Cursor

open Table

variable {K : Type} {hash : K → UInt64} {t u : Table K} {c : Cursor} {behind : List (K × Int32)}
  {current : Option (K × Int32)} {e : K × Int32}

/-! ## What a cursor stands on -/

/-- The entries in front of a cursor, in order. -/
def ahead (t : Table K) (c : Cursor) : List (K × Int32) :=
  t.after c.start c.visited

/-- The cursor stands on no entry, or on the entry in the slot that was looked at last. -/
inductive Stands (t : Table K) (c : Cursor) : Option (K × Int32) → Prop where
  | off (h : c.current = none) : Stands t c none
  | on {w : Nat} {e : K × Int32} (hv : c.visited = w + 1)
      (hc : c.current = some ((c.start + w) % t.capacity))
      (he : t.slot? ((c.start + w) % t.capacity) = some e) : Stands t c (some e)

/-- The cursor is over a counted table, has left the entries `behind` and stands on `current`; the
slot in front of its start is empty. -/
structure Follows (t : Table K) (c : Cursor) (behind : List (K × Int32))
    (current : Option (K × Int32)) : Prop where
  size_values : t.values.size = t.capacity
  counted : t.Counted
  gap : ∃ g, g < t.capacity ∧ t.key? g = none ∧ t.next g = c.start
  visited_le : c.visited ≤ t.capacity
  stands : Stands t c current
  seen : (t.before c.start c.visited).Perm (behind ++ current.toList)

namespace Follows

theorem new (hs : t.values.size = t.capacity) (hc : t.Counted) (hg : t.HasGap) :
    Follows t (new t) [] none where
  size_values := hs
  counted := hc
  gap := exists_next_eq_start hg
  visited_le := Nat.zero_le _
  stands := .off rfl
  seen := .refl _

theorem start_lt (h : Follows t c behind current) : c.start < t.capacity := by
  obtain ⟨g, hg, -, hnext⟩ := h.gap
  exact hnext ▸ next_lt (Nat.zero_lt_of_lt hg)

/-- The entries are those behind the cursor, the one it stands on and those ahead. -/
theorem entries (h : Follows t c behind current) :
    t.entries.Perm (behind ++ current.toList ++ ahead t c) :=
  (before_append_after_perm h.start_lt).symm.trans (h.seen.append_right _)

theorem current_eq (h : Follows t c behind current) : c.current.bind t.slot? = current := by
  cases h.stands with
  | off hc => rw [hc, Option.bind_none]
  | on hv hc he => rw [hc, Option.bind_some, he]

/-- The entries in front of the one that the cursor stands on are those it has left. -/
theorem before_perm {w : Nat} (h : Follows t c behind (some e)) (hv : c.visited = w + 1)
    (he : t.slot? ((c.start + w) % t.capacity) = some e) :
    w < t.capacity ∧ (t.before c.start w).Perm behind := by
  have hw : w < t.capacity := by
    have := h.visited_le
    omega
  have hseen := h.seen
  rw [hv, before_succ hw, he] at hseen
  exact ⟨hw, (List.perm_append_right_iff _).1 hseen⟩

theorem current_eq_none (h : Follows t c behind none) : c.current = none := by
  cases h.stands with
  | off hc => exact hc

end Follows

/-! ## Moving on -/

/-- The search among the slots not looked at ends at the first entry ahead, or behind all slots. -/
theorem seek_cases {s n v : Nat} (hn : v + n = t.capacity) :
    (∃ w e, seek t s n v = some ((s + w) % t.capacity, w + 1) ∧ w < t.capacity ∧
      t.slot? ((s + w) % t.capacity) = some e ∧ t.before s (w + 1) = t.before s v ++ [e] ∧
      t.after s v = e :: t.after s (w + 1)) ∨
    (seek t s n v = none ∧ t.before s t.capacity = t.before s v ∧ t.after s v = []) := by
  induction n generalizing v with
  | zero =>
    obtain rfl : v = t.capacity := hn
    exact Or.inr ⟨rfl, rfl, after_capacity⟩
  | succ n ih =>
    have hv : v < t.capacity := by omega
    rw [seek, after_of_lt hv]
    cases he : t.slot? ((s + v) % t.capacity) with
    | some e =>
      refine Or.inl ⟨v, e, ?_, hv, he, ?_, rfl⟩
      · rw [if_pos (by rw [← isSome_slot?, he]; rfl)]
      · rw [before_succ hv, he]
        rfl
    | none =>
      have hbefore : t.before s (v + 1) = t.before s v := by
        rw [before_succ hv, he]
        exact List.append_nil _
      rw [if_neg (by rw [← isSome_slot?, he]; simp), ← hbefore]
      exact ih (by omega)

/-- The cursor moves to the first entry of those ahead. -/
theorem Follows.advance (h : Follows t c behind current) :
    ∃ i? c', c.advance t = (i?, c') ∧ i?.bind t.slot? = (ahead t c).head? ∧ c'.current = i? ∧
      ahead t c' = (ahead t c).tail ∧
      Follows t c' (behind ++ current.toList) (ahead t c).head? := by
  have hv := h.visited_le
  rcases seek_cases (t := t) (s := c.start) (n := t.capacity - c.visited) (v := c.visited)
      (by omega) with ⟨w, e, hseek, hw, he, hbefore, hafter⟩ | ⟨hseek, hbefore, hafter⟩
  · refine ⟨some ((c.start + w) % t.capacity), ⟨c.start, w + 1, some ((c.start + w) % t.capacity)⟩,
      by rw [Cursor.advance, hseek], ?_, rfl, ?_, h.size_values, h.counted, h.gap, hw, ?_, ?_⟩
    · rw [Option.bind_some, he, ahead, hafter, List.head?_cons]
    · rw [ahead, ahead, hafter, List.tail_cons]
    · rw [ahead, hafter]
      exact .on rfl rfl he
    · rw [ahead, hafter, hbefore]
      exact h.seen.append_right _
  · refine ⟨none, ⟨c.start, t.capacity, none⟩, by rw [Cursor.advance, hseek, Nat.max_eq_right hv],
      ?_, rfl, ?_, h.size_values, h.counted, h.gap, Nat.le_refl _, ?_, ?_⟩
    · rw [Option.bind_none, ahead, hafter, List.head?_nil]
    · rw [ahead, ahead, hafter, after_capacity, List.tail_nil]
    · rw [ahead, hafter]
      exact .off rfl
    · rw [ahead, hafter, hbefore]
      exact h.seen.trans (.of_eq (List.append_nil _).symm)

/-! ## Overwriting -/

theorem slot_ne {s d w : Nat} (hs : s < t.capacity) (hd : d < t.capacity) (hw : w < t.capacity)
    (hne : d ≠ w) : (s + w) % t.capacity ≠ (s + d) % t.capacity := by
  intro heq
  refine hne ?_
  rw [← distance_add_mod hs hd, ← distance_add_mod hs hw, heq]

/-- The value of the current entry overwritten, the other entries are as before. -/
theorem Follows.write {k : K} {old v : Int32} (h : Follows t c behind (some (k, old))) :
    ∃ i, c.current = some i ∧ t.slot? i = some (k, old) ∧
      Follows (t.writeValue i v) c behind (some (k, v)) ∧
      ahead (t.writeValue i v) c = ahead t c := by
  cases h.stands with
  | @on w _ hv hc he =>
    have hs := h.start_lt
    obtain ⟨hw, hseen⟩ := h.before_perm hv he
    have hi := Nat.mod_lt (c.start + w) (Nat.zero_lt_of_lt hs)
    have hk := (slot?_eq_some.1 he).1
    have hself : (t.writeValue ((c.start + w) % t.capacity) v).slot?
        ((c.start + w) % t.capacity) = some (k, v) := by
      rw [slot?_writeValue h.size_values hi, if_pos rfl, hk, Option.map_some]
    have hother : ∀ d, d < t.capacity → d ≠ w →
        (t.writeValue ((c.start + w) % t.capacity) v).slot? ((c.start + d) % t.capacity) =
          t.slot? ((c.start + d) % t.capacity) := by
      intro d hd hne
      rw [slot?_writeValue h.size_values hi, if_neg (slot_ne hs hd hw hne)]
    have hbefore : (t.writeValue ((c.start + w) % t.capacity) v).before c.start w =
        t.before c.start w :=
      before_congr capacity_writeValue (Nat.le_of_lt hw) fun d hd => hother d (by omega) (by omega)
    refine ⟨_, hc, he, ⟨?_, ?_, h.gap, h.visited_le, .on hv hc hself, ?_⟩, ?_⟩
    · rw [capacity_writeValue, ← h.size_values]
      simp [writeValue]
    · exact h.counted
    · rw [hv, before_succ (t := t.writeValue _ v) hw, capacity_writeValue, hself, hbefore]
      exact hseen.append_right _
    · rw [ahead, ahead]
      refine after_congr capacity_writeValue fun d hd hlt => hother d hlt (by omega)

/-! ## Erasing -/

theorem erase_of_none (h : c.current = none) : c.erase hash t = .ok none (t, c) := by
  rw [erase, h]

/-- The current entry erased, the entries ahead are as before up to order. -/
theorem Follows.erase (hash : K → UInt64) (h : Follows t c behind (some e)) :
    ∃ i u c', c.erase hash t = .ok (some e) (u, c') ∧ Erased hash t i e u ∧
      Follows u c' behind none ∧ (ahead u c').Perm (ahead t c) := by
  cases h.stands with
  | @on w _ hv hc he =>
    obtain ⟨g, hg, hempty, hnext⟩ := h.gap
    obtain ⟨hw, hseen⟩ := h.before_perm hv he
    obtain ⟨u, hrun, hu⟩ := exists_eraseAt? hash h.size_values he
    have hbefore : u.before c.start w = t.before c.start w :=
      before_congr hu.capacity_eq (Nat.le_of_lt hw) fun d hd =>
        slot?_eq_of_erased hg hempty hnext hu hw hd
    have hfollows : Follows u ⟨c.start, w, none⟩ behind none := by
      refine ⟨hu.size_values, hu.counted h.counted, ⟨g, ?_, ?_, ?_⟩, ?_, .off rfl, ?_⟩
      · rwa [hu.capacity_eq]
      · exact hu.key?_eq_none hg hempty
      · rwa [next_congr hu.capacity_eq]
      · exact hu.capacity_eq ▸ Nat.le_of_lt hw
      · rw [hbefore]
        exact hseen.trans (.of_eq (List.append_nil _).symm)
    refine ⟨_, u, ⟨c.start, w, none⟩, ?_, hu, hfollows, ?_⟩
    · rw [Cursor.erase, hc]
      simp only [hrun, hv, Nat.add_sub_cancel]
    · -- both tables have the entries behind, the erased one, and those ahead
      have h1 : (e :: u.entries).Perm (e :: (behind ++ ahead t c)) :=
        hu.entries.symm.trans (h.entries.trans
          (List.perm_append_singleton e behind |>.append_right _))
      have h2 : u.entries.Perm (behind ++ ahead u ⟨c.start, w, none⟩) := by
        simpa using hfollows.entries
      exact (List.perm_append_left_iff _).1 (h2.symm.trans h1.cons_inv)

end Cursor

end LinearProbe
