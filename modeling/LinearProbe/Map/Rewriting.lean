import LinearProbe.Map.Traversal

/-!
# Rewriting values

A loop over the entries of a map can overwrite values as it goes. It asks a function for each entry
that it meets: the answer is the value to overwrite the entry's value with, or nothing where the
entry is passed over. The loop can be one of visits (`Map.rewriteVisits`), which writes through the
slot it is at, or of a walk (`Walk.rewrite`), which writes through its cursor. Neither looks the key
up again. What each of the calls was about, and what it answered, is a `Rewriting`.
-/

namespace LinearProbe

variable {K : Type}

/-- A visit counts down the entries that are left. -/
theorem Visits.left_lt {t : Table K} {it it' : Visits} {i : Nat}
    (h : it.next? t = some (i, it')) : it'.left < it.left := by
  unfold next? at h
  split at h
  · cases h
  · next h0 =>
    obtain ⟨⟨j, rest⟩, -, heq⟩ := Option.map_eq_some_iff.1 h
    rw [← (Prod.mk.inj heq).2]
    exact Nat.sub_lt (Nat.pos_of_ne_zero h0) Nat.one_pos

/-- A search that finds a slot has looked at it. -/
theorem Cursor.lt_of_seek {t : Table K} {s n v w i : Nat} (h : seek t s n v = some (i, w)) :
    v < w ∧ w ≤ v + n := by
  induction n generalizing v with
  | zero => cases h
  | succ n ih =>
    rw [seek] at h
    split at h
    · obtain ⟨-, rfl⟩ : _ ∧ v + 1 = w := by simpa using h
      omega
    · have := ih h
      omega

namespace Map

/-- A call that overwrites the value of an entry: the key of the entry, the value it is to have, and
the value it had before or why it was not overwritten. -/
structure Rewriting (K : Type) where
  key : K
  value : Int32
  result : Except Failure Int32

/-- Goes on with visits and overwrites the values of entries as `g` says. -/
def rewriteVisits (g : K → Int32 → Option Int32) (m : Map K) (it : Visits) :
    List (Rewriting K) × Map K :=
  match _ : it.next? m.table with
  | none => ([], m)
  | some (i, it') =>
    match (m.table.slot? i).bind fun (k, old) => (g k old).map (k, ·) with
    | none => rewriteVisits g m it'
    | some (k, v) =>
      let o := m.setAt i v
      let (rs, m') := rewriteVisits g o.state it'
      (⟨k, v, o.result⟩ :: rs, m')
termination_by it.left
decreasing_by all_goals exact Visits.left_lt ‹_›

namespace Walk

/-- The number of slots that the cursor has not looked at yet. -/
def slotsAhead (w : Walk K) : Nat :=
  w.map.capacity - w.cursor.visited

/-- Moving on looks at a slot, and leaves the map alone. -/
theorem slotsAhead_next {w w' : Walk K} {e : K × Int32} (h : w.next = (some e, w')) :
    w'.slotsAhead < w.slotsAhead := by
  obtain ⟨m, c⟩ := w
  simp only [next, Prod.mk.injEq] at h
  obtain ⟨he, rfl⟩ := h
  unfold Cursor.advance at he ⊢
  cases hseek : Cursor.seek m.table c.start (m.table.capacity - c.visited) c.visited with
  | none => simp [hseek] at he
  | some found =>
    obtain ⟨i, v⟩ := found
    have := Cursor.lt_of_seek hseek
    simp only [slotsAhead, Map.capacity]
    omega

/-- Overwriting a value moves nothing. -/
theorem slotsAhead_set {w : Walk K} {v : Int32} : (w.set v).state.slotsAhead = w.slotsAhead := by
  unfold set
  split
  · rfl
  · split
    · rfl
    · next i _ =>
      unfold Table.replaceAt?
      cases w.map.table.valueAt? i with
      | error a => rfl
      | ok v? => cases v? <;> rfl

/-- Goes on with a walk and overwrites the values of entries as `g` says. -/
def rewrite (g : K → Int32 → Option Int32) (w : Walk K) : List (Rewriting K) × Map K :=
  match _ : w.next with
  | (none, w') => ([], w'.map)
  | (some (k, old), w') =>
    match g k old with
    | none => rewrite g w'
    | some v =>
      let o := w'.set v
      let (rs, m') := rewrite g o.state
      (⟨k, v, o.result⟩ :: rs, m')
termination_by w.slotsAhead
decreasing_by
  · exact slotsAhead_next ‹_›
  · exact Nat.lt_of_le_of_lt (Nat.le_of_eq slotsAhead_set) (slotsAhead_next ‹_›)

end Walk

end Map

end LinearProbe
