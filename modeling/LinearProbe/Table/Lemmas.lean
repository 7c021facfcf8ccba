import LinearProbe.Table.Basic

/-!
# What writing does to the cells of a table

How the operations on single slots change the number of slots, the key cells and the value
cells, and where the positions `home`, `next` and `distance` lie.
-/

namespace LinearProbe.Table

variable {K : Type} {t : Table K} {i j : Nat} {k : K} {v : Int32}

/-! ## The number of slots -/

@[simp] theorem capacity_write : (t.write i k v).capacity = t.capacity := by
  simp [capacity, write]

@[simp] theorem capacity_writeValue : (t.writeValue i v).capacity = t.capacity := rfl

@[simp] theorem capacity_vacate : (t.vacate i).capacity = t.capacity := by
  simp [capacity, vacate]

@[simp] theorem capacity_clear : t.clear.capacity = t.capacity := by
  simp [capacity, clear]

@[simp] theorem capacity_empty {slots : Nat} {loadFactor : Single} :
    (empty slots loadFactor : Table K).capacity = slots := by
  simp [capacity, empty]

/-! ## Key cells -/

/-- There are no keys outside the row. -/
theorem key?_of_capacity_le (h : t.capacity ≤ i) : t.key? i = none := by
  simp [key?, Array.getD, show ¬i < t.keys.size from Nat.not_lt.2 h]

/-- A key is in a slot of the row. -/
theorem lt_capacity_of_key? (h : t.key? i = some k) : i < t.capacity := by
  rcases Nat.lt_or_ge i t.capacity with hi | hi
  · exact hi
  · simp [key?_of_capacity_le hi] at h

theorem key?_write (hi : i < t.capacity) :
    (t.write i k v).key? j = if i = j then some k else t.key? j := by
  have hi' : i < t.keys.size := hi
  simp only [key?, write, Array.getD_eq_getD_getElem?, Array.getElem?_setIfInBounds, if_pos hi']
  split <;> rfl

@[simp] theorem key?_writeValue : (t.writeValue i v).key? j = t.key? j := rfl

theorem key?_vacate : (t.vacate i).key? j = if i = j then none else t.key? j := by
  simp only [key?, vacate, Array.getD_eq_getD_getElem?, Array.getElem?_setIfInBounds]
  split
  · split <;> rfl
  · rfl

@[simp] theorem key?_clear : t.clear.key? i = none := by
  simp only [key?, clear, Array.getD_eq_getD_getElem?, Array.getElem?_replicate]
  split <;> rfl

@[simp] theorem key?_empty {slots : Nat} {loadFactor : Single} :
    (empty slots loadFactor : Table K).key? i = none := by
  simp only [key?, empty, Array.getD_eq_getD_getElem?, Array.getElem?_replicate]
  split <;> rfl

/-! ## Value cells -/

theorem value_write (hi : i < t.values.size) :
    (t.write i k v).value j = if i = j then v else t.value j := by
  simp only [value, write, Array.getD_eq_getD_getElem?, Array.getElem?_setIfInBounds, if_pos hi]
  split <;> rfl

theorem value_writeValue (hi : i < t.values.size) :
    (t.writeValue i v).value j = if i = j then v else t.value j := by
  simp only [value, writeValue, Array.getD_eq_getD_getElem?, Array.getElem?_setIfInBounds,
    if_pos hi]
  split <;> rfl

theorem value_vacate : (t.vacate i).value j = if i = j then 0 else t.value j := by
  simp only [value, vacate, Array.getD_eq_getD_getElem?, Array.getElem?_setIfInBounds]
  split
  · split <;> rfl
  · rfl

@[simp] theorem value_clear : t.clear.value i = 0 := by
  simp only [value, clear, Array.getD_eq_getD_getElem?, Array.getElem?_replicate]
  split <;> rfl

/-! ## Positions -/

theorem next_lt (h : 0 < t.capacity) : t.next i < t.capacity :=
  Nat.mod_lt _ h

theorem home_lt (h : 0 < t.capacity) (hash : UInt64) : t.home hash < t.capacity :=
  Nat.mod_lt _ h

theorem distance_lt (h : 0 < t.capacity) : t.distance i j < t.capacity :=
  Nat.mod_lt _ h

/-- No steps lead from a slot to itself. -/
theorem distance_self : t.distance i i = 0 := by
  simp [distance]

/-- The distance leads from one slot to the other. -/
theorem add_distance (hi : i < t.capacity) (hj : j < t.capacity) :
    (i + t.distance i j) % t.capacity = j := by
  rw [distance, Nat.add_mod_mod, show i + (j + t.capacity - i) = j + t.capacity by omega,
    Nat.add_mod_right, Nat.mod_eq_of_lt hj]

end LinearProbe.Table
