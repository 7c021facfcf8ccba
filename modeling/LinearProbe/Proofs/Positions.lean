import LinearProbe.Table.Invariant
import LinearProbe.Table.Lemmas

/-!
# Positions on the cycle of slots

Slots are compared by their distance from a slot in front of them. `distance_cases` and
`next_cases` say what the distance and the next slot are without a remainder, which leaves
linear arithmetic. `reachable_iff` states reachability with distances alone : every slot that is
nearer to the home of an entry than the entry is occupied.
-/

namespace LinearProbe.Table

variable {K : Type} {t u : Table K} {i j m g : Nat}

/-! ## Distances -/

theorem distance_cases (hi : i < t.capacity) (hj : j < t.capacity) :
    (i ≤ j ∧ t.distance i j = j - i) ∨ (j < i ∧ t.distance i j = j + t.capacity - i) := by
  unfold distance
  rcases Nat.lt_or_ge j i with hji | hij
  · exact Or.inr ⟨hji, Nat.mod_eq_of_lt (by omega)⟩
  · refine Or.inl ⟨hij, ?_⟩
    rw [show j + t.capacity - i = j - i + t.capacity by omega, Nat.add_mod_right,
      Nat.mod_eq_of_lt (by omega)]

theorem next_cases (hi : i < t.capacity) :
    (i + 1 < t.capacity ∧ t.next i = i + 1) ∨ (i + 1 = t.capacity ∧ t.next i = 0) := by
  unfold next
  rcases Nat.lt_or_ge (i + 1) t.capacity with hlt | hge
  · exact Or.inl ⟨hlt, Nat.mod_eq_of_lt hlt⟩
  · have heq : i + 1 = t.capacity := by omega
    exact Or.inr ⟨heq, by rw [heq, Nat.mod_self]⟩

/-- Two slots at one distance are one slot. -/
theorem eq_of_distance_eq (hg : g < t.capacity) (hi : i < t.capacity) (hj : j < t.capacity)
    (h : t.distance g i = t.distance g j) : i = j := by
  have := t.distance_cases hg hi
  have := t.distance_cases hg hj
  omega

theorem distance_pos (hi : i < t.capacity) (hj : j < t.capacity) (hne : i ≠ j) :
    0 < t.distance i j :=
  Nat.pos_of_ne_zero fun h0 => hne (eq_of_distance_eq hi hi hj (distance_self.trans h0.symm))

/-- The next slot is one step farther, unless the distance begins anew there. -/
theorem distance_next (hg : g < t.capacity) (hi : i < t.capacity) (hne : t.next i ≠ g) :
    t.distance g (t.next i) = t.distance g i + 1 := by
  have := t.next_cases hi
  have := t.distance_cases hg hi
  have := t.distance_cases hg (t.next_lt (Nat.zero_lt_of_lt hi) (i := i))
  omega

/-- Any other slot is one step nearer to the next slot. -/
theorem distance_of_next (hi : i < t.capacity) (hj : j < t.capacity) (hij : i ≠ j) :
    t.distance i j = t.distance (t.next i) j + 1 := by
  have := t.next_cases hi
  have := t.distance_cases hi hj
  have := t.distance_cases (t.next_lt (Nat.zero_lt_of_lt hi) (i := i)) hj
  omega

/-- From the next slot it is a whole lap but one step. -/
theorem distance_next_self (hi : i < t.capacity) : t.distance (t.next i) i + 1 = t.capacity := by
  have := t.next_cases hi
  have := t.distance_cases (t.next_lt (Nat.zero_lt_of_lt hi) (i := i)) hi
  omega

/-- The distances to a slot between two others and from it add up. -/
theorem distance_add (hg : g < t.capacity) (hi : i < t.capacity) (hj : j < t.capacity)
    (h : t.distance i j ≤ t.distance g j) :
    t.distance g i + t.distance i j = t.distance g j := by
  have := t.distance_cases hg hi
  have := t.distance_cases hi hj
  have := t.distance_cases hg hj
  omega

/-- If slot `i` lies between two slots, so does what lies between it and the farther one. -/
theorem distance_lt_of_between (hg : g < t.capacity) (hi : i < t.capacity) (hj : j < t.capacity)
    (hm : m < t.capacity) (h : t.distance g i ≤ t.distance g j)
    (hlt : t.distance i m < t.distance i j) : t.distance g m < t.distance g j := by
  have := t.distance_cases hg hi
  have := t.distance_cases hg hj
  have := t.distance_cases hg hm
  have := t.distance_cases hi hj
  have := t.distance_cases hi hm
  omega

/-- A slot lies between two others if it is nearer to the second, or to the first. -/
theorem distance_le_iff (hg : g < t.capacity) (hi : i < t.capacity) (hj : j < t.capacity) :
    t.distance i j ≤ t.distance g j ↔ t.distance g i ≤ t.distance g j := by
  have := t.distance_cases hg hi
  have := t.distance_cases hi hj
  have := t.distance_cases hg hj
  omega

/-- An entry at least as far from its home as from another slot would be nearer to its home
there. -/
theorem displacement_lt (hi : i < t.capacity) (hj : j < t.capacity) (hne : i ≠ j) {h : UInt64}
    (hle : t.distance i j ≤ t.displacement h j) : t.displacement h i < t.displacement h j := by
  have hadd := distance_add (home_lt (Nat.zero_lt_of_lt hi) h) hi hj hle
  have hpos := distance_pos hi hj hne
  unfold displacement
  omega

/-- The slot so many steps behind a slot is at that distance. -/
theorem distance_add_mod (hi : i < t.capacity) {d : Nat} (hd : d < t.capacity) :
    t.distance i ((i + d) % t.capacity) = d := by
  have h := t.distance_cases hi (Nat.mod_lt (i + d) (Nat.zero_lt_of_lt hi))
  rcases Nat.lt_or_ge (i + d) t.capacity with hlt | hge
  · rw [Nat.mod_eq_of_lt hlt] at h ⊢
    omega
  · rw [Nat.mod_eq_sub_mod hge, Nat.mod_eq_of_lt (by omega)] at h ⊢
    omega

/-! ## Tables of one size -/

theorem distance_congr (hc : u.capacity = t.capacity) : u.distance i j = t.distance i j := by
  simp only [distance, hc]

theorem next_congr (hc : u.capacity = t.capacity) : u.next i = t.next i := by
  simp only [next, hc]

theorem home_congr (hc : u.capacity = t.capacity) (hash : UInt64) : u.home hash = t.home hash := by
  simp only [home, hc]

theorem displacement_congr (hc : u.capacity = t.capacity) (hash : UInt64) :
    u.displacement hash i = t.displacement hash i := by
  rw [displacement, displacement, home_congr hc, distance_congr hc]

/-! ## Reachability -/

theorem reachable_iff {hash : K → UInt64} : t.Reachable hash ↔
    ∀ i k, t.key? i = some k → ∀ j, j < t.capacity →
      t.distance (t.home (hash k)) j < t.distance (t.home (hash k)) i → t.Occupied j := by
  constructor
  · intro hr i k hk j hj hlt
    have hi := lt_capacity_of_key? hk
    have h := hr i k hi hk (t.distance (t.home (hash k)) j) hlt
    rwa [add_distance (home_lt (Nat.zero_lt_of_lt hi) _) hj] at h
  · intro hr i k hi hk d hd
    have hc := Nat.zero_lt_of_lt hi
    have hdc : d < t.capacity := Nat.lt_trans hd (distance_lt hc)
    refine hr i k hk _ (Nat.mod_lt _ hc) ?_
    rw [distance_add_mod (home_lt hc _) hdc]
    exact hd

end LinearProbe.Table
