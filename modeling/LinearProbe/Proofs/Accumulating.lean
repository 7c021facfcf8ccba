import LinearProbe.Proofs.Lookups

/-!
# Accumulating values

A map whose missing value is an identity of a function can be used to accumulate with it. A key that
is absent then stands for the identity, whether it never had a value or lost it because the values
combined so far cancelled out, so combining one more value acts on what a look-up answers for the
key, and for no other key (`Dictionary.valueOf_combine`). By induction over the entries that are
combined, a look-up of a key answers with the fold over those with an equal key
(`Dictionary.valueOf_combineAll`), which for an associative and commutative function does not depend
on their order (`accumulated_perm`). The map does the same as the dictionary that it represents
(`Map.accumulates`).
-/

set_option linter.unusedSectionVars false

namespace LinearProbe

variable {K : Type} [BEq K] {f : Int32 → Int32 → Int32} {es es' : List (K × Int32)} {k k' : K}
  {v : Int32}

/-- What `f` makes of the value `v` of a key and of the entries with an equal key, in order. -/
def accumulated (f : Int32 → Int32 → Int32) (es : List (K × Int32)) (k : K) (v : Int32) : Int32 :=
  (es.filter fun e => e.1 == k).foldl (fun acc e => f acc e.2) v

theorem accumulated_cons {e : K × Int32} : accumulated f (e :: es) k v =
    accumulated f es k (if e.1 == k then f v e.2 else v) := by
  unfold accumulated
  rw [List.filter_cons]
  split <;> rfl

/-- The order of the entries does not matter to a function to which the order of values does not. -/
theorem accumulated_perm (hassoc : ∀ x y z, f (f x y) z = f x (f y z))
    (hcomm : ∀ x y, f x y = f y x) (hp : es'.Perm es) :
    accumulated f es' k v = accumulated f es k v := by
  refine (hp.filter _).foldl_eq' (fun x _ y _ z => ?_) v
  rw [hassoc, hassoc, hcomm x.2]

/-- The calls that combine entries one after the other. -/
def combines (f : Int32 → Int32 → Int32) (es : List (K × Int32)) : List (Map.Command K) :=
  es.map fun e => .combine e.1 e.2 f

/-! ## Dictionaries -/

namespace Dictionary

variable [EquivBEq K] {d : Dictionary K}

/-- The value of a key, or the missing value. -/
def valueOf (d : Dictionary K) (k : K) : Int32 :=
  (d.get? k).getD d.missing

theorem valueOf_congr (hk : (k == k') = true) : d.valueOf k = d.valueOf k' := by
  rw [valueOf, valueOf, get?, get?, find?_congr hk]

theorem missing_settle : (d.settle k v).missing = d.missing := by
  unfold settle
  split
  · rfl
  · exact missing_set

/-- A key that is settled has the value, also if that is the missing value. -/
theorem valueOf_settle : (d.settle k v).valueOf k' = if k == k' then v else d.valueOf k' := by
  rw [valueOf, missing_settle, settle, get?]
  by_cases hv : v = d.missing
  · rw [if_pos hv, find?_erase]
    split
    · exact hv.symm
    · rfl
  · rw [if_neg hv, find?_set]
    split
    · rfl
    · rfl

theorem missing_combine : (d.perform (.combine k v f)).state.missing = d.missing := by
  simp only [perform, permitting]
  split
  · rfl
  · exact missing_settle

theorem perform_combine (hl : ∀ x, f d.missing x = x) : d.perform (.combine k v f) =
    d.permitting v (.ok (.value (f (d.valueOf k) v)) (d.settle k (f (d.valueOf k) v))) := by
  rw [perform, valueOf]
  cases d.get? k with
  | none => simp only [Option.getD_none, hl]
  | some old => rfl

/-- Combining a value with that of a key acts on what a look-up of the key answers. -/
theorem valueOf_combine (hl : ∀ x, f d.missing x = x) (hr : ∀ x, f x d.missing = x) :
    (d.perform (.combine k v f)).state.valueOf k' =
      if k == k' then f (d.valueOf k') v else d.valueOf k' := by
  rw [perform_combine hl, permitting]
  by_cases hv : v = d.missing
  · rw [if_pos hv, hv, hr]
    exact (ite_self _).symm
  · rw [if_neg hv]
    refine valueOf_settle.trans ?_
    split
    · next hk => rw [valueOf_congr hk]
    · rfl

/-- Combining entries one after the other accumulates them for each key. -/
theorem valueOf_combineAll (hl : ∀ x, f d.missing x = x) (hr : ∀ x, f x d.missing = x) :
    (d.performAll (combines f es)).2.valueOf k =
      accumulated f es k (d.valueOf k) := by
  induction es generalizing d with
  | nil => rfl
  | cons e es ih =>
    rw [accumulated_cons, ← valueOf_combine hl hr]
    exact ih (by rwa [missing_combine]) (by rwa [missing_combine])

theorem missing_combineAll :
    (d.performAll (combines f es)).2.missing = d.missing := by
  induction es generalizing d with
  | nil => rfl
  | cons e es ih => exact ih.trans missing_combine

end Dictionary

/-! ## Maps -/

namespace Map

variable [EquivBEq K] {hash : K → UInt64} {m : Map K} {d : Dictionary K}

theorem Represents.get (h : Represents hash m d) (hh : Respects hash) (k : K) :
    m.get k = .ok (d.valueOf k) := by
  rw [Map.get, h.getD hh, ← h.missing_eq]
  rfl

/-- A key is in the map exactly if a look-up answers with another value than the missing one. -/
theorem Represents.contains_eq (h : Represents hash m d) (hh : Respects hash) (k : K) :
    m.contains k = .ok (decide (d.valueOf k ≠ d.missing)) := by
  rw [h.contains hh, Dictionary.valueOf, Dictionary.get?]
  cases hfind : d.find? k with
  | none => simp
  | some e => simp [h.storable e (List.mem_of_find?_eq_some hfind)]

variable [Stored K]

/-- Look-ups after entries were combined into a map that represents a dictionary. -/
theorem Represents.get_combines (h : Represents hash m d) (hh : Respects hash)
    (hl : ∀ x, f m.missing x = x) (hr : ∀ x, f x m.missing = x)
    (hes : ∀ r ∈ (m.performAll (combines f es)).1, r ≠ .error (.aborted .capacityOverflow))
    (k : K) : (m.performAll (combines f es)).2.get k = .ok (accumulated f es k (d.valueOf k)) ∧
      (m.performAll (combines f es)).2.contains k =
        .ok (decide (accumulated f es k (d.valueOf k) ≠ m.missing)) := by
  obtain ⟨-, hlast⟩ := h.performAll hh (combines f es) hes
  rw [← h.missing_eq] at hl hr ⊢
  rw [hlast.get hh, hlast.contains_eq hh, Dictionary.valueOf_combineAll hl hr,
    Dictionary.missing_combineAll]
  exact ⟨rfl, rfl⟩

/-- Entries combined one after the other into a map that was reached without overflows, whose
missing value is a two-sided identity of the function, leave for each key the fold over the entries
with an equal key, beginning with what the map had for it, and the map contains the key unless that
is the identity. If the function is associative and commutative, look-ups answer the same whatever
the order was. -/
theorem accumulates (h : Reached hash 0 m) (hh : Respects hash) (hl : ∀ x, f m.missing x = x)
    (hr : ∀ x, f x m.missing = x) (es : List (K × Int32))
    (hes : ∀ r ∈ (m.performAll (combines f es)).1, r ≠ .error (.aborted .capacityOverflow)) :
    (∀ k, ∃ v, m.get k = .ok v ∧
      (m.performAll (combines f es)).2.get k = .ok (accumulated f es k v) ∧
      (m.performAll (combines f es)).2.contains k =
        .ok (decide (accumulated f es k v ≠ m.missing))) ∧
    ((∀ x y z, f (f x y) z = f x (f y z)) → (∀ x y, f x y = f y x) →
      ∀ es' : List (K × Int32), es'.Perm es →
        (∀ r ∈ (m.performAll (combines f es')).1, r ≠ .error (.aborted .capacityOverflow)) →
        ∀ k, (m.performAll (combines f es')).2.get k = (m.performAll (combines f es)).2.get k) := by
  have hm := represents_of_reached h hh
  refine ⟨fun k => ⟨_, hm.get hh k, hm.get_combines hh hl hr hes k⟩, ?_⟩
  intro hassoc hcomm es' hp hes' k
  rw [(hm.get_combines hh hl hr hes k).1, (hm.get_combines hh hl hr hes' k).1,
    accumulated_perm hassoc hcomm hp]

/-- A map that counts, and has one key twice under different tags in its history. -/
def tally : Map Tagged :=
  ((empty 0 fun _ => 8).actAll [.command (.insertMany [(⟨8, 1, 0⟩, 3), (⟨8, 2, 0⟩, 5)]),
    .command (.erase ⟨8, 1, 7⟩)]).2

/-- Counts that cancel out and come back, one that is refused, and one that wraps. -/
def counts : List (Tagged × Int32) :=
  [(⟨8, 3, 0⟩, 4), (⟨8, 2, 1⟩, -5), (⟨8, 1, 0⟩, 2147483647), (⟨8, 3, 1⟩, 0), (⟨8, 2, 2⟩, 6),
    (⟨8, 1, 1⟩, 1), (⟨8, 3, 2⟩, -4)]

theorem accumulates_counts :
    Reached (fun _ => 8) 0 tally ∧ Respects (fun _ : Tagged => (8 : UInt64)) ∧
    (∀ r ∈ (tally.performAll (combines (· + ·) counts)).1,
      r ≠ .error (.aborted .capacityOverflow)) ∧
    (tally.performAll (combines (· + ·) counts)).2.get ⟨8, 1, 9⟩ = .ok (-2147483648) ∧
    (tally.performAll (combines (· + ·) counts)).2.contains ⟨8, 3, 9⟩ = .ok false ∧
    (∀ k, ∃ v, tally.get k = .ok v ∧
      (tally.performAll (combines (· + ·) counts)).2.get k =
        .ok (accumulated (· + ·) counts k v)) ∧
    ∀ k, (tally.performAll (combines (· + ·) counts.reverse)).2.get k =
      (tally.performAll (combines (· + ·) counts)).2.get k := by
  have hreached : Reached (fun _ => 8) 0 tally := ⟨_, _, _, Or.inl rfl, rfl, by decide +kernel⟩
  have hh : Respects (fun _ : Tagged => (8 : UInt64)) := fun _ _ _ => rfl
  have hcounts : ∀ r ∈ (tally.performAll (combines (· + ·) counts)).1,
      r ≠ .error (.aborted .capacityOverflow) := by decide +kernel
  obtain ⟨hget, horder⟩ := accumulates (f := (· + ·)) hreached hh Int32.zero_add Int32.add_zero
    counts hcounts
  refine ⟨hreached, hh, hcounts, by decide +kernel, by decide +kernel, fun k => ?_,
    horder Int32.add_assoc Int32.add_comm _ counts.reverse_perm (by decide +kernel)⟩
  obtain ⟨v, hv, hlast, -⟩ := hget k
  exact ⟨v, hv, hlast⟩

end Map

end LinearProbe
