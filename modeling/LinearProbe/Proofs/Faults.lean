import LinearProbe.Proofs.Intact
import LinearProbe.Table.Checked

/-!
# No operation faults

On an intact table the checked operations do not fault, whatever the closures answer : a probe is
stopped by an empty slot, so is the loop that closes a gap, and entries are moved only to a row that
has room for all of them. Where no row can be allocated an insert or a compaction ends in want of
slots (`capacityOverflow`); everything else answers.

What has become of the entries is what the answer reports. `Change` is such a report, and
`Change.Accounts` says that it accounts for the entries before and after. `Accounted` gathers this
for one operation : it ended with an intact table and a report that accounts for it, or in want of
slots.
-/

namespace LinearProbe.Table.Checked

variable {K : Type} {t t₀ u : Table K} {i j gap n : Nat} {k : K} {v : Int32} {e : K × Int32}

/-! ## Cells -/

theorem ok_bind {α β : Type} (a : α) (f : α → Except Mishap β) : (Except.ok a >>= f) = f a :=
  rfl

theorem require_eq {p : Prop} [Decidable p] {f : Fault} (h : p) : require p f = .ok () :=
  if_pos h

theorem key_eq (hi : i < t.capacity) : key t i = .ok (t.key? i) := by
  rw [key, require_eq (show i < t.keys.size from hi)]
  rfl

theorem value_eq (hs : t.values.size = t.capacity) (hi : i < t.capacity) :
    value t i = .ok (t.value i) := by
  rw [value, require_eq (hs ▸ hi)]
  rfl

theorem write_eq (hs : t.values.size = t.capacity) (hi : i < t.capacity) :
    write t i k v = .ok (t.write i k v) := by
  rw [write, require_eq (show i < t.keys.size from hi), require_eq (hs ▸ hi)]
  rfl

theorem writeValue_eq (hs : t.values.size = t.capacity) (hi : i < t.capacity) :
    writeValue t i v = .ok (t.writeValue i v) := by
  rw [writeValue, require_eq (hs ▸ hi)]
  rfl

theorem vacate_eq (hs : t.values.size = t.capacity) (hi : i < t.capacity) :
    vacate t i = .ok (t.vacate i) := by
  rw [vacate, require_eq (show i < t.keys.size from hi), require_eq (hs ▸ hi)]
  rfl

theorem masked_eq (hc : 0 < t.capacity) : masked t = .ok () :=
  require_eq hc

/-! ## Look-ups -/

/-- The spot is a slot with a key that was accepted, or an empty slot. -/
def Lands (t : Table K) (accepts : Nat → K → Bool) : Spot → Prop
  | .held i => ∃ k, t.key? i = some k ∧ ∃ n, accepts n k = true
  | .free i => i < t.capacity ∧ t.key? i = none

/-- What a closure accepts after it was asked once it accepts. -/
theorem Lands.of_later {accepts : Nat → K → Bool} {spot : Spot}
    (h : Lands t (later accepts) spot) : Lands t accepts spot := by
  cases spot with
  | held i =>
    obtain ⟨k, hk, n, hn⟩ := h
    exact ⟨k, hk, n + 1, hn⟩
  | free i => exact h

theorem exists_locateFrom (accepts : Nat → K → Bool) {g : Nat} (hi : i < t.capacity)
    (hg : g < t.capacity) (hempty : t.key? g = none) (hn : t.distance i g < n) :
    ∃ spot, locateFrom t n accepts i = .ok spot ∧ Lands t accepts spot := by
  induction n generalizing i accepts with
  | zero => exact absurd hn (Nat.not_lt_zero _)
  | succ n ih =>
    rw [locateFrom, key_eq hi, ok_bind]
    cases hk : t.key? i with
    | none => exact ⟨_, rfl, hi, hk⟩
    | some k =>
      have hig : i ≠ g := by
        rintro rfl
        simp [hk] at hempty
      rw [distance_of_next hi hg hig] at hn
      dsimp only
      split
      · next haccepted => exact ⟨_, rfl, k, hk, 0, haccepted⟩
      · obtain ⟨spot, hrun, hspot⟩ := ih (later accepts)
          (next_lt (Nat.zero_lt_of_lt hi)) (Nat.lt_of_succ_lt_succ hn)
        exact ⟨spot, hrun, hspot.of_later⟩

/-- In a table with an empty slot every probe stops. -/
theorem exists_locate (hg : t.HasGap) (h : UInt64) (accepts : Nat → K → Bool) :
    ∃ spot, locate t h accepts = .ok spot ∧ Lands t accepts spot := by
  obtain ⟨g, hgc, hempty⟩ := hg
  have hc := Nat.zero_lt_of_lt hgc
  rw [locate, masked_eq hc]
  exact exists_locateFrom accepts (home_lt hc h) hgc (not_occupied_iff.1 hempty) (distance_lt hc)

/-- A probe does not fault, whatever the predicate answers. -/
theorem locateFrom_ne_fault (accepts : Nat → K → Bool) (hi : i < t.capacity) (f : Fault) :
    locateFrom t n accepts i ≠ .error (.fault f) := by
  induction n generalizing i accepts with
  | zero => exact nofun
  | succ n ih =>
    rw [locateFrom, key_eq hi, ok_bind]
    cases t.key? i with
    | none => exact nofun
    | some k =>
      dsimp only
      split
      · exact nofun
      · exact ih (later accepts) (next_lt (Nat.zero_lt_of_lt hi))

theorem locate_ne_fault (hc : 0 < t.capacity) (h : UInt64) (accepts : Nat → K → Bool) (f : Fault) :
    locate t h accepts ≠ .error (.fault f) := by
  rw [locate, masked_eq hc]
  exact locateFrom_ne_fault accepts (home_lt hc h) f

/-! ## Reports -/

/-- What a call reports to have changed. -/
inductive Change (K : Type) where
  | nothing
  | added (entry : K × Int32)
  | removed (entry : K × Int32)
  | overwritten (old new : Int32)
  | emptied

/-- The entries have changed from `es` to `es'` as reported. -/
def Change.Accounts (es es' : List (K × Int32)) : Change K → Prop
  | nothing => es'.Perm es
  | added e => es'.Perm (e :: es)
  | removed e => es.Perm (e :: es')
  | overwritten old new => ∃ k rest, es.Perm ((k, old) :: rest) ∧ es'.Perm ((k, new) :: rest)
  | emptied => es' = []

/-- The operation on `t` ended with an answer, a table that is intact, and the change of its entries
that is reported, or in want of slots, in which case `wanting` holds. -/
inductive Accounted {α : Type} (t : Table K) (report : α → Change K) (wanting : Prop) :
    Except Mishap (α × Table K) → Prop where
  | ok {a : α} {u : Table K} (hu : u.Intact 0) (h : (report a).Accounts t.entries u.entries) :
      Accounted t report wanting (.ok (a, u))
  | overflow (h : wanting) : Accounted t report wanting (.error (.abort .capacityOverflow))

/-! ## Overwriting -/

theorem accounted_overwrite {report : Option Int32 → Change K} {wanting : Prop} (ht : t.Intact 0)
    (hk : t.key? i = some k) (hreport : ∀ old, report (some old) = .overwritten old v) :
    Accounted t report wanting (do
      let old ← value t i
      return (some old, ← writeValue t i v)) := by
  have hs := ht.aligned.size_values
  have hi := lt_capacity_of_key? hk
  rw [value_eq hs hi, ok_bind, writeValue_eq hs hi, ok_bind]
  refine .ok ht.writeValue ?_
  rw [hreport]
  exact ⟨k, _, entries_perm_vacate (slot?_eq_some.2 ⟨hk, rfl⟩), entries_writeValue_perm hs hk⟩

/-- What overwriting with `v` reports. -/
def overwriting (v : Int32) : Option Int32 → Change K
  | none => .nothing
  | some old => .overwritten old v

theorem accounted_nothing {α : Type} {report : α → Change K} {a : α} (ht : t.Intact 0)
    (ha : report a = .nothing) : Accounted t report False (.ok (a, t)) :=
  .ok ht (by rw [ha]; exact .refl _)

theorem accounted_replace? (ht : t.Intact 0) (h : UInt64) (accepts : Nat → K → Bool) :
    Accounted t (overwriting v) False (replace? t h accepts v) := by
  obtain ⟨spot, hrun, hspot⟩ := exists_locate (ht.hasGap ht.threshold_lt) h accepts
  rw [replace?, hrun, ok_bind]
  cases spot with
  | free i => exact accounted_nothing ht rfl
  | held i =>
    obtain ⟨k, hk, -⟩ := hspot
    exact accounted_overwrite ht hk fun _ => rfl

theorem accounted_replaceAt? (ht : t.Intact 0) (hi : i < t.capacity) :
    Accounted t (overwriting v) False (replaceAt? t i v) := by
  rw [replaceAt?, key_eq hi, ok_bind]
  cases hk : t.key? i with
  | none => exact accounted_nothing ht rfl
  | some k => exact accounted_overwrite ht hk fun _ => rfl

/-! ## Erasing -/

theorem shift_eq (hs : t.values.size = t.capacity) (hj : j < t.capacity) (hgap : gap < t.capacity) :
    shift t j gap k = .ok (t.shift j gap k) := by
  have hs' : (t.write gap k (t.value j)).values.size = (t.write gap k (t.value j)).capacity := by
    rw [capacity_write, ← hs]
    simp [Table.write]
  rw [shift, value_eq hs hj, ok_bind, write_eq hs hgap, ok_bind,
    vacate_eq hs' (by rwa [capacity_write])]
  rfl

/-- With another empty slot `g` the loop that closes a gap ends, since it stops there at the latest,
whatever hashes it is given. -/
theorem exists_closeGapFrom (hash : Nat → K → UInt64) {g : Nat} (hc : Closing t₀ t gap i)
    (hg : t.key? g = none) (hlt : g < t.capacity) (hgap : gap ≠ g) (hig : i ≠ g)
    (hn : t.distance i g ≤ n) :
    ∃ u gap' j, closeGapFrom n hash t gap i = .ok u ∧ Closing t₀ u gap' j := by
  induction n generalizing t gap i hash with
  | zero =>
    rw [distance_of_next hc.index_lt hlt hig] at hn
    omega
  | succ n ih =>
    have hj := next_lt (Nat.zero_lt_of_lt hc.index_lt) (i := i)
    rw [distance_of_next hc.index_lt hlt hig] at hn
    rw [closeGapFrom, key_eq hj, ok_bind]
    cases hk : t.key? (t.next i) with
    | none =>
      refine ⟨t, gap, i, ?_, hc⟩
      dsimp only
      rw [key_eq hc.gap_lt, ok_bind, hc.empty]
      rfl
    | some k =>
      have hne : t.next i ≠ g := (ne_of_key? hk hg).symm
      dsimp only
      split
      · rw [shift_eq hc.size_values hj hc.gap_lt, ok_bind]
        refine ih (later hash) (hc.move hk) ?_ ?_ hne hne ?_
        · rw [key?_shift hc.gap_lt, if_neg hne, if_neg hgap, hg]
        · rwa [capacity_shift]
        · rw [distance_congr capacity_shift]
          omega
      · exact ih (later hash) (hc.stay hj) hg hlt hgap hne (by omega)

/-- The loop that closes a gap does not fault, whatever hashes it is given. -/
theorem closeGapFrom_ne_fault (hash : Nat → K → UInt64) (hc : Closing t₀ t gap i) (f : Fault) :
    closeGapFrom n hash t gap i ≠ .error (.fault f) := by
  induction n generalizing t gap i hash with
  | zero => exact nofun
  | succ n ih =>
    have hj := next_lt (Nat.zero_lt_of_lt hc.index_lt) (i := i)
    rw [closeGapFrom, key_eq hj, ok_bind]
    cases hk : t.key? (t.next i) with
    | none =>
      dsimp only
      rw [key_eq hc.gap_lt, ok_bind, hc.empty]
      exact nofun
    | some k =>
      dsimp only
      split
      · rw [shift_eq hc.size_values hj hc.gap_lt, ok_bind]
        exact ih (later hash) (hc.move hk)
      · exact ih (later hash) (hc.stay hj)

/-- Erasing an entry that is counted takes it out and closes the gap. -/
theorem eraseAt?_eq_closeGapFrom (hs : t.values.size = t.capacity) (he : t.slot? i = some e)
    (hpos : 0 < t.size) (hash : Nat → K → UInt64) : eraseAt? hash t i =
      closeGapFrom (t.takeOut i).gapSteps hash (t.takeOut i) i i >>= fun u =>
        .ok (some e, u) := by
  obtain ⟨hk, hv⟩ := slot?_eq_some.1 he
  have hi := lt_capacity_of_key? hk
  rw [eraseAt?, key_eq hi, ok_bind, hk]
  dsimp only
  rw [value_eq hs hi, ok_bind, vacate_eq hs hi, ok_bind,
    require_eq (show 0 < (t.vacate i).size from hpos), ok_bind, hv]
  change (closeGap hash (t.takeOut i) i >>= fun u => .ok (some e, u)) = _
  rw [closeGap, masked_eq (capacity_takeOut.symm ▸ Nat.zero_lt_of_lt hi), ok_bind]

theorem eraseAt?_ne_fault (hs : t.values.size = t.capacity) (he : t.slot? i = some e)
    (hpos : 0 < t.size) (hash : Nat → K → UInt64) (f : Fault) :
    eraseAt? hash t i ≠ .error (.fault f) := by
  have hc := closing_takeOut hs (lt_capacity_of_key? (slot?_eq_some.1 he).1)
  intro hrun
  rw [eraseAt?_eq_closeGapFrom hs he hpos] at hrun
  cases hclose : closeGapFrom (t.takeOut i).gapSteps hash (t.takeOut i) i i with
  | ok u =>
    rw [hclose] at hrun
    cases hrun
  | error m =>
    rw [hclose] at hrun
    cases hrun
    exact closeGapFrom_ne_fault hash hc f hclose

/-- Erasing at an index of the row leaves an empty slot alone, and takes an entry out. -/
theorem eraseAt?_cases (ht : t.Intact 0) (hi : i < t.capacity) (hash : Nat → K → UInt64) :
    (t.key? i = none ∧ eraseAt? hash t i = .ok (none, t)) ∨
    ∃ e u, eraseAt? hash t i = .ok (some e, u) ∧ Removed t i e u := by
  have hs := ht.aligned.size_values
  cases hk : t.key? i with
  | none => exact Or.inl ⟨rfl, by rw [eraseAt?, key_eq hi, ok_bind, hk]; rfl⟩
  | some k =>
    have he : t.slot? i = some (k, t.value i) := slot?_eq_some.2 ⟨hk, rfl⟩
    obtain ⟨g, hg, hempty⟩ := ht.hasGap ht.threshold_lt
    rw [not_occupied_iff] at hempty
    have hig : i ≠ g := (ne_of_key? hk hempty).symm
    have hn : (t.takeOut i).distance i g ≤ (t.takeOut i).gapSteps := by
      have := distance_lt (t := t.takeOut i) (i := i) (j := g)
        (by rw [capacity_takeOut]; exact Nat.zero_lt_of_lt hi)
      unfold gapSteps
      omega
    obtain ⟨u, gap', j, hrun, hu⟩ := exists_closeGapFrom hash (closing_takeOut hs hi)
      (by rw [key?_takeOut, if_neg hig, hempty]) (by rwa [capacity_takeOut]) hig hig hn
    refine Or.inr ⟨_, u, ?_, removed_of_closing he hu⟩
    rw [eraseAt?_eq_closeGapFrom hs he (ht.counted.size_pos he), hrun, ok_bind]

/-- What erasing reports. -/
def erasing : Option (K × Int32) → Change K
  | none => .nothing
  | some e => .removed e

theorem accounted_eraseAt? (ht : t.Intact 0) (hi : i < t.capacity) (hash : Nat → K → UInt64) :
    Accounted t erasing False (eraseAt? hash t i) := by
  rcases eraseAt?_cases ht hi hash with ⟨-, hrun⟩ | ⟨e, u, hrun, hu⟩ <;> rw [hrun]
  · exact accounted_nothing ht rfl
  · exact .ok (hu.intact ht) hu.entries

theorem accounted_erase? (ht : t.Intact 0) (hash : Nat → K → UInt64) (h : UInt64)
    (accepts : Nat → K → Bool) : Accounted t erasing False (erase? hash t h accepts) := by
  obtain ⟨spot, hrun, hspot⟩ := exists_locate (ht.hasGap ht.threshold_lt) h accepts
  rw [erase?, hrun, ok_bind]
  cases spot with
  | free i => exact accounted_nothing ht rfl
  | held i =>
    obtain ⟨k, hk, -⟩ := hspot
    dsimp only
    rcases eraseAt?_cases ht (lt_capacity_of_key? hk) hash with ⟨hno, -⟩ | ⟨e, u, hrun, hu⟩
    · rw [hk] at hno
      cases hno
    · rw [hrun, ok_bind]
      exact .ok (hu.intact ht) hu.entries

/-! ## Moving all entries -/

theorem exists_place (hs : t.values.size = t.capacity) (hg : t.HasGap) (h : UInt64)
    (e : K × Int32) : ∃ u, place h t e = .ok u ∧ Filled t [e] u := by
  obtain ⟨spot, hrun, hspot⟩ := exists_locate hg h fun _ _ => false
  cases spot with
  | held i =>
    obtain ⟨k, -, n, haccepted⟩ := hspot
    exact absurd haccepted Bool.false_ne_true
  | free i =>
    obtain ⟨hi, hempty⟩ := hspot
    refine ⟨t.write i e.1 e.2, ?_, filled_write hs hi hempty⟩
    rw [place, hrun, ok_bind]
    exact write_eq hs hi

/-- As many entries can be placed as slots are empty, whatever hashes they are given. -/
theorem exists_placeAll (hash : Nat → K → UInt64) {es : List (K × Int32)}
    (hs : t.values.size = t.capacity) (hlen : es.length + t.entries.length ≤ t.capacity) :
    ∃ u, placeAll hash es t = .ok u ∧ Filled t es u := by
  induction es generalizing t hash with
  | nil => exact ⟨t, rfl, .refl hs⟩
  | cons e es ih =>
    rw [List.length_cons] at hlen
    obtain ⟨u, hrun, hu⟩ := exists_place hs (hasGap_iff.2 (by omega)) (hash 0 e.1) e
    have hlen' : es.length + u.entries.length ≤ u.capacity := by
      rw [hu.capacity_eq, hu.entries.length_eq, List.length_append, List.length_singleton]
      omega
    obtain ⟨w, hrun', hw⟩ := ih (later hash) hu.size_values hlen'
    refine ⟨w, ?_, hu.trans hw⟩
    rw [placeAll, hrun, ok_bind, hrun']

variable [Stored K]

/-- A table is resized to a number of slots that fits, unless they cannot be allocated. -/
theorem rehash_cases {slots : Nat} (hc : t.Counted) (hfits : Fits t slots)
    (hash : Nat → K → UInt64) : (∃ u, rehash hash slots t = .ok u ∧ Moved t slots u) ∨
      (isAllocatable K slots = false ∧
        rehash hash slots t = .error (.abort .capacityOverflow)) := by
  unfold rehash
  split
  · have hlen : t.entries.length ≤ slots := by
      rw [← counted_iff.1 hc]
      exact Nat.le_trans hfits.size_le (Nat.le_of_lt hfits.threshold_lt)
    obtain ⟨hs, hroom⟩ := room_row hlen
    obtain ⟨u, hrun, hu⟩ := exists_placeAll hash hs hroom
    have hmoved := moved_of_filled hu
    have hle : u.size ≤ u.threshold := by
      rw [hmoved.size_eq, hmoved.threshold_eq, hfits.threshold_eq]
      exact hfits.size_le
    refine Or.inl ⟨u, ?_, hmoved⟩
    change (placeAll hash t.entries (t.row slots) >>= _) = _
    rw [hrun, ok_bind, require_eq hle]
    rfl
  · next hno => exact Or.inr ⟨Bool.eq_false_iff.2 hno, rfl⟩

theorem grow_cases (hc : t.Counted) (hf : t.loadFactor.isFraction = true) (ha : t.Aligned)
    (hash : Nat → K → UInt64) :
    (∃ slots u, grow hash t = .ok u ∧ Fits t slots ∧ Moved t slots u) ∨
      (¬t.Growable ∧ grow hash t = .error (.abort .capacityOverflow)) := by
  unfold grow Growable
  cases hfit : fitting? t.loadFactor t.size (2 * t.capacity) with
  | none => exact Or.inr ⟨by simp, rfl⟩
  | some slots =>
    have hfits := ha.fits_of_fitting? hf hfit
    rcases rehash_cases hc hfits hash with ⟨u, hrun, hu⟩ | ⟨halloc, hrun⟩
    · exact Or.inl ⟨slots, u, hrun, hfits, hu⟩
    · exact Or.inr ⟨by simp [halloc], hrun⟩

theorem compact_cases (ht : t.Intact 0) (hash : Nat → K → UInt64) :
    (∃ u, compact hash t = .ok u ∧ u.Intact 0 ∧ u.entries.Perm t.entries) ∨
      (¬t.Compactable ∧ compact hash t = .error (.abort .capacityOverflow)) := by
  unfold compact Compactable
  cases hfit : fitting? t.loadFactor t.size minCapacity with
  | none => exact Or.inr ⟨by simp, rfl⟩
  | some slots =>
    have hfits := fits_of_fitting? ht.fraction (c := 3) rfl (Nat.le_refl _) hfit
    dsimp only
    split
    · next hlt =>
      rcases rehash_cases ht.counted hfits hash with ⟨u, hrun, hu⟩ | ⟨halloc, hrun⟩
      · exact Or.inl ⟨u, hrun, intact_of_moved ht.fraction ht.counted hfits hu, hu.entries⟩
      · exact Or.inr ⟨by simp [hlt, halloc], hrun⟩
    · exact Or.inl ⟨t, rfl, ht, .refl _⟩

/-! ## Inserting -/

/-- An entry inserted into an empty slot is stored there, and the table grows if it has to. -/
theorem insertAt_eq (hs : t.values.size = t.capacity) (hi : i < t.capacity)
    (hempty : t.key? i = none) (hash : Nat → K → UInt64) : insertAt hash t i k v =
      if (t.store i k v).threshold < (t.store i k v).size then grow hash (t.store i k v)
      else .ok (t.store i k v) := by
  rw [insertAt, key_eq hi, ok_bind, hempty, require_eq (show (none : Option K).isNone from rfl),
    ok_bind, write_eq hs hi, ok_bind]
  rfl

/-- An entry inserted into an empty slot is one more, whether the table has to grow or not. -/
theorem insertAt_cases (ht : t.Intact 0) (hi : i < t.capacity) (hempty : t.key? i = none)
    (hash : Nat → K → UInt64) :
    (∃ u, insertAt hash t i k v = .ok u ∧ u.Intact 0 ∧ u.entries.Perm ((k, v) :: t.entries)) ∨
      (t.Cramped ∧ insertAt hash t i k v = .error (.abort .capacityOverflow)) := by
  have hstored : (t.store i k v).Intact 1 := ht.store hi hempty (Nat.lt_succ_of_le ht.size_le)
  have hperm := entries_store_perm (k := k) (v := v) ht.aligned.size_values hi hempty
  rw [insertAt_eq ht.aligned.size_values hi hempty]
  split
  · next hlt =>
    rcases grow_cases hstored.counted hstored.fraction hstored.aligned hash with
      ⟨slots, u, hgrow, hfits, hu⟩ | ⟨hno, hgrow⟩
    · exact Or.inl ⟨u, hgrow, intact_of_moved hstored.fraction hstored.counted hfits hu,
        hu.entries.trans hperm⟩
    · have hcongr : (t.store i k v).Growable ↔ Growable { t with size := t.size + 1 } :=
        growable_congr capacity_store rfl rfl
      exact Or.inr ⟨⟨Nat.le_of_lt_succ hlt, fun h => hno (hcongr.2 h)⟩, hgrow⟩
  · next hle =>
    exact Or.inl ⟨_, rfl, ht.store hi hempty (Nat.lt_of_succ_le (Nat.not_lt.1 hle)), hperm⟩

/-- What inserting `k` with `v` reports. -/
def inserting (k : K) (v : Int32) : Option Int32 → Change K
  | none => .added (k, v)
  | some old => .overwritten old v

theorem accounted_insert? (ht : t.Intact 0) (hash : Nat → K → UInt64) (h : UInt64)
    (accepts : Nat → K → Bool) :
    Accounted t (inserting k v) t.Cramped (insert? hash t h accepts k v) := by
  obtain ⟨spot, hrun, hspot⟩ := exists_locate (ht.hasGap ht.threshold_lt) h accepts
  rw [insert?, hrun, ok_bind]
  cases spot with
  | held i =>
    obtain ⟨l, hl, -⟩ := hspot
    exact accounted_overwrite ht hl fun _ => rfl
  | free i =>
    obtain ⟨hi, hempty⟩ := hspot
    dsimp only
    rcases insertAt_cases ht hi hempty hash with ⟨u, hrun, hu, hperm⟩ | ⟨hcramped, hrun⟩ <;>
      rw [hrun]
    · exact .ok hu hperm
    · exact .overflow hcramped

/-! ## Look-ups and traversals -/

omit [Stored K] in
theorem exists_find? (ht : t.Intact 0) (h : UInt64) (accepts : Nat → K → Bool) :
    ∃ e?, find? t h accepts = .ok e? := by
  obtain ⟨spot, hrun, hspot⟩ := exists_locate (ht.hasGap ht.threshold_lt) h accepts
  rw [find?, hrun, ok_bind]
  cases spot with
  | free i => exact ⟨_, rfl⟩
  | held i =>
    obtain ⟨k, hk, -⟩ := hspot
    have hi := lt_capacity_of_key? hk
    refine ⟨some (k, t.value i), ?_⟩
    dsimp only
    rw [key_eq hi, ok_bind, hk]
    dsimp only
    rw [value_eq ht.aligned.size_values hi]
    rfl

omit [Stored K] in
theorem exists_valueAt? (ht : t.Intact 0) (hi : i < t.capacity) : ∃ v?, valueAt? t i = .ok v? := by
  rw [valueAt?, key_eq hi, ok_bind]
  cases t.key? i with
  | none => exact ⟨_, rfl⟩
  | some k =>
    dsimp only
    rw [value_eq ht.aligned.size_values hi]
    exact ⟨_, rfl⟩

omit [Stored K] in
theorem start_eq (hc : 0 < t.capacity) : start t = .ok t.start := by
  rw [start, masked_eq hc, ok_bind, key_eq (Nat.sub_lt hc Nat.one_pos)]
  rfl

omit [Stored K] in
theorem split_eq (ht : t.Intact 0) : split t = .ok () := by
  have hs : t.start ≤ t.keys.size := Nat.le_of_lt (start_lt ht.capacity_pos)
  have hs' : t.start ≤ t.values.size := ht.aligned.size_values ▸ hs
  rw [split, start_eq ht.capacity_pos, ok_bind, require_eq hs, ok_bind, require_eq hs']

omit [Stored K] in
theorem toList_eq (ht : t.Intact 0) : toList t = .ok t.toList := by
  rw [toList, split_eq ht]
  rfl

omit [Stored K] in
/-- A slot that is visited holds an entry. -/
theorem exists_key?_of_visited (hi : (t.visits.toList t)[n]? = some i) : ∃ k, t.key? i = some k :=
  Option.isSome_iff_exists.1
    (List.mem_filter.1 (List.mem_of_mem_take (List.mem_of_getElem? hi))).2

omit [Stored K] in
theorem accounted_setVisited (ht : t.Intact 0) (n : Nat) :
    Accounted t (overwriting v) False (setVisited t n v) := by
  rw [setVisited, split_eq ht, ok_bind]
  cases hi : (t.visits.toList t)[n]? with
  | none => exact accounted_nothing ht rfl
  | some i =>
    obtain ⟨k, hk⟩ := exists_key?_of_visited hi
    exact accounted_overwrite ht hk fun _ => rfl

omit [Stored K] in
theorem newCursor_eq (hc : 0 < t.capacity) : newCursor t = .ok (Cursor.new t) := by
  rw [newCursor, start_eq hc]
  rfl

omit [Stored K] in
theorem seek_eq (hc : 0 < t.capacity) (s n m : Nat) :
    seek t s n m = .ok (Cursor.seek t s n m) := by
  induction n generalizing m with
  | zero => rfl
  | succ n ih =>
    rw [seek, Cursor.seek, key_eq (Nat.mod_lt _ hc), ok_bind]
    cases t.key? ((s + m) % t.capacity) with
    | none => exact ih (m + 1)
    | some k => rfl

omit [Stored K] in
theorem advance_eq (hc : 0 < t.capacity) (c : Cursor) : advance t c = .ok (c.advance t) := by
  rw [advance, masked_eq hc, ok_bind, seek_eq hc, ok_bind, Cursor.advance]
  cases Cursor.seek t c.start (t.capacity - c.visited) c.visited <;> rfl

/-! ## Probe lengths -/

/-- The counts are filled up to the place that is added to. -/
theorem add_eq (counts : Array Nat) (d : Nat) : add counts d = .ok (Histogram.add counts d) := by
  have hd : d < (counts ++ Array.replicate (d + 1 - counts.size) 0).size := by
    rw [Array.size_append, Array.size_replicate]
    omega
  rw [add, require_eq hd]
  rfl

omit [Stored K] in
theorem exists_countAll (hash : Nat → K → UInt64) {is : List Nat} (his : ∀ i ∈ is, i < t.capacity)
    (counts : Array Nat) : ∃ counts', countAll t hash is counts = .ok counts' := by
  induction is generalizing hash counts with
  | nil => exact ⟨counts, rfl⟩
  | cons i is ih =>
    obtain ⟨hi, his⟩ := List.forall_mem_cons.1 his
    rw [countAll, key_eq hi, ok_bind]
    cases t.key? i with
    | none => exact ih hash his counts
    | some k =>
      dsimp only
      rw [add_eq, ok_bind]
      exact ih (later hash) his _

omit [Stored K] in
/-- The entries are counted, whatever hashes they are given. -/
theorem exists_histogram (hc : 0 < t.capacity) (hash : Nat → K → UInt64) :
    ∃ h, histogram hash t = .ok h := by
  have hrange : ∀ i ∈ List.range t.capacity, i < t.capacity := fun i hi => List.mem_range.1 hi
  obtain ⟨counts, hrun⟩ := exists_countAll hash hrange #[]
  rw [histogram, masked_eq hc, ok_bind, hrun]
  exact ⟨_, rfl⟩

end LinearProbe.Table.Checked
