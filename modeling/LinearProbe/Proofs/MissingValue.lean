import LinearProbe.Proofs.Actions

/-!
# The missing value is never stored

Whatever is done to a new map, no slot ever holds its missing value (`Map.never_stored`), since
every edit checks the values it brings in. That makes the plain answers unambiguous : `Map.get`
answers with the missing value exactly for the keys that the map does not contain
(`Map.get_eq_missing_iff`), and a loop over plain integers that stops at the missing value has
collected every value (`Entries.collectInts_eq`). If the hash function respects equality, every
value that is stored can be looked up (`Table.Arranged.locate_held`), so the map contains a value
exactly if some key has it.
-/

namespace LinearProbe

/-! ## Loops over plain integers -/

theorem Entries.collectInts_eq {K : Type} {missing : Int32} {n : Nat} {it : Entries K}
    (h : ∀ e ∈ it.toList, e.2 ≠ missing) :
    it.collectInts missing n =
      if it.toList.length < n then some (it.toList.map Prod.snd) else none := by
  induction n generalizing it with
  | zero => rfl
  | succ n ih =>
    rw [collectInts, nextInt]
    cases hnext : it.next? with
    | none => simp [toList_of_next?_eq_none hnext]
    | some next =>
      obtain ⟨e, it'⟩ := next
      have hlist := toList_of_next?_eq_some hnext
      rw [hlist, List.forall_mem_cons] at h
      simp only [if_neg h.1, ih h.2, hlist, List.length_cons, Nat.add_lt_add_iff_right,
        List.map_cons]
      split <;> rfl

/-! ## Values that can be looked up -/

namespace Table

variable {K : Type} [BEq K] [EquivBEq K] {hash : K → UInt64} {t : Table K} {i : Nat} {k : K}

/-- The probe for a key stops at the slot that holds an equal key of the same hash. -/
theorem Arranged.locate_of_beq {l : K} (ht : t.Arranged hash) (hl : t.key? i = some l)
    (hlk : (l == k) = true) (hhash : hash l = hash k) :
    t.locate (hash k) (· == k) = .ok (.held i) := by
  have hi := lt_capacity_of_key? hl
  have hc := Nat.zero_lt_of_lt hi
  refine locateFrom_of_passes (home_lt hc _) (fun m hm hlt => ?_) hl hlk (distance_lt hc)
  rw [← hhash] at hlt
  obtain ⟨p, hp⟩ := occupied_iff.1 (reachable_iff.1 ht.reachable i l hl m hm hlt)
  refine ⟨p, hp, Bool.eq_false_iff.2 fun hpk => ?_⟩
  have := ht.distinct m i p l hp hl (BEq.trans hpk (BEq.symm hlk))
  subst this
  exact absurd hlt (Nat.lt_irrefl _)

/-- The probe for a key that is held stops there. -/
theorem Arranged.locate_held (ht : t.Arranged hash) (hk : t.key? i = some k) :
    t.locate (hash k) (· == k) = .ok (.held i) :=
  ht.locate_of_beq hk BEq.rfl rfl

end Table

/-! ## Maps without the missing value -/

namespace Map

variable {K : Type} [BEq K] {m m' : Map K} {k : K} {v : Int32}

/-- A look-up does not end, finds no key, or finds the value of an entry. -/
theorem lookup_cases (m : Map K) (k : K) :
    (∃ a, m.get? k = .error a ∧ m.contains k = .error a) ∨
    (m.get? k = .ok none ∧ m.contains k = .ok false) ∨
    ∃ e ∈ m.table.entries, m.get? k = .ok (some e.2) ∧ m.contains k = .ok true := by
  unfold get? contains Table.get?
  cases hrun : m.table.indexOf? (m.hash k) (· == k) with
  | error a => exact Or.inl ⟨a, rfl, rfl⟩
  | ok i? =>
    cases i? with
    | none => exact Or.inr (Or.inl ⟨rfl, rfl⟩)
    | some i =>
      obtain ⟨l, hl⟩ := Table.exists_of_indexOf? hrun
      have he : (l, m.table.value i) ∈ m.table.entries :=
        Table.mem_entries.2 ⟨i, Table.slot?_eq_some.2 ⟨hl, rfl⟩⟩
      exact Or.inr (Or.inr ⟨_, he, rfl, rfl⟩)

/-- With no missing value stored a look-up answers with it exactly for keys that are absent. -/
theorem get_eq_missing_iff (h : ∀ e ∈ m.table.entries, e.2 ≠ m.missing) (k : K) :
    m.get k = .ok m.missing ↔ m.contains k = .ok false := by
  unfold get getD
  rcases m.lookup_cases k with
    ⟨a, hget, hcontains⟩ | ⟨hget, hcontains⟩ | ⟨e, he, hget, hcontains⟩ <;> rw [hget, hcontains]
  · simp [Except.map]
  · simp [Except.map]
  · simpa [Except.map] using h e he

/-- In a map with an empty slot all look-ups answer. -/
theorem exists_get (hg : m.table.HasGap) (k : K) :
    ∃ v b, m.get k = .ok v ∧ m.contains k = .ok b := by
  obtain ⟨spot, hloc, -⟩ := Table.exists_locate hg (m.hash k) (· == k)
  have hcontains : m.contains k = .ok spot.held?.isSome := by
    rw [contains, Table.indexOf?, hloc]
    rfl
  unfold get getD
  rcases m.lookup_cases k with ⟨a, -, herror⟩ | ⟨hget, -⟩ | ⟨e, -, hget, -⟩
  · rw [hcontains] at herror
    cases herror
  · exact ⟨m.missing, _, by rw [hget]; rfl, hcontains⟩
  · exact ⟨e.2, _, by rw [hget]; rfl, hcontains⟩

/-- With no missing value stored, and entries in their places, a value is contained exactly if some
key has it. -/
theorem containsValue_iff [EquivBEq K] (h : ∀ e ∈ m.table.entries, e.2 ≠ m.missing)
    (hc : m.table.Counted) (ha : m.table.Arranged m.hash) :
    m.containsValue v = true ↔ ∃ k, m.get? k = .ok (some v) := by
  have hcontains : m.containsValue v = true ↔ v ≠ m.missing ∧ ∃ e ∈ m.table.entries, e.2 = v := by
    simp [containsValue, Table.containsValue, (Table.toList_perm hc).mem_iff]
  rw [hcontains]
  constructor
  · rintro ⟨-, e, he, rfl⟩
    obtain ⟨i, hi⟩ := Table.mem_entries.1 he
    obtain ⟨hk, hv⟩ := Table.slot?_eq_some.1 hi
    refine ⟨e.1, ?_⟩
    rw [get?, Table.get?, Table.indexOf?, ha.locate_held hk, ← hv]
    rfl
  · rintro ⟨k, hk⟩
    rcases m.lookup_cases k with ⟨a, hget, -⟩ | ⟨hget, -⟩ | ⟨e, he, hget, -⟩ <;> rw [hk] at hget <;>
      cases hget
    exact ⟨h e he, e, he, rfl⟩

/-! ## Runs -/

variable [Stored K] {hash : K → UInt64} {missing : Int32} {as : List (Action K)}
  {rs : List (Except Failure Unit)}

/-- After any actions on a new map no slot holds its missing value. So a look-up answers with it
exactly for absent keys, and all look-ups answer unless an action overflowed; a loop over plain
integers collects every value and stops at the call behind the last one; and if the hash function
respects equality the map contains a value exactly if some key has it. -/
theorem never_stored (hm : m = empty missing hash ∨ ∃ config, ofConfig config hash = .ok m)
    (hrun : m.actAll as = (rs, m')) :
    m'.missing = m.missing ∧ (∀ i k, m'.table.slot? i ≠ some (k, m.missing)) ∧
      (∀ k, m'.get k = .ok m.missing ↔ m'.contains k = .ok false) ∧
      (overflows rs = 0 → ∀ k, ∃ v b, m'.get k = .ok v ∧ m'.contains k = .ok b) ∧
      m'.toList.Perm m'.table.entries ∧ m'.toList.length = m'.size ∧
      (∀ n, m'.iter.collectInts m.missing n =
        if m'.size < n then some (m'.toList.map Prod.snd) else none) ∧
      (∀ [EquivBEq K], Respects hash →
        ∀ v, m'.containsValue v = true ↔ ∃ k, m'.get? k = .ok (some v)) := by
  obtain ⟨hhash, c, loadFactor, htable, hmin, hlt, hf⟩ := exists_of_new hm
  have ht : m.table.Intact 0 := htable ▸ Table.intact_empty hmin hlt hf
  have hentries : m.table.entries = [] := htable ▸ Table.entries_empty _ _
  obtain ⟨u, hstate, ⟨hstorable, harranged⟩, hu⟩ := actAll_rule
    (P := fun t => (∀ e ∈ t.entries, e.2 ≠ m.missing) ∧
      ∀ [EquivBEq K], Respects m.hash → t.Arranged m.hash)
    (fun _ _ _ _ ht hp h => ⟨h.forall_storable ht hp.1, fun hh => h.arranged ht hh (hp.2 hh)⟩)
    ht ⟨by simp [hentries], fun _ => htable ▸ Table.arranged_empty _ _⟩ as
  rw [hrun] at hstate hu
  rw [Nat.zero_add] at hu
  obtain rfl : m' = { m with table := u } := hstate
  have hlist : u.toList.Perm u.entries := Table.toList_perm hu.counted
  have hlength : u.toList.length = u.size :=
    hlist.length_eq.trans (Table.counted_iff.1 hu.counted).symm
  refine ⟨rfl, ?_, get_eq_missing_iff hstorable, ?_, hlist, hlength, ?_, ?_⟩
  · intro i k hslot
    exact hstorable _ (Table.mem_entries.2 ⟨i, hslot⟩) rfl
  · intro h0 k
    rw [show overflows _ = 0 from h0] at hu
    exact exists_get (hu.hasGap hu.threshold_lt) k
  · intro n
    refine (Entries.collectInts_eq fun e he => hstorable e (hlist.mem_iff.1 he)).trans ?_
    exact congrArg (fun len => if len < n then _ else none) hlength
  · intro _ hh v
    exact containsValue_iff hstorable hu.counted (harranged (hhash ▸ hh))

/-- A map with the missing value zero that holds -1. -/
def lenient : Map UInt64 :=
  ((empty 0 id).actAll [.command (.insertMany [(3, 30), (4, -1), (5, 50)])]).2

/-- Actions that try to store -1 in every way, some of them by copying a map that holds it. -/
def attempts : List (Action UInt64) :=
  [.command (.insert 1 (-1)), .command (.insert 1 10), .command (.getOrInsertWith 2 fun _ => -1),
    .insertMap lenient, .command (.combine 1 5 fun _ _ => -1),
    .command (.insertMany [(6, 60), (7, -1)]), .walk [.next, .set (-1), .set 31, .erase, .next],
    .setVisited 0 (-1), .setVisited 0 61]

theorem never_stored_attempts : lenient.toList = [(5, 50), (4, -1), (3, 30)] ∧
    ((empty (-1) fun _ => 8).actAll attempts).2.toList = [(6, 61)] ∧
    (∀ i k, ((empty (-1) fun _ => 8).actAll attempts).2.table.slot? i ≠ some (k, -1)) ∧
    ∀ n, ((empty (-1) fun _ => 8).actAll attempts).2.iter.collectInts (-1) n =
      if 1 < n then some [61] else none := by
  have hlist : lenient.toList = [(5, 50), (4, -1), (3, 30)] ∧
      ((empty (-1) fun _ => 8).actAll attempts).2.toList = [(6, 61)] ∧
      ((empty (-1) fun _ => 8).actAll attempts).2.size = 1 := by decide +kernel
  have hrun : (empty (-1) fun _ => 8).actAll attempts =
      (((empty (-1) fun _ => 8).actAll attempts).1, ((empty (-1) fun _ => 8).actAll attempts).2) :=
    Prod.mk.eta.symm
  obtain ⟨-, hslot, -, -, -, -, hcollect, -⟩ := never_stored (Or.inl rfl) hrun
  refine ⟨hlist.1, hlist.2.1, hslot, fun n => (hcollect n).trans ?_⟩
  rw [hlist.2.1, hlist.2.2]
  rfl

end Map

end LinearProbe
