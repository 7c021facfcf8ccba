import LinearProbe.Proofs.Extensionality
import LinearProbe.Proofs.Lookups

/-!
# Entries laid over a map

What is found for a key after entries were laid over a map is said by `overlay` : the value of the
last of them with an equal key, under the key that was there first. A dictionary in which entries
are set one after the other is looked up so (`Dictionary.find?_setAll`). Inserting a list into a map
that represents a dictionary does the same as long as the values may be stored and no overflow ends
it (`Represents.insertList`), and stops at the first one that may not
(`Represents.exists_insertList_stopped`).

When a list is inserted again all its keys are held, so values are overwritten where they are
(`Represents.insertList_of_held`); look-ups find what they found before, so all slots are as before
(`Represents.eq_of_find?_eq`). Copying a map and inserting many entries are such insertions
(`bulk_inserts_overlay`).
-/

set_option linter.unusedSectionVars false

namespace LinearProbe

/-- The entry for a key when entries are laid over a map that had the entry `e?` for it: the value
is that of the last of them with an equal key, and the key is the one that was there first. -/
def overlay {K : Type} [BEq K] (es : List (K × Int32)) (k : K) (e? : Option (K × Int32)) :
    Option (K × Int32) :=
  match es.reverse.find? fun e => e.1 == k with
  | none => e?
  | some last => some (((e?.or (es.find? fun e => e.1 == k)).getD last).1, last.2)

section Overlay

variable {K : Type} [BEq K] {es : List (K × Int32)} {k : K} {e? : Option (K × Int32)}
  {e : K × Int32}

theorem overlay_cons : overlay (e :: es) k e? =
    overlay es k (if e.1 == k then some ((e?.getD e).1, e.2) else e?) := by
  unfold overlay
  rw [List.reverse_cons, List.find?_append]
  by_cases hk : e.1 == k
  · cases es.reverse.find? fun e => e.1 == k <;> cases e? <;> simp [hk]
  · cases es.reverse.find? fun e => e.1 == k <;> simp [hk]

/-- Laying the same entries over a map again changes nothing. -/
theorem overlay_overlay : overlay es k (overlay es k e?) = overlay es k e? := by
  unfold overlay
  cases es.reverse.find? fun e => e.1 == k <;> simp

theorem isSome_overlay (he : e ∈ es) (hk : (e.1 == k) = true) : (overlay es k e?).isSome := by
  unfold overlay
  split
  · next hnone =>
    have := List.find?_eq_none.1 hnone e (List.mem_reverse.2 he)
    exact absurd hk this
  · rfl

/-- Entries with unequal keys can be laid over a map in any order. -/
theorem overlay_of_unequal [EquivBEq K] (hes : Map.Unequal es) : overlay es k e? =
    (es.find? fun e => e.1 == k).elim e? fun s => some ((e?.getD s).1, s.2) := by
  have hrev : Map.Unequal es.reverse :=
    List.pairwise_reverse.2 (hes.imp fun hxy => by rwa [BEq.comm])
  have hfind : (es.reverse.find? fun e => e.1 == k) = es.find? fun e => e.1 == k := by
    ext e
    rw [hrev.find?_eq_some_iff, hes.find?_eq_some_iff, List.mem_reverse]
  unfold overlay
  rw [hfind]
  cases es.find? fun e => e.1 == k <;> cases e? <;> rfl

end Overlay

/-! ## Dictionaries -/

namespace Dictionary

variable {K : Type} [BEq K] [EquivBEq K] {d : Dictionary K} {k : K} {es : List (K × Int32)}

/-- Entries set one after the other. -/
def setAll (d : Dictionary K) (es : List (K × Int32)) : Dictionary K :=
  es.foldl (fun d e => d.set e.1 e.2) d

theorem missing_setAll : (d.setAll es).missing = d.missing := by
  induction es generalizing d with
  | nil => rfl
  | cons e es ih => exact (ih (d := d.set e.1 e.2)).trans missing_set

theorem find?_setAll : (d.setAll es).find? k = overlay es k (d.find? k) := by
  induction es generalizing d with
  | nil => rfl
  | cons e es ih =>
    have hfirst := ih (d := d.set e.1 e.2)
    rw [overlay_cons]
    refine hfirst.trans (congrArg _ ?_)
    rw [find?_set]
    by_cases hk : e.1 == k
    · rw [if_pos hk, if_pos hk, find?_congr hk]
    · rw [if_neg hk, if_neg hk]

end Dictionary

namespace Map

variable {K : Type} [BEq K] {m m' : Map K} {es : List (K × Int32)} {e : K × Int32}

/-- The map `m'` is what `m` becomes when entries are laid over it, and it lists what look-ups find
in it. -/
structure Overlaid (m : Map K) (es : List (K × Int32)) (m' : Map K) : Prop where
  hash_eq : m'.hash = m.hash
  missing_eq : m'.missing = m.missing
  getPair? : ∀ k, ∃ e?, m.getPair? k = .ok e? ∧ m'.getPair? k = .ok (overlay es k e?)
  mem_toList : ∀ e, e ∈ m'.toList ↔ m'.getPair? e.1 = .ok (some e)
  unequal : Unequal m'.toList

/-- An operation on `m` lays entries over it, up to the first with the missing value, and if there
is such an entry it fails for that value. -/
structure LaysOver (m : Map K) (es : List (K × Int32)) (failure : Error → Failure)
    (o : Outcome Failure (Map K) Unit) : Prop where
  ok_iff : o.result = .ok () ↔ ∀ e ∈ es, e.2 ≠ m.missing
  complete : (∀ e ∈ es, e.2 ≠ m.missing) → Overlaid m es o.state
  stopped : ∀ before e after, es = before ++ e :: after → (∀ x ∈ before, x.2 ≠ m.missing) →
    e.2 = m.missing → o.result = .error (failure (.missingValue e.2)) ∧ Overlaid m before o.state

/-! ## Inserting one after the other -/

variable [Stored K]

theorem insertList_append {es' : List (K × Int32)} : m.insertList (es ++ es') =
    match m.insertList es with
    | .ok _ m' => m'.insertList es'
    | .error e m' => .error e m' := by
  induction es generalizing m with
  | nil => rfl
  | cons e es ih =>
    obtain ⟨k, v⟩ := e
    rw [List.cons_append, insertList, insertList]
    cases m.insert? k v with
    | ok _ m' => exact ih
    | error _ _ => rfl

theorem insertList_cons_of_eq_missing (hv : e.2 = m.missing) :
    m.insertList (e :: es) = .error (.refused (.missingValue e.2)) m := by
  rw [insertList, insert?, permitting, permit, if_pos hv]

variable [EquivBEq K] {hash : K → UInt64} {d : Dictionary K}

namespace Represents

/-- Entries whose values may be stored are all inserted, unless that would need too many slots. -/
theorem insertList (h : Represents hash m d) (hh : Respects hash)
    (hes : ∀ e ∈ es, e.2 ≠ m.missing) :
    (∃ m', m.insertList es = .ok () m' ∧ Represents hash m' (d.setAll es)) ∨
      ∃ m', m.insertList es = .error (.aborted .capacityOverflow) m' := by
  induction es generalizing m d with
  | nil => exact Or.inl ⟨m, rfl, h⟩
  | cons e es ih =>
    obtain ⟨hv, hrest⟩ := List.forall_mem_cons.1 hes
    have hfirst := h.insert? hh e.1 e.2
    rw [Dictionary.permitting, if_neg (h.missing_eq ▸ hv)] at hfirst
    rw [Map.insertList]
    generalize m.insert? e.1 e.2 = o at hfirst
    cases hfirst with
    | ok old? hset =>
      refine ih hset ?_
      rwa [← hset.missing_eq, Dictionary.missing_set, h.missing_eq]
    | overflow => exact Or.inr ⟨_, rfl⟩

/-- A list of such entries is inserted whole if it does not overflow. -/
theorem exists_insertList (h : Represents hash m d) (hh : Respects hash)
    (hes : ∀ e ∈ es, e.2 ≠ m.missing)
    (ho : (m.insertList es).result ≠ .error (.aborted .capacityOverflow)) :
    ∃ m', m.insertList es = .ok () m' ∧ Represents hash m' (d.setAll es) := by
  refine (h.insertList hh hes).resolve_right ?_
  rintro ⟨m', hrun⟩
  rw [hrun] at ho
  exact ho rfl

/-- A list is inserted up to the first entry with the missing value. -/
theorem exists_insertList_stopped {before after : List (K × Int32)} (h : Represents hash m d)
    (hh : Respects hash) (hbefore : ∀ x ∈ before, x.2 ≠ m.missing) (he : e.2 = m.missing)
    (ho : (m.insertList (before ++ e :: after)).result ≠ .error (.aborted .capacityOverflow)) :
    ∃ m', m.insertList (before ++ e :: after) = .error (.refused (.missingValue e.2)) m' ∧
      Represents hash m' (d.setAll before) := by
  rw [insertList_append] at ho ⊢
  rcases h.insertList hh hbefore with ⟨m', hrun, hm'⟩ | ⟨m', hrun⟩
  · have hmissing : m'.missing = m.missing :=
      hm'.missing_eq.symm.trans (Dictionary.missing_setAll.trans h.missing_eq)
    rw [hrun]
    exact ⟨m', insertList_cons_of_eq_missing (he.trans hmissing.symm), hm'⟩
  · rw [hrun] at ho
    exact absurd rfl ho

theorem overlaid (h : Represents hash m d) (h' : Represents hash m' (d.setAll es))
    (hh : Respects hash) : Overlaid m es m' where
  hash_eq := h'.hash_eq.trans h.hash_eq.symm
  missing_eq := h'.missing_eq.symm.trans (Dictionary.missing_setAll.trans h.missing_eq)
  getPair? k := ⟨_, h.getPair? hh k, by rw [h'.getPair? hh, Dictionary.find?_setAll]⟩
  mem_toList e := by
    rw [h'.getPair? hh, Except.ok.injEq, Dictionary.find?, h'.unequal.find?_eq_some_iff,
      h'.toList.mem_iff]
    simp
  unequal := (h'.toList.pairwise_iff fun hxy => by rwa [BEq.comm]).2 h'.unequal

/-! ## Inserting again -/

/-- Values of keys that are held are overwritten where they are. -/
theorem insertList_of_held (h : Represents hash m d) (hh : Respects hash)
    (hes : ∀ e ∈ es, e.2 ≠ m.missing ∧ (d.find? e.1).isSome) :
    ∃ values, m.insertList es = .ok () { m with table := { m.table with values := values } } ∧
      Represents hash { m with table := { m.table with values := values } } (d.setAll es) := by
  induction es generalizing m d with
  | nil => exact ⟨m.table.values, rfl, h⟩
  | cons e es ih =>
    obtain ⟨⟨hv, hheld⟩, hrest⟩ := List.forall_mem_cons.1 hes
    rcases h.cases hh e.1 with ⟨i, e', hrun, he', hd⟩ | ⟨i, -, -, hd⟩
    · have hset := h.writeValue he' hd (h.missing_eq ▸ hv)
      obtain ⟨values, hall, hlast⟩ := ih hset fun x hx => ⟨(hrest x hx).1, by
        rw [Dictionary.find?_set]
        split
        · rfl
        · exact (hrest x hx).2⟩
      refine ⟨values, ?_, hlast⟩
      rw [Map.insertList, Map.insert?, permitting, permit, if_neg hv]
      simp only [Table.insert?, hrun]
      exact hall
    · rw [hd.find?] at hheld
      cases hheld

/-- Two maps with the same keys in the same slots are the same if look-ups find the same. -/
theorem eq_of_find?_eq {values : Array Int32} {d' : Dictionary K} (h : Represents hash m d)
    (h' : Represents hash { m with table := { m.table with values := values } } d')
    (hfind : ∀ k, d'.find? k = d.find? k) :
    { m with table := { m.table with values := values } } = m := by
  have hsize : values.size = m.table.values.size :=
    h'.sound.aligned.size_values.trans h.sound.aligned.size_values.symm
  have hvalue : ∀ i, values.getD i 0 = m.table.value i := by
    intro i
    cases hk : m.table.key? i with
    | none => exact (h'.sound.zeroed i hk).trans (h.sound.zeroed i hk).symm
    | some k =>
      have hone := h.find?_of_slot? (i := i) (e := (k, m.table.value i))
        (Table.slot?_eq_some.2 ⟨hk, rfl⟩)
      have hother := h'.find?_of_slot? (i := i) (e := (k, values.getD i 0))
        (Table.slot?_eq_some.2 ⟨hk, rfl⟩)
      rw [hfind, hone] at hother
      simpa using hother.symm
  have hvalues : values = m.table.values := by
    refine Array.ext hsize fun i hi hi' => ?_
    simpa [Table.value, Array.getD, hi, hi'] using hvalue i
  rw [hvalues]

/-- Entries that were laid over a map can be laid over it again, and nothing changes. -/
theorem insertList_again (h' : Represents hash m' (d.setAll es)) (hh : Respects hash)
    (hes : ∀ e ∈ es, e.2 ≠ m'.missing) : m'.insertList es = .ok () m' := by
  obtain ⟨values, hrun, hlast⟩ := h'.insertList_of_held hh fun e he => ⟨hes e he, by
    rw [Dictionary.find?_setAll]
    exact isSome_overlay he BEq.rfl⟩
  rw [hrun, h'.eq_of_find?_eq hlast fun k => by
    rw [Dictionary.find?_setAll, Dictionary.find?_setAll, overlay_overlay]]

/-! ## Whole calls -/

theorem laysOver (h : Represents hash m d) (hh : Respects hash)
    (ho : (m.insertList es).result ≠ .error (.aborted .capacityOverflow)) :
    LaysOver m es .refused (m.insertList es) := by
  refine ⟨⟨fun hok => ?_, fun hes => ?_⟩, fun hes => ?_, ?_⟩
  · -- a list that is not inserted whole has a first entry that may not be stored
    cases hfind : es.find? fun e => e.2 = m.missing with
    | none => simpa using List.find?_eq_none.1 hfind
    | some e =>
      obtain ⟨he, before, after, rfl, hbefore⟩ := List.find?_eq_some_iff_append.1 hfind
      obtain ⟨m', hrun, -⟩ :=
        h.exists_insertList_stopped hh (by simpa using hbefore) (by simpa using he) ho
      rw [hrun] at hok
      cases hok
  · obtain ⟨m', hrun, -⟩ := h.exists_insertList hh hes ho
    rw [hrun]
    rfl
  · obtain ⟨m', hrun, hm'⟩ := h.exists_insertList hh hes ho
    rw [hrun]
    exact h.overlaid hm' hh
  · rintro before e after rfl hbefore he
    obtain ⟨m', hrun, hm'⟩ := h.exists_insertList_stopped hh hbefore he ho
    rw [hrun]
    exact ⟨rfl, h.overlaid hm' hh⟩

/-- Inserting a list that went through goes through again, and ends in the same map. -/
theorem insertList_twice (h : Represents hash m d) (hh : Respects hash)
    (hok : (m.insertList es).result = .ok ()) :
    (m.insertList es).state.insertList es = m.insertList es := by
  have ho : (m.insertList es).result ≠ .error (.aborted .capacityOverflow) := by
    rw [hok]
    nofun
  have hes := (h.laysOver hh ho).ok_iff.1 hok
  obtain ⟨m', hrun, hm'⟩ := h.exists_insertList hh hes ho
  have hmissing := (h.overlaid hm' hh).missing_eq
  rw [hrun]
  exact hm'.insertList_again hh fun e he => hmissing ▸ hes e he

end Represents

theorem result_insertMany :
    (m.insertMany es).result = (m.insertList es).result.mapError insist := by
  rw [insertMany]
  cases m.insertList es <;> rfl

theorem LaysOver.insertMany (h : LaysOver m es .refused (m.insertList es)) :
    LaysOver m es (.aborted ∘ .rejected) (m.insertMany es) := by
  have hstate : (m.insertMany es).state = (m.insertList es).state := Outcome.state_within
  refine ⟨?_, fun hes => hstate ▸ h.complete hes, ?_⟩
  · rw [result_insertMany, ← h.ok_iff]
    cases (m.insertList es).result <;> simp [Except.mapError]
  · intro before e after hsplit hbefore he
    obtain ⟨hfail, hover⟩ := h.stopped before e after hsplit hbefore he
    rw [result_insertMany, hstate, hfail]
    exact ⟨rfl, hover⟩

/-- Copying a map into a map that was reached without overflows, and inserting a list of entries
into it, lay the entries over it. Entries with the missing value stop both: what is in front of the
first of them stays, a copy is refused, and an insertion aborts and says which value could not be
stored. What a copy of a map with unequal keys finds for a key is what the map has for it, if it has
any, under the key that was there first. A call that went through changes nothing when it is made
again. -/
theorem bulk_inserts_overlay (h : Reached hash 0 m) (hh : Respects hash) :
    (∀ other : Map K, (m.insertMap other).result ≠ .error (.aborted .capacityOverflow) →
      LaysOver m other.toList .refused (m.insertMap other) ∧
      ((m.insertMap other).result = .ok () →
        (m.insertMap other).state.insertMap other = m.insertMap other ∧
        ∀ hash', Reached hash' 0 other → Respects hash' → ∀ k, ∃ e? s?,
          m.getPair? k = .ok e? ∧ other.getPair? k = .ok s? ∧
          (m.insertMap other).state.getPair? k =
            .ok (s?.elim e? fun s => some ((e?.getD s).1, s.2)))) ∧
    (∀ es, (m.insertMany es).result ≠ .error (.aborted .capacityOverflow) →
      LaysOver m es (.aborted ∘ .rejected) (m.insertMany es) ∧
      ((m.insertMany es).result = .ok () →
        (m.insertMany es).state.insertMany es = m.insertMany es)) ∧
    (Abort.rejected (.missingValue m.missing)).message =
      "cannot store the missing value " ++ toString m.missing := by
  have hm := represents_of_reached h hh
  refine ⟨fun other hother => ?_, fun es hes => ?_, rfl⟩
  · refine ⟨hm.laysOver hh hother, fun hok => ⟨hm.insertList_twice hh hok, ?_⟩⟩
    intro hash' hreached hh' k
    have hsource := represents_of_reached hreached hh'
    obtain ⟨e?, he?, hget⟩ :=
      ((hm.laysOver hh hother).complete ((hm.laysOver hh hother).ok_iff.1 hok)).getPair? k
    refine ⟨e?, _, he?, hsource.getPair? hh' k, ?_⟩
    rw [overlay_of_unequal hsource.unequal] at hget
    exact hget
  · have hlist : (m.insertList es).result ≠ .error (.aborted .capacityOverflow) := by
      intro hover
      rw [result_insertMany, hover] at hes
      exact hes rfl
    refine ⟨(hm.laysOver hh hlist).insertMany, fun hok => ?_⟩
    have hok' : (m.insertList es).result = .ok () := by
      rw [result_insertMany] at hok
      cases hrun : (m.insertList es).result <;> simp_all [Except.mapError]
    have hstate : (m.insertMany es).state = (m.insertList es).state := Outcome.state_within
    rw [hstate, insertMany, hm.insertList_twice hh hok', insertMany]

/-- A map whose entries lie around the end of the row. -/
def target : Map Tagged :=
  ((empty (-1) fun _ => 8).actAll [.command (.insertMany [(⟨8, 1, 0⟩, 10), (⟨8, 2, 0⟩, 20)])]).2

/-- A map with other hashes and another missing value, and with too many entries for the target to
keep its number of slots. -/
def source : Map Tagged :=
  ((empty 0 Tagged.id).actAll [.command (.insertMany [(⟨1, 2, 7⟩, 21), (⟨1, 3, 7⟩, 30),
    (⟨1, 9, 7⟩, 90), (⟨1, 4, 7⟩, 40), (⟨1, 5, 7⟩, 50), (⟨1, 6, 7⟩, 60)])]).2

/-- A map with the missing value of the target in the middle of its traversal. -/
def barred : Map Tagged :=
  ((empty 0 Tagged.id).actAll [.command (.insertMany [(⟨1, 2, 7⟩, 21), (⟨1, 3, 7⟩, -1),
    (⟨1, 9, 7⟩, 90), (⟨1, 5, 7⟩, 50)])]).2

/-- Pairs of which two have equal keys, and one cannot be stored. -/
def pairs : List (Tagged × Int32) :=
  [(⟨8, 1, 3⟩, 11), (⟨8, 4, 0⟩, 40), (⟨8, 4, 1⟩, 41), (⟨8, 5, 0⟩, -1), (⟨8, 6, 0⟩, 60)]

theorem bulk_inserts_overlay_target :
    Reached (fun _ => 8) 0 target ∧ Respects (fun _ : Tagged => (8 : UInt64)) ∧
    Reached Tagged.id 0 source ∧ Respects Tagged.id ∧
    (target.insertMap source).result = .ok () ∧
    (target.insertMap source).state.insertMap source = target.insertMap source ∧
    (∀ k, ∃ e? s?, target.getPair? k = .ok e? ∧ source.getPair? k = .ok s? ∧
      (target.insertMap source).state.getPair? k =
        .ok (s?.elim e? fun s => some ((e?.getD s).1, s.2))) ∧
    (target.insertMap source).state.getPair? ⟨5, 2, 5⟩ = .ok (some (⟨8, 2, 0⟩, 21)) ∧
    barred.toList = [(⟨1, 5, 7⟩, 50), (⟨1, 3, 7⟩, -1), (⟨1, 2, 7⟩, 21), (⟨1, 9, 7⟩, 90)] ∧
    (target.insertMap barred).result = .error (.refused (.missingValue (-1))) ∧
    Overlaid target [(⟨1, 5, 7⟩, 50)] (target.insertMap barred).state ∧
    (target.insertMany pairs).result = .error (.aborted (.rejected (.missingValue (-1)))) ∧
    Overlaid target [(⟨8, 1, 3⟩, 11), (⟨8, 4, 0⟩, 40), (⟨8, 4, 1⟩, 41)]
      (target.insertMany pairs).state ∧
    (target.insertMany (pairs.take 3)).state.insertMany (pairs.take 3) =
      target.insertMany (pairs.take 3) := by
  have hreached : Reached (fun _ => 8) 0 target :=
    ⟨_, _, _, Or.inl rfl, rfl, by decide +kernel⟩
  have hh : Respects (fun _ : Tagged => (8 : UInt64)) := fun _ _ _ => rfl
  have hsource : Reached Tagged.id 0 source := ⟨_, _, _, Or.inl rfl, rfl, by decide +kernel⟩
  have hh' : Respects Tagged.id := fun _ _ => Tagged.beq_iff.1
  have hok : (target.insertMap source).result = .ok () := by decide +kernel
  have hlist : barred.toList =
      [(⟨1, 5, 7⟩, 50), (⟨1, 3, 7⟩, -1), (⟨1, 2, 7⟩, 21), (⟨1, 9, 7⟩, 90)] := by decide +kernel
  obtain ⟨hmaps, hlists, -⟩ := bulk_inserts_overlay hreached hh
  obtain ⟨-, hcopied⟩ := hmaps source (by rw [hok]; nofun)
  obtain ⟨hagain, hjoin⟩ := hcopied hok
  obtain ⟨hbarred, -⟩ := hmaps barred (by decide +kernel)
  obtain ⟨hpairs, -⟩ := hlists pairs (by decide +kernel)
  obtain ⟨hrefused, hbefore⟩ := hbarred.stopped [_] _ _ hlist (by decide +kernel) rfl
  obtain ⟨haborted, hfirst⟩ := hpairs.stopped [_, _, _] _ _ rfl (by decide +kernel) rfl
  exact ⟨hreached, hh, hsource, hh', hok, hagain, hjoin _ hsource hh', by decide +kernel, hlist,
    hrefused, hbefore, haborted, hfirst,
    (hlists (pairs.take 3) (by decide +kernel)).2 (by decide +kernel)⟩

end Map

end LinearProbe
