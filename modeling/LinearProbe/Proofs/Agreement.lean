import LinearProbe.Proofs.Histories
import LinearProbe.Proofs.Representation
import LinearProbe.Proofs.Walks

/-!
# Maps are dictionaries

Every command to a map that represents a dictionary answers as the dictionary does and leaves a map
that represents what the dictionary becomes (`Represents.perform`), unless it aborts because too
many slots would be needed. An outcome of the map and one of the dictionary are compared by
`Agrees`, which is kept when both answers are changed alike (`Agrees.map`), so that each family of
commands is compared once : `insert?` and `erasePair?` for those that differ from them only in what
they answer.

An empty map represents the empty dictionary, so a run of commands without such an abort answers as
the dictionary does, and after each of them size and entries are the same
(`performs_as_dictionary`).
-/

set_option linter.unusedSectionVars false

namespace LinearProbe.Map

variable {K : Type} [BEq K] [EquivBEq K] {hash : K → UInt64} {m : Map K} {d : Dictionary K}
  {k : K} {v : Int32} {i : Nat} {e : K × Int32}

/-! ## Outcomes -/

/-- The outcomes are the same and lead to a map that represents the dictionary, or the first is an
abort for want of slots. -/
inductive Agrees (hash : K → UInt64) {α : Type} :
    Outcome Failure (Map K) α → Outcome Failure (Dictionary K) α → Prop where
  | ok {m : Map K} {d : Dictionary K} (a : α) (h : Represents hash m d) :
      Agrees hash (.ok a m) (.ok a d)
  | error {m : Map K} {d : Dictionary K} (f : Failure) (h : Represents hash m d) :
      Agrees hash (.error f m) (.error f d)
  | overflow {m : Map K} {o : Outcome Failure (Dictionary K) α} :
      Agrees hash (.error (.aborted .capacityOverflow) m) o

namespace Agrees

variable {α β : Type} {o : Outcome Failure (Map K) α} {o' : Outcome Failure (Dictionary K) α}

theorem map (h : Agrees hash o o') (f : α → β) : Agrees hash (o.map f) (o'.map f) := by
  cases h with
  | ok a h => exact .ok (f a) h
  | error e h => exact .error e h
  | overflow => exact .overflow

/-- Both sides refuse the missing value. -/
theorem permitting {act : Map K → Outcome Failure (Map K) α} (hm : Represents hash m d)
    (h : v ≠ d.missing → Agrees hash (act m) o') :
    Agrees hash (m.permitting v act) (d.permitting v o') := by
  unfold Map.permitting Dictionary.permitting permit
  rw [← hm.missing_eq]
  by_cases hv : v = d.missing
  · simp only [if_pos hv]
    exact .error _ hm
  · simp only [if_neg hv]
    exact h hv

theorem result_eq (h : Agrees hash o o') (ho : o.result ≠ .error (.aborted .capacityOverflow)) :
    o.result = o'.result ∧ Represents hash o.state o'.state := by
  cases h with
  | ok a h => exact ⟨rfl, h⟩
  | error e h => exact ⟨rfl, h⟩
  | overflow => exact absurd rfl ho

end Agrees

theorem map_permitting {α β : Type} {act : Map K → Outcome Failure (Map K) α} (f : α → β) :
    (m.permitting v act).map f = m.permitting v fun m => (act m).map f := by
  unfold permitting
  split <;> rfl

namespace Represents

/-! ## Storing -/

variable [Stored K]

/-- An entry inserted for a key that has none. -/
theorem store {α : Type} (h : Represents hash m d) (hh : Respects hash)
    (hstop : m.table.StopsAt (· == k) (m.table.home (hash k)) (.free i)) (hd : d.Lacks k)
    (hv : v ≠ d.missing) (f : Unit → α) :
    Agrees hash ((m.lift (m.table.insertAt m.hash i k v)).map f) (.ok (f ()) (d.set k v)) := by
  rcases h.insertAt hh hstop hd hv with ⟨u, hrun, hu⟩ | ⟨u, hrun⟩
  · rw [hrun]
    exact .ok _ hu
  · rw [hrun]
    exact .overflow

theorem insert? (h : Represents hash m d) (hh : Respects hash) (k : K) (v : Int32) :
    Agrees hash (m.insert? k v) (d.permitting v (.ok (d.get? k) (d.set k v))) := by
  refine .permitting h ?_
  intro hv
  rcases h.cases hh k with ⟨i, e, hrun, he, hd⟩ | ⟨i, hrun, hstop, hd⟩
  · rw [Table.insert?, hrun, hd.get?, ← (Table.slot?_eq_some.1 he).2]
    exact .ok _ (h.writeValue he hd hv)
  · rw [Table.insert?, hrun, hd.get?]
    have hstore := h.store hh hstop hd hv fun _ => (none : Option Int32)
    cases hins : m.table.insertAt m.hash i k v <;> simpa [hins, lift, Outcome.map, Outcome.within]
      using hstore

/-- Insertions go on as long as the values may be stored. -/
theorem insertMany (h : Represents hash m d) (hh : Respects hash) (es : List (K × Int32)) :
    Agrees hash (m.insertMany es) (d.setMany es) := by
  unfold Map.insertMany
  induction es generalizing m d with
  | nil => exact .ok () h
  | cons e es ih =>
    obtain ⟨k, v⟩ := e
    rw [insertList, Dictionary.setMany]
    have hfirst := h.insert? hh k v
    unfold Dictionary.permitting at hfirst
    split at hfirst
    · next hv =>
      rw [if_pos hv]
      generalize m.insert? k v = o at hfirst
      cases hfirst with
      | error _ h => exact .error _ h
      | overflow => exact .overflow
    · next hv =>
      rw [if_neg hv]
      generalize m.insert? k v = o at hfirst
      cases hfirst with
      | ok _ h => exact ih h
      | overflow => exact .overflow

omit [Stored K]

theorem replace? (h : Represents hash m d) (hh : Respects hash) (k : K) (v : Int32) :
    Agrees hash (m.replace? k v)
      (d.permitting v (.ok (d.get? k) (if (d.get? k).isSome then d.set k v else d))) := by
  refine .permitting h ?_
  intro hv
  rcases h.cases hh k with ⟨i, e, hrun, he, hd⟩ | ⟨i, hrun, -, hd⟩
  · rw [Table.replace?, Table.indexOf?_of_locate hrun, hd.get?, ← (Table.slot?_eq_some.1 he).2]
    exact .ok _ (h.writeValue he hd hv)
  · rw [Table.replace?, Table.indexOf?_of_locate hrun, hd.get?]
    exact .ok _ h

/-! ## Erasing -/

theorem erasePair? (h : Represents hash m d) (hh : Respects hash) (k : K) :
    Agrees hash (m.erasePair? k) (.ok (d.find? k) (d.erase k)) := by
  rcases h.cases hh k with ⟨i, e, hrun, he, hd⟩ | ⟨i, hrun, -, hd⟩
  · obtain ⟨u, herase, hu⟩ := h.eraseAt? he hd
    rw [Map.erasePair?, Table.erase?, Table.indexOf?_of_locate hrun, hd.find?]
    simp only [Spot.held?, herase]
    exact .ok _ hu
  · rw [Map.erasePair?, Table.erase?, Table.indexOf?_of_locate hrun, hd.find?, hd.erase]
    exact .ok _ h

/-! ## Computing values -/

/-- The computed value of an entry written, or the entry erased. -/
theorem settle (h : Represents hash m d) (he : m.table.slot? i = some e)
    (hd : d.Holds k e (m.table.vacate i).entries) :
    Agrees hash (m.settle i v) (.ok v (d.settle k v)) := by
  rw [Map.settle, Dictionary.settle]
  by_cases hv : v = d.missing
  · obtain ⟨u, herase, hu⟩ := h.eraseAt? he hd
    rw [if_pos hv, if_pos (hv.trans h.missing_eq), herase]
    exact .ok _ hu
  · rw [if_neg hv, if_neg (h.missing_eq ▸ hv)]
    exact .ok _ (h.writeValue he hd hv)

theorem modify (h : Represents hash m d) (hh : Respects hash) (k : K) (f : K → Int32 → Int32) :
    Agrees hash ((m.modify k f).map .value) (d.perform (.modify k f)) := by
  rcases h.cases hh k with ⟨i, e, hrun, he, hd⟩ | ⟨i, hrun, -, hd⟩
  · rw [Map.modify, Table.indexOf?_of_locate hrun, Dictionary.perform, hd.find?]
    simp only [Spot.held?, he]
    exact (h.settle he hd).map Answer.value
  · rw [Map.modify, Table.indexOf?_of_locate hrun, Dictionary.perform, hd.find?, ← h.missing_eq]
    exact .ok _ h

variable [Stored K]

theorem getOrInsertWith (h : Represents hash m d) (hh : Respects hash) (k : K) (f : K → Int32) :
    Agrees hash ((m.getOrInsertWith k f).map .value) (d.perform (.getOrInsertWith k f)) := by
  rcases h.cases hh k with ⟨i, e, hrun, he, hd⟩ | ⟨i, hrun, hstop, hd⟩
  · rw [Map.getOrInsertWith, hrun, Dictionary.perform, hd.get?, ← (Table.slot?_eq_some.1 he).2]
    exact .ok _ h
  · rw [Map.getOrInsertWith, hrun, Dictionary.perform, hd.get?, Dictionary.settle]
    simp only [← h.missing_eq]
    by_cases hv : f k = d.missing
    · rw [if_pos hv, if_pos hv, hd.erase]
      exact .ok _ h
    · rw [if_neg hv, if_neg hv]
      exact (h.store hh hstop hd hv fun _ => f k).map Answer.value

theorem combine (h : Represents hash m d) (hh : Respects hash) (k : K) (v : Int32)
    (f : Int32 → Int32 → Int32) :
    Agrees hash ((m.combine k v f).map .value) (d.perform (.combine k v f)) := by
  rw [Map.combine, map_permitting]
  refine .permitting h ?_
  intro hv
  rcases h.cases hh k with ⟨i, e, hrun, he, hd⟩ | ⟨i, hrun, hstop, hd⟩
  · rw [hrun, hd.get?, ← (Table.slot?_eq_some.1 he).2]
    exact (h.settle he hd).map Answer.value
  · rw [hrun, hd.get?, Dictionary.settle, if_neg hv]
    exact (h.store hh hstop hd hv fun _ => v).map Answer.value

/-! ## The whole map -/

omit [Stored K] in
theorem filter (h : Represents hash m d) (p : K → Int32 → Bool) :
    Agrees hash ((m.filter p).map fun _ => Answer.done) (d.perform (.filter p)) := by
  obtain ⟨es, u, hes, hrun, -, hu, hentries⟩ := exists_filterWith (P := Table.Sound hash)
    (fun _ _ _ _ ht hu => (h.hash_eq ▸ hu).sound ht) (fun _ k v => (p k v, ())) ()
    h.sound.aligned.size_values h.sound.counted h.sound.hasGap h.sound
  rw [Map.filter, hrun]
  refine .ok _ ⟨h.hash_eq, h.missing_eq, hu, ?_, ?_⟩
  · rw [sift_pure] at hentries
    exact hentries.trans ((hes.trans h.entries).filter _)
  · intro x hx
    exact h.storable x (List.mem_of_mem_filter hx)

theorem compact (h : Represents hash m d) :
    Agrees hash (m.compact.map fun _ => Answer.done) (d.perform .compact) := by
  have hc := h.sound.counted
  rw [Map.compact, h.hash_eq]
  rcases Table.compact_cases hash hc h.sound.fraction with ⟨u, hrun, hu⟩ | hrun
  · have hentries : u.entries.Perm m.table.entries := by
      rcases hu with rfl | ⟨slots, -, hu⟩
      · exact .refl _
      · exact hu.entries
    have hsound := h.sound.compact hrun
    rw [hrun]
    exact .ok _ ⟨h.hash_eq, h.missing_eq, hsound, hentries.trans h.entries, h.storable⟩
  · rw [hrun]
    exact .overflow

theorem clear (h : Represents hash m d) :
    Represents hash m.clear { d with entries := [] } where
  hash_eq := h.hash_eq
  missing_eq := h.missing_eq
  sound := h.sound.clear
  entries := .of_eq Table.entries_clear
  storable := by simp

/-! ## Commands -/

/-- Every command to a map answers as the dictionary that the map represents. -/
theorem perform (h : Represents hash m d) (hh : Respects hash) (c : Command K) :
    Agrees hash (m.perform c) (d.perform c) := by
  cases c with
  | get k =>
    rw [Map.perform, Map.get, h.getD hh, ← h.missing_eq]
    exact .ok _ h
  | get? k =>
    rw [Map.perform, h.get? hh]
    exact .ok _ h
  | getD k v =>
    rw [Map.perform, h.getD hh]
    exact .ok _ h
  | getPair? k =>
    rw [Map.perform, h.getPair? hh]
    exact .ok _ h
  | contains k =>
    rw [Map.perform, h.contains hh]
    exact .ok _ h
  | containsValue v =>
    rw [Map.perform, h.containsValue]
    exact .ok _ h
  | require k =>
    rw [Map.perform, require, h.get? hh, Dictionary.perform]
    cases d.get? k with
    | none => exact .error _ h
    | some v => exact .ok _ h
  | insert k v =>
    have hins := ((h.insert? hh k v).map fun old? => old?.getD m.missing).map
      (Answer.value (K := K))
    rw [Dictionary.map_permitting, Dictionary.map_permitting, ← h.missing_eq] at hins
    rw [Map.perform, Map.insert, ← h.missing_eq]
    exact hins
  | insert? k v =>
    have hins := (h.insert? hh k v).map (Answer.value? (K := K))
    rwa [Dictionary.map_permitting] at hins
  | insertMany es => exact (h.insertMany hh es).map fun _ => Answer.done
  | replace? k v =>
    have hrep := (h.replace? hh k v).map (Answer.value? (K := K))
    rwa [Dictionary.map_permitting] at hrep
  | erase k =>
    rw [Map.perform, Map.erase, Map.erase?, ← h.missing_eq]
    exact (((h.erasePair? hh k).map _).map _).map Answer.value
  | erase? k => exact ((h.erasePair? hh k).map _).map Answer.value?
  | erasePair? k => exact (h.erasePair? hh k).map Answer.pair?
  | getOrInsertWith k f => exact h.getOrInsertWith hh k f
  | modify k f => exact h.modify hh k f
  | combine k v f => exact h.combine hh k v f
  | filter p => exact h.filter p
  | compact => exact h.compact
  | clear => exact .ok _ h.clear

/-- Commands that are not aborted for want of slots answer as the dictionary does, and leave a map
that represents what the dictionary becomes. -/
theorem performAll (h : Represents hash m d) (hh : Respects hash) (cs : List (Command K))
    (hcs : ∀ r ∈ (m.performAll cs).1, r ≠ .error (.aborted .capacityOverflow)) :
    (m.performAll cs).1 = (d.performAll cs).1 ∧
      Represents hash (m.performAll cs).2 (d.performAll cs).2 := by
  induction cs generalizing m d with
  | nil => exact ⟨rfl, h⟩
  | cons c cs ih =>
    have hfirst : (m.perform c).result ≠ .error (.aborted .capacityOverflow) :=
      hcs _ List.mem_cons_self
    obtain ⟨hresult, hstate⟩ := (h.perform hh c).result_eq hfirst
    obtain ⟨hresults, hlast⟩ := ih hstate fun r hr => hcs r (List.mem_cons_of_mem _ hr)
    exact ⟨congrArg₂ List.cons hresult hresults, hlast⟩

end Represents

/-! ## Runs -/

variable [Stored K]

/-- The results of the first commands of a run are the first results. -/
theorem prefix_performAll {cs cs' : List (Command K)} (h : cs' <+: cs) :
    (m.performAll cs').1 <+: (m.performAll cs).1 := by
  induction cs' generalizing cs m with
  | nil => exact List.nil_prefix
  | cons c cs' ih =>
    obtain ⟨rest, rfl⟩ := h
    exact List.prefix_cons_inj _ |>.2 (ih ⟨rest, rfl⟩)

theorem represents_empty {missing : Int32} :
    Represents hash (empty missing hash) (⟨[], missing⟩ : Dictionary K) where
  hash_eq := rfl
  missing_eq := rfl
  sound := Table.sound_empty (c := 3) (by decide) (by decide) (by decide)
  entries := .of_eq (Table.entries_empty _ _)
  storable := by simp

theorem represents_of_ofConfig {c : Config} (h : ofConfig c hash = .ok m) :
    Represents hash m ⟨[], m.missing⟩ := by
  obtain ⟨hhash, n, loadFactor, htable, hmin, hlt, hf⟩ := exists_of_ofConfig h
  refine ⟨hhash, rfl, ?_, ?_, by simp⟩ <;> rw [htable]
  · exact Table.sound_empty hmin hlt hf
  · exact .of_eq (Table.entries_empty _ _)

/-- A run of commands to an empty map, none of which is aborted for want of slots, answers as the
empty dictionary does, and after each command the map has as many entries, and the same, as the
dictionary, whose keys are unequal. -/
theorem performs_as_dictionary {missing : Int32} (hh : Respects hash)
    (hm : m = empty missing hash ∨ ∃ c, ofConfig c hash = .ok m) (cs : List (Command K))
    (hcs : ∀ r ∈ (m.performAll cs).1, r ≠ .error (.aborted .capacityOverflow)) :
    (m.performAll cs).1 = ((⟨[], m.missing⟩ : Dictionary K).performAll cs).1 ∧
    ∀ cs', cs' <+: cs →
      (m.performAll cs').2.size =
        ((⟨[], m.missing⟩ : Dictionary K).performAll cs').2.entries.length ∧
      (m.performAll cs').2.toList.Perm
        ((⟨[], m.missing⟩ : Dictionary K).performAll cs').2.entries ∧
      ((⟨[], m.missing⟩ : Dictionary K).performAll cs').2.entries.Pairwise
        fun x y => (x.1 == y.1) = false := by
  have hstart : Represents hash m ⟨[], m.missing⟩ := by
    rcases hm with rfl | ⟨c, hc⟩
    · exact represents_empty
    · exact represents_of_ofConfig hc
  refine ⟨(hstart.performAll hh cs hcs).1, ?_⟩
  intro cs' hpre
  obtain ⟨-, h⟩ := hstart.performAll hh cs' fun r hr =>
    hcs r ((prefix_performAll hpre).subset hr)
  refine ⟨h.size, h.toList, ?_⟩
  exact (h.entries.pairwise_iff fun hxy => by rwa [BEq.comm]).1
    (Table.distinct_iff.1 h.sound.distinct)

/-- Commands with keys that collide, some of them equal without being the same. -/
def clashes : List (Command Tagged) :=
  [.insert ⟨8, 1, 0⟩ 10, .insert? ⟨8, 2, 0⟩ 20, .insert ⟨8, 3, 0⟩ (-1),
    .combine ⟨8, 1, 1⟩ 5 (· + ·), .erase ⟨8, 2, 7⟩, .getPair? ⟨8, 1, 5⟩, .require ⟨8, 2, 0⟩,
    .modify ⟨8, 1, 3⟩ fun _ _ => -1, .compact, .contains ⟨8, 1, 0⟩]

theorem performs_as_dictionary_clashes :
    Respects (fun _ : Tagged => (8 : UInt64)) ∧
    (∀ r ∈ ((empty (-1) fun _ => 8).performAll clashes).1,
      r ≠ .error (.aborted .capacityOverflow)) ∧
    ((empty (-1) fun _ => 8).performAll clashes).1 =
      ((⟨[], -1⟩ : Dictionary Tagged).performAll clashes).1 := by
  have hcs : ∀ r ∈ ((empty (-1) fun _ => 8).performAll clashes).1,
      r ≠ .error (.aborted .capacityOverflow) := by decide +kernel
  exact ⟨fun _ _ _ => rfl, hcs,
    (performs_as_dictionary (fun _ _ _ => rfl) (Or.inl rfl) clashes hcs).1⟩

end LinearProbe.Map
