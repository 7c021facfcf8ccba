import LinearProbe.Map.Command
import LinearProbe.Proofs.Edits

/-!
# Actions are edits

Every action on a map changes its table by edits, stores no missing value, and reports the inserts
that overflow (`edited_act`), and so does every run of actions (`edited_actAll`). `Edited` says so
of an outcome; it is kept when the answer is changed (`Edited.map`) and when something else is done
after an answer (`Edited.trans`), so each operation is looked at once. `Trimmed` says of most
operations that their edits bring in no entry.
-/

set_option linter.unusedSectionVars false

namespace LinearProbe.Map

open Table (Edit Edits Trim Trims)

variable {K : Type} {m m' : Map K} {i : Nat} {k : K} {v : Int32}

/-! ## Operations that bring in no entry -/

/-- The outcome left the map with its table changed without an entry being brought in, or the
missing value stored. -/
def Trimmed (m : Map K) {α : Type} (o : Outcome Failure (Map K) α) : Prop :=
  ∃ u, o.state = { m with table := u } ∧ Trims m.hash (· ≠ m.missing) m.table u

namespace Trimmed

variable {α β : Type} {o : Outcome Failure (Map K) α}

theorem of_state_eq (h : o.state = m) : Trimmed m o :=
  ⟨m.table, h, .refl⟩

theorem of_trim {u : Table K} (hstate : o.state = { m with table := u })
    (h : Trim m.hash (· ≠ m.missing) m.table u) : Trimmed m o :=
  ⟨u, hstate, h.single⟩

theorem map (h : Trimmed m o) (f : α → β) : Trimmed m (o.map f) := by
  obtain ⟨u, hstate, htrims⟩ := h
  exact ⟨u, by rwa [Outcome.state_map], htrims⟩

theorem lift {o : Outcome Abort (Table K) α}
    (h : Trims m.hash (· ≠ m.missing) m.table o.state) : Trimmed m (m.lift o) :=
  ⟨o.state, Outcome.state_within, h⟩

theorem permitting {act : Map K → Outcome Failure (Map K) α}
    (h : v ≠ m.missing → Trimmed m (act m)) : Trimmed m (m.permitting v act) := by
  unfold Map.permitting permit
  by_cases hv : v = m.missing
  · rw [if_pos hv]
    exact .of_state_eq rfl
  · rw [if_neg hv]
    exact h hv

/-- What is done after an answer goes on from the map that was left. -/
theorem trans {a : β} (h : Trimmed m (.ok a m' : Outcome Failure (Map K) β)) (h' : Trimmed m' o) :
    Trimmed m o := by
  obtain ⟨u, hstate, htrims⟩ := h
  obtain rfl : m' = { m with table := u } := hstate
  obtain ⟨w, hstate', htrims'⟩ := h'
  exact ⟨w, hstate', htrims.trans htrims'⟩

end Trimmed

theorem trimmed_observe {α : Type} {x : Except Abort α} : Trimmed m (m.observe x) := by
  unfold observe
  cases x <;> exact .of_state_eq rfl

theorem trimmed_settle (hk : m.table.key? i = some k) : Trimmed m (m.settle i v) := by
  unfold settle
  split
  · exact (Trimmed.lift Trim.erase.single).map _
  · next hv => exact .of_trim rfl (.write hk hv)

theorem trimmed_setAt (hk : m.table.key? i = some k) : Trimmed m (m.setAt i v) :=
  .permitting fun hv => .of_trim rfl (.write hk hv)

theorem trimmed_filterFrom {σ : Type} {p : σ → K → Int32 → Bool × σ} {n : Nat} {c : Cursor}
    {s : σ} : Trimmed m (filterFrom p n m c s) := by
  induction n generalizing m c s with
  | zero => exact .of_state_eq rfl
  | succ n ih =>
    rw [filterFrom]
    split
    · exact .of_state_eq rfl
    · next i c' _ =>
      split
      · exact .of_state_eq rfl
      · dsimp only
        split
        · exact ih
        · have htrims : Trims m.hash (· ≠ m.missing) m.table (c'.erase m.hash m.table).state.1 :=
            Table.trims_eraseCursor
          split
          · next hrun =>
            rw [hrun] at htrims
            exact Trimmed.trans (a := ()) ⟨_, rfl, htrims⟩ ih
          · next hrun =>
            rw [hrun] at htrims
            exact ⟨_, rfl, htrims⟩

/-- The map of a walk changed without an entry being brought in. -/
def Walk.Trimmed (w w' : Walk K) : Prop :=
  ∃ u c, w' = ⟨{ w.map with table := u }, c⟩ ∧
    Trims w.map.hash (· ≠ w.map.missing) w.map.table u

theorem Walk.trimmed_take (w : Walk K) (s : Walk.Step) : w.Trimmed (w.take s).state := by
  cases s with
  | next => exact ⟨_, _, rfl, .refl⟩
  | current? => exact ⟨_, _, rfl, .refl⟩
  | set v =>
    rw [take, Outcome.state_map, set, permit]
    by_cases hv : v = w.map.missing
    · rw [if_pos hv]
      exact ⟨_, _, rfl, .refl⟩
    · rw [if_neg hv]
      dsimp only
      split
      · exact ⟨_, _, rfl, .refl⟩
      · next i _ =>
        have htrims : Trims w.map.hash (· ≠ w.map.missing) w.map.table
            (w.map.table.replaceAt? i v).state := Table.trims_replaceAt? hv
        cases hrun : w.map.table.replaceAt? i v with
        | error a u =>
          rw [hrun] at htrims
          exact ⟨_, _, rfl, htrims⟩
        | ok old? u =>
          rw [hrun] at htrims
          cases old? <;> exact ⟨_, _, rfl, htrims⟩
  | erase =>
    have htrims : Trims w.map.hash (· ≠ w.map.missing) w.map.table
        (w.cursor.erase w.map.hash w.map.table).state.1 := Table.trims_eraseCursor
    rw [take, Outcome.state_map, erase]
    cases hrun : w.cursor.erase w.map.hash w.map.table with
    | error a s =>
      rw [hrun] at htrims
      exact ⟨_, _, rfl, htrims⟩
    | ok e? s =>
      rw [hrun] at htrims
      cases e? <;> exact ⟨_, _, rfl, htrims⟩

theorem Walk.trimmed_takeAll (w : Walk K) (ss : List Walk.Step) : w.Trimmed (w.takeAll ss).2 := by
  induction ss generalizing w with
  | nil => exact ⟨_, _, rfl, .refl⟩
  | cons s ss ih =>
    obtain ⟨u, c, hstate, htrims⟩ := w.trimmed_take s
    have hrest := ih (w.take s).state
    rw [hstate] at hrest
    obtain ⟨u', c', hlast, htrims'⟩ := hrest
    refine ⟨u', c', ?_, htrims.trans htrims'⟩
    rw [takeAll, hstate]
    exact hlast

variable [BEq K]

theorem trimmed_replace? : Trimmed m (m.replace? k v) :=
  .permitting fun hv => .lift (Table.trims_replace? hv)

theorem trimmed_erasePair? : Trimmed m (m.erasePair? k) :=
  .lift Table.trims_erase?

theorem trimmed_modify {f : K → Int32 → Int32} : Trimmed m (m.modify k f) := by
  unfold modify
  split
  · exact .of_state_eq rfl
  · exact .of_state_eq rfl
  · split
    · exact .of_state_eq rfl
    · next he => exact trimmed_settle (Table.slot?_eq_some.1 he).1

variable [Stored K]

/-- The command may insert entries or move them to another row. -/
def Command.Places : Command K → Prop
  | insert _ _ | insert? _ _ | insertMany _ | getOrInsertWith _ _ | combine _ _ _ | compact => True
  | _ => False

/-- The action may insert entries or move them to another row. -/
def Action.Places : Action K → Prop
  | command c => c.Places
  | insertMap _ => True
  | _ => False

theorem trimmed_perform {c : Command K} (hc : ¬c.Places) : Trimmed m (m.perform c) := by
  cases c with
  | get _ | get? _ | getD _ _ | getPair? _ | contains _ | require _ =>
    exact trimmed_observe.map _
  | containsValue v => exact .of_state_eq (o := .ok (Answer.flag (m.containsValue v)) m) rfl
  | replace? _ _ => exact trimmed_replace?.map _
  | erase _ => exact ((trimmed_erasePair?.map _).map _).map _
  | erase? _ => exact (trimmed_erasePair?.map _).map _
  | erasePair? _ => exact trimmed_erasePair?.map _
  | modify _ _ => exact trimmed_modify.map _
  | filter _ => exact trimmed_filterFrom.map _
  | clear => exact .of_trim rfl .clear
  | insert _ _ | insert? _ _ | insertMany _ | getOrInsertWith _ _ | combine _ _ _ | compact =>
    exact absurd trivial hc

theorem trimmed_act {a : Action K} (ha : ¬a.Places) : Trimmed m (m.act a) := by
  cases a with
  | command c => exact (trimmed_perform ha).map _
  | insertMap other => exact absurd trivial ha
  | filterWith p => exact trimmed_filterFrom.map _
  | setVisited n v =>
    rw [act]
    split
    · exact .of_state_eq rfl
    · next i hi =>
      have hmem := List.mem_of_mem_take (List.mem_of_getElem? hi)
      obtain ⟨k, hk⟩ := Option.isSome_iff_exists.1 (List.mem_filter.1 hmem).2
      exact (trimmed_setAt hk).map _
  | walk ss =>
    obtain ⟨u, c, hwalk, htrims⟩ := m.walk.trimmed_takeAll ss
    exact ⟨u, congrArg Walk.map hwalk, htrims⟩
  | drain => exact .of_trim rfl .clear

/-! ## Operations that edit -/

/-- The outcome left the map with its table changed by edits that store no missing value, of which
no more overflowed than the outcome says. -/
def Edited (m : Map K) {α : Type} (o : Outcome Failure (Map K) α) : Prop :=
  ∃ u n, o.state = { m with table := u } ∧ Edits m.hash (· ≠ m.missing) m.table n u ∧
    n ≤ o.failsWith (.aborted .capacityOverflow)

theorem Trimmed.edited {α : Type} {o : Outcome Failure (Map K) α} (h : Trimmed m o) :
    Edited m o := by
  obtain ⟨u, hstate, htrims⟩ := h
  exact ⟨u, 0, hstate, htrims.edits, Nat.zero_le _⟩

namespace Edited

variable {α β : Type} {o : Outcome Failure (Map K) α}

theorem of_state_eq (h : o.state = m) : Edited m o :=
  ⟨m.table, 0, h, .refl, Nat.zero_le _⟩

theorem map (h : Edited m o) (f : α → β) : Edited m (o.map f) := by
  obtain ⟨u, n, hstate, hedits, hn⟩ := h
  exact ⟨u, n, by rwa [Outcome.state_map], hedits, by rwa [Outcome.failsWith_map]⟩

theorem lift {o : Outcome Abort (Table K) α}
    (h : Table.Edited m.hash (· ≠ m.missing) m.table o) : Edited m (m.lift o) := by
  obtain ⟨n, hedits, hn⟩ := h
  refine ⟨o.state, n, Outcome.state_within, hedits, ?_⟩
  rwa [Map.lift, Outcome.failsWith_within (by simp)]

theorem permitting {act : Map K → Outcome Failure (Map K) α}
    (h : v ≠ m.missing → Edited m (act m)) : Edited m (m.permitting v act) := by
  unfold Map.permitting permit
  by_cases hv : v = m.missing
  · rw [if_pos hv]
    exact .of_state_eq rfl
  · rw [if_neg hv]
    exact h hv

/-- What is done after an answer goes on from the map that was left. -/
theorem trans {a : β} (h : Edited m (.ok a m' : Outcome Failure (Map K) β)) (h' : Edited m' o) :
    Edited m o := by
  obtain ⟨u, n, hstate, hedits, hn⟩ := h
  obtain rfl : m' = { m with table := u } := hstate
  obtain ⟨w, n', hstate', hedits', hn'⟩ := h'
  obtain rfl : n = 0 := Nat.le_zero.1 hn
  exact ⟨w, 0 + n', hstate', hedits.trans hedits', by rwa [Nat.zero_add]⟩

end Edited

/-! ## One entry -/

theorem edited_insert? : Edited m (m.insert? k v) :=
  .permitting fun hv => .lift (Table.edited_insert? hv)

theorem edited_getOrInsertWith {f : K → Int32} : Edited m (m.getOrInsertWith k f) := by
  unfold getOrInsertWith
  split
  · exact .of_state_eq rfl
  · exact .of_state_eq rfl
  · next hrun =>
    dsimp only
    split
    · exact .of_state_eq rfl
    · next hv => exact (Edited.lift (Table.edited_insertAt hv hrun)).map _

theorem edited_combine {f : Int32 → Int32 → Int32} : Edited m (m.combine k v f) := by
  refine .permitting fun hv => ?_
  split
  · exact .of_state_eq rfl
  · next hrun =>
    obtain ⟨-, l, hl, -⟩ := Table.stopsAt_of_locate hrun
    exact (trimmed_settle hl).edited
  · next hrun => exact (Edited.lift (Table.edited_insertAt hv hrun)).map _

/-! ## Many entries -/

theorem edited_insertList {es : List (K × Int32)} : Edited m (m.insertList es) := by
  induction es generalizing m with
  | nil => exact .of_state_eq rfl
  | cons e es ih =>
    have hfirst := edited_insert? (m := m) (k := e.1) (v := e.2)
    rw [insertList]
    split
    · next hrun => exact (hrun ▸ hfirst).trans ih
    · next f m' hrun =>
      rw [hrun] at hfirst
      exact hfirst

/-- The overflows of inserts that may not be refused are those of the inserts. -/
theorem failsWith_insertMany {es : List (K × Int32)} :
    (m.insertMany es).failsWith (.aborted .capacityOverflow) =
      (m.insertList es).failsWith (.aborted .capacityOverflow) :=
  Outcome.failsWith_within (f := insist) (e := .aborted .capacityOverflow)
    fun f => by cases f <;> simp [insist]

theorem edited_insertMany {es : List (K × Int32)} : Edited m (m.insertMany es) := by
  have hlist : Edited m (m.insertList es) := edited_insertList
  obtain ⟨u, n, hstate, hedits, hn⟩ := hlist
  exact ⟨u, n, by rwa [insertMany, Outcome.state_within], hedits, by rwa [failsWith_insertMany]⟩

theorem edited_compact : Edited m m.compact :=
  .lift (.of_edit .compact)

/-! ## Commands and actions -/

theorem edited_perform (c : Command K) : Edited m (m.perform c) := by
  cases c with
  | insert _ _ => exact (edited_insert?.map _).map _
  | insert? _ _ => exact edited_insert?.map _
  | insertMany _ => exact edited_insertMany.map _
  | getOrInsertWith _ _ => exact edited_getOrInsertWith.map _
  | combine _ _ _ => exact edited_combine.map _
  | compact => exact edited_compact.map _
  | _ => exact Trimmed.edited (trimmed_perform not_false)

/-- Every action edits the table, stores no missing value, and reports each overflow. -/
theorem edited_act (m : Map K) (a : Action K) : Edited m (m.act a) := by
  cases a with
  | command c => exact (edited_perform c).map _
  | insertMap other => exact edited_insertList
  | _ => exact Trimmed.edited (trimmed_act not_false)

/-- A run of actions edits the table, and reports at least as many overflows as occur. -/
theorem edited_actAll (m : Map K) (as : List (Action K)) :
    ∃ u n, (m.actAll as).2 = { m with table := u } ∧
      Edits m.hash (· ≠ m.missing) m.table n u ∧
      n ≤ overflows (m.actAll as).1 := by
  induction as generalizing m with
  | nil => exact ⟨m.table, 0, rfl, .refl, Nat.zero_le _⟩
  | cons a as ih =>
    obtain ⟨u, n, hstate, hedits, hn⟩ := edited_act m a
    obtain ⟨w, n', hlast, hedits', hn'⟩ := ih (m.act a).state
    have hall : m.actAll (a :: as) = ((m.act a).result :: ((m.act a).state.actAll as).1,
        ((m.act a).state.actAll as).2) := rfl
    refine ⟨w, n + n', ?_, hedits.trans ?_, ?_⟩
    · rw [hall, hlast, hstate]
    · rwa [hstate] at hedits'
    · rw [hall, overflows, Outcome.countP_fails_cons]
      exact Nat.add_le_add hn hn'

/-- What each edit keeps that stores no missing value, a run of actions keeps. The table stays
intact but for one entry too many with each overflow. -/
theorem actAll_rule {P : Table K → Prop} {slack : Nat}
    (hP : ∀ slack t n u, t.Intact slack → P t → Edit m.hash (· ≠ m.missing) t n u → P u)
    (ht : m.table.Intact slack) (hp : P m.table) (as : List (Action K)) :
    ∃ u, (m.actAll as).2 = { m with table := u } ∧ P u ∧
      u.Intact (slack + overflows (m.actAll as).1) := by
  obtain ⟨u, n, hstate, hedits, hn⟩ := edited_actAll m as
  obtain ⟨hu, hpu⟩ := hedits.rule hP ht hp
  exact ⟨u, hstate, hpu, hu.mono (Nat.add_le_add_left hn _)⟩

/-! ## Maps that can be reached -/

/-- A run of actions on some new map that hashes its keys with `hash` ended with the map `m`, and
`n` of the actions overflowed. -/
def Reached (hash : K → UInt64) (n : Nat) (m : Map K) : Prop :=
  ∃ m₀ missing as, (m₀ = empty missing hash ∨ ∃ config, ofConfig config hash = .ok m₀) ∧
    (m₀.actAll as).2 = m ∧ overflows (m₀.actAll as).1 = n

namespace Reached

variable {hash : K → UInt64} {n : Nat}

/-- The hash function is never changed, each overflow leaves one entry too many at most, and under a
hash function that respects equality the entries are in their places. -/
theorem arranged (h : Reached hash n m) : m.hash = hash ∧ m.table.Intact n ∧
    ∀ [EquivBEq K], Respects hash → m.table.Arranged hash := by
  obtain ⟨m₀, missing, as, hnew, rfl, rfl⟩ := h
  obtain ⟨rfl, c, loadFactor, htable, hmin, hlt, hf⟩ := exists_of_new hnew
  obtain ⟨u, hstate, ha, hu⟩ := actAll_rule
    (P := fun t => ∀ [EquivBEq K], Respects m₀.hash → t.Arranged m₀.hash)
    (fun _ _ _ _ ht hp h _ hh => h.arranged ht hh (hp hh))
    (htable ▸ Table.intact_empty hmin hlt hf) (fun _ => htable ▸ Table.arranged_empty _ _) as
  rw [hstate]
  exact ⟨rfl, by rwa [Nat.zero_add] at hu, ha⟩

end Reached

end LinearProbe.Map
