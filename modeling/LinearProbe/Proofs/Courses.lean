import LinearProbe.Map.Traversal
import LinearProbe.Table.Session

/-!
# Courses

A `Course` is what a walk is about without the slots: the entries left behind, the one it stands on,
and those ahead, in the order in which they are met. Its steps are what a caller of a cursor expects
of them, with nothing to go wrong. There are two kinds of calls that a course can take: those of a
cursor over a table (`Table.Session.Call`), where each erasure brings the function that hashes keys,
and those of a walk over a map (`Map.Walk.Step`).

In both, the entries moved to are those ahead one after the other (`met_callAll`, `met_takeAll`),
and when one answer was that there is none, they are all of them (`ahead_callAll`,
`ahead_takeAll`).
-/

namespace LinearProbe

/-! ## Calls of a cursor -/

namespace Table.Session

/-- A call of a cursor over a table. Each erasure brings the function that hashes keys. -/
inductive Call (K : Type) where
  | advance
  | erase (hash : K → UInt64)

variable {K : Type}

/-- Carries out a call; the answer is the entry moved to or the entry erased. -/
def call (s : Session K) : Call K → Outcome Abort (Session K) (Option (K × Int32))
  | .advance =>
    let (i?, c) := s.cursor.advance s.table
    .ok (i?.bind s.table.slot?) { s with cursor := c }
  | .erase hash => (s.cursor.erase hash s.table).within id fun (t, c) => ⟨t, c⟩

/-- Carries out calls one after the other up to the first that aborts. -/
def callAll (s : Session K) :
    List (Call K) → Outcome Abort (Session K) (List (Option (K × Int32)))
  | [] => .ok [] s
  | c :: cs =>
    match s.call c with
    | .error a s' => .error a s'
    | .ok r s' => (callAll s' cs).map (r :: ·)

/-- The entries moved to, by calls and their answers. -/
def met : List (Call K) → List (Option (K × Int32)) → List (K × Int32)
  | .advance :: cs, some e :: rs => e :: met cs rs
  | _ :: cs, _ :: rs => met cs rs
  | _, _ => []

end Table.Session

namespace Map.Walk

variable {K : Type}

/-- The entries moved to, by steps and their results. -/
def met : List Step → List (Except Failure (Reply K)) → List (K × Int32)
  | .next :: ss, .ok (.pair? (some e)) :: rs => e :: met ss rs
  | _ :: ss, _ :: rs => met ss rs
  | _, _ => []

end Map.Walk

/-! ## Courses -/

/-- A walk over a list: the entries left behind, the one it stands on, and those ahead. -/
structure Course (K : Type) where
  behind : List (K × Int32)
  current : Option (K × Int32)
  ahead : List (K × Int32)

namespace Course

open Table Map

variable {K : Type} {c : Course K} {missing : Int32}

/-- In front of the first entry. -/
def start (es : List (K × Int32)) : Course K :=
  ⟨[], none, es⟩

/-- The entries that there are. -/
def entries (c : Course K) : List (K × Int32) :=
  c.behind ++ c.current.toList ++ c.ahead

/-- Moved to the first entry ahead, if there is one. -/
def next (c : Course K) : Course K :=
  ⟨c.behind ++ c.current.toList, c.ahead.head?, c.ahead.tail⟩

/-- Without the entry it stands on. -/
def drop (c : Course K) : Course K :=
  { c with current := none }

/-- What a call of a cursor comes to. -/
def call (c : Course K) : Session.Call K → Option (K × Int32) × Course K
  | .advance => (c.next.current, c.next)
  | .erase _ => (c.current, c.drop)

/-- What calls of a cursor come to, one after the other. -/
def callAll (c : Course K) : List (Session.Call K) → List (Option (K × Int32)) × Course K
  | [] => ([], c)
  | a :: cs =>
    let (r, c') := c.call a
    let (rs, c'') := callAll c' cs
    (r :: rs, c'')

/-- What a step of a walk over a map comes to. -/
def take (missing : Int32) (c : Course K) :
    Walk.Step → Outcome Failure (Course K) (Walk.Reply K)
  | .next => .ok (.pair? c.next.current) c.next
  | .current? => .ok (.pair? c.current) c
  | .set v =>
    if v = missing then .error (.refused (.missingValue v)) c
    else match c.current with
      | none => .error (.refused .noCurrentEntry) c
      | some (k, old) => .ok (.value old) { c with current := some (k, v) }
  | .erase =>
    match c.current with
    | none => .error (.refused .noCurrentEntry) c
    | some e => .ok (.pair e) c.drop

/-- What steps of a walk over a map come to, one after the other. -/
def takeAll (missing : Int32) (c : Course K) :
    List Walk.Step → List (Except Failure (Walk.Reply K)) × Course K
  | [] => ([], c)
  | s :: ss =>
    let o := c.take missing s
    let (rs, c') := takeAll missing o.state ss
    (o.result :: rs, c')

/-! ## What is met -/

theorem ahead_take_set (v : Int32) : (c.take missing (.set v)).state.ahead = c.ahead := by
  rw [take]
  split
  · rfl
  · split <;> rfl

theorem ahead_take_erase : (c.take missing .erase).state.ahead = c.ahead := by
  rw [take]
  split <;> rfl

/-- The entries moved to and those still ahead are those that were ahead. -/
theorem met_callAll (cs : List (Session.Call K)) :
    Session.met cs (c.callAll cs).1 ++ (c.callAll cs).2.ahead = c.ahead := by
  induction cs generalizing c with
  | nil => rfl
  | cons a cs ih =>
    cases a with
    | advance =>
      cases hc : c.ahead with
      | nil => simpa [callAll, call, next, Session.met, hc] using ih (c := c.next)
      | cons e es => simpa [callAll, call, next, Session.met, hc] using ih (c := c.next)
    | erase hash => simpa [callAll, call, drop, Session.met] using ih (c := c.drop)

/-- No entry is ahead once a move has found none. -/
theorem ahead_callAll (cs : List (Session.Call K))
    (h : (.advance, none) ∈ cs.zip (c.callAll cs).1) : (c.callAll cs).2.ahead = [] := by
  induction cs generalizing c with
  | nil => simp at h
  | cons a cs ih =>
    rcases List.mem_cons.1 h with heq | hmem
    · obtain ⟨rfl, hnone⟩ := Prod.mk.inj heq
      have hnil : c.ahead = [] := List.head?_eq_none_iff.1 hnone.symm
      have hmet := met_callAll (c := c.next) cs
      rw [show c.next.ahead = [] by simp [next, hnil]] at hmet
      exact (List.append_eq_nil_iff.1 hmet).2
    · exact ih hmem

theorem met_takeAll (missing : Int32) (ss : List Walk.Step) :
    Walk.met ss (c.takeAll missing ss).1 ++ (c.takeAll missing ss).2.ahead = c.ahead := by
  induction ss generalizing c with
  | nil => rfl
  | cons s ss ih =>
    have hrest := ih (c := (c.take missing s).state)
    cases s with
    | next =>
      cases hc : c.ahead with
      | nil => simpa [takeAll, take, next, Walk.met, Outcome.result, Outcome.state, hc] using hrest
      | cons e es =>
        simpa [takeAll, take, next, Walk.met, Outcome.result, Outcome.state, hc] using hrest
    | current? => exact hrest
    | set v => exact hrest.trans (ahead_take_set v)
    | erase => exact hrest.trans ahead_take_erase

theorem ahead_takeAll (missing : Int32) (ss : List Walk.Step)
    (h : (.next, .ok (.pair? none)) ∈ ss.zip (c.takeAll missing ss).1) :
    (c.takeAll missing ss).2.ahead = [] := by
  induction ss generalizing c with
  | nil => simp at h
  | cons s ss ih =>
    rcases List.mem_cons.1 h with heq | hmem
    · obtain ⟨rfl, hnone⟩ := Prod.mk.inj heq
      have hnil : c.ahead = [] := by
        simpa [take, next, Outcome.result, eq_comm] using hnone
      have hmet := met_takeAll (c := c.next) missing ss
      rw [show c.next.ahead = [] by simp [next, hnil]] at hmet
      exact (List.append_eq_nil_iff.1 hmet).2
    · exact ih hmem

end Course

end LinearProbe
