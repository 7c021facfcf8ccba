import LinearProbe.Map.Traversal
import LinearProbe.Map.Update

/-!
# Commands to a map and other actions

A `Command` is one call of an operation on a map by key or as a whole, with its arguments, and an
`Answer` is what such a call answers; `Map.perform` carries a command out, and `Map.performAll`
carries out a list of commands, each on the state that the one before it left, whether that one
answered or failed.

An `Action` is anything that can be done to a map that may change it : a command, copying another
map, filtering with a predicate that may depend on all it was asked before, overwriting the value
that a visit is at, a walk of a cursor, and draining. `Map.act` carries an action out and leaves
out what it answers; `Map.actAll` carries out a list of actions.
-/

namespace LinearProbe.Map

/-! ## Commands -/

/-- A call of an operation on a map. -/
inductive Command (K : Type) where
  | get (key : K)
  | get? (key : K)
  | getD (key : K) (fallback : Int32)
  | getPair? (key : K)
  | contains (key : K)
  | containsValue (value : Int32)
  | require (key : K)
  | insert (key : K) (value : Int32)
  | insert? (key : K) (value : Int32)
  | insertMany (entries : List (K × Int32))
  | replace? (key : K) (value : Int32)
  | erase (key : K)
  | erase? (key : K)
  | erasePair? (key : K)
  | getOrInsertWith (key : K) (f : K → Int32)
  | modify (key : K) (f : K → Int32 → Int32)
  | combine (key : K) (value : Int32) (f : Int32 → Int32 → Int32)
  | filter (p : K → Int32 → Bool)
  | compact
  | clear

/-- What a call answers. -/
inductive Answer (K : Type) where
  | done
  | flag (b : Bool)
  | value (v : Int32)
  | value? (v? : Option Int32)
  | pair? (e? : Option (K × Int32))
deriving DecidableEq, Repr

variable {K : Type}

/-- The outcome of a look-up, which leaves the map alone. -/
def observe {α : Type} (m : Map K) (x : Except Abort α) : Outcome Failure (Map K) α :=
  .ofExcept m (x.mapError .aborted)

variable [BEq K] [Stored K]

/-- Carries out a command. -/
def perform (m : Map K) : Command K → Outcome Failure (Map K) (Answer K)
  | .get k => (m.observe (m.get k)).map .value
  | .get? k => (m.observe (m.get? k)).map .value?
  | .getD k v => (m.observe (m.getD k v)).map .value
  | .getPair? k => (m.observe (m.getPair? k)).map .pair?
  | .contains k => (m.observe (m.contains k)).map .flag
  | .containsValue v => .ok (.flag (m.containsValue v)) m
  | .require k => (m.observe (m.require k)).map .value
  | .insert k v => (m.insert k v).map .value
  | .insert? k v => (m.insert? k v).map .value?
  | .insertMany es => (m.insertMany es).map fun _ => .done
  | .replace? k v => (m.replace? k v).map .value?
  | .erase k => (m.erase k).map .value
  | .erase? k => (m.erase? k).map .value?
  | .erasePair? k => (m.erasePair? k).map .pair?
  | .getOrInsertWith k f => (m.getOrInsertWith k f).map .value
  | .modify k f => (m.modify k f).map .value
  | .combine k v f => (m.combine k v f).map .value
  | .filter p => (m.filter p).map fun _ => .done
  | .compact => m.compact.map fun _ => .done
  | .clear => .ok .done m.clear

/-- Carries out commands one after the other: their results and the last state. -/
def performAll (m : Map K) : List (Command K) → List (Except Failure (Answer K)) × Map K
  | [] => ([], m)
  | c :: cs =>
    let o := m.perform c
    let (rs, m') := performAll o.state cs
    (o.result :: rs, m')

/-! ## Actions -/

/-- Something to do to a map. -/
inductive Action (K : Type) where
  | command (c : Command K)
  | insertMap (other : Map K)
  /-- Filtering; the predicate is given the entries it was asked about before. -/
  | filterWith (p : List (K × Int32) → K → Int32 → Bool)
  /-- Overwriting the value of the entry that is met after `n` others. -/
  | setVisited (n : Nat) (value : Int32)
  | walk (steps : List Walk.Step)
  | drain

/-- Carries out an action. -/
def act (m : Map K) : Action K → Outcome Failure (Map K) Unit
  | .command c => (m.perform c).map fun _ => ()
  | .insertMap other => m.insertMap other
  | .filterWith p =>
    (m.filterWith (fun asked k v => (p asked k v, asked ++ [(k, v)])) []).map fun _ => ()
  | .setVisited n v =>
    match (m.visits.toList m.table)[n]? with
    | none => .ok () m
    | some i => (m.setAt i v).map fun _ => ()
  | .walk steps => .ok () (m.walk.takeAll steps).2.map
  | .drain => .ok () m.drain.2

/-- Carries out actions one after the other: how they ended and the last state. -/
def actAll (m : Map K) : List (Action K) → List (Except Failure Unit) × Map K
  | [] => ([], m)
  | a :: as =>
    let o := m.act a
    let (rs, m') := actAll o.state as
    (o.result :: rs, m')

/-- How many of the results are aborts for want of slots. -/
def overflows (rs : List (Except Failure Unit)) : Nat :=
  rs.countP (Outcome.fails (.aborted .capacityOverflow))

end LinearProbe.Map
