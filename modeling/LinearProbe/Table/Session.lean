import LinearProbe.Table.Stats
import LinearProbe.Table.Traversal
import LinearProbe.Table.Update

/-!
# Sessions with a table

A `Table.Session` is a table with one cursor, the state that a run of calls on a table goes
through. A `Table.Command` is one call with its arguments. The calls that look for a key bring
the key's hash and a predicate that accepts it, and those that move entries bring the function
that hashes them, so nothing ties the calls of a run to one another; `Command.IsLawful` is the
contract under which they fit together: one hash function throughout, and the equality of the
key type.

`Session.perform` carries out a command and `Session.run` a list of them, until one aborts.
-/

namespace LinearProbe.Table

/-- A call of an operation on a table or its cursor. -/
inductive Command (K : Type) where
  | insert? (hash : K → UInt64) (h : UInt64) (accepts : K → Bool) (key : K) (value : Int32)
  | replace? (h : UInt64) (accepts : K → Bool) (value : Int32)
  | replaceAt? (index : Nat) (value : Int32)
  | erase? (hash : K → UInt64) (h : UInt64) (accepts : K → Bool)
  | eraseAt? (hash : K → UInt64) (index : Nat)
  | compact (hash : K → UInt64)
  | clear
  | drain (taken : Nat)
  | startCursor
  | advanceCursor
  | eraseCursor (hash : K → UInt64)

/-- What a call answers. -/
inductive Answer (K : Type) where
  | done
  | index? (i? : Option Nat)
  | value? (v? : Option Int32)
  | pair? (e? : Option (K × Int32))
  | pairs (es : List (K × Int32))
  | histogram (h : Histogram)
deriving DecidableEq, Repr

namespace Command

variable {K : Type}

/-- The command keeps the contract for a hash function: every hash and every function that it
brings is that one, and it looks for keys equal to one key. -/
def IsLawful [BEq K] (hash : K → UInt64) : Command K → Prop
  | insert? hash' h accepts k _ => hash' = hash ∧ h = hash k ∧ accepts = (· == k)
  | replace? h accepts _ => ∃ k, h = hash k ∧ accepts = (· == k)
  | erase? hash' h accepts => hash' = hash ∧ ∃ k, h = hash k ∧ accepts = (· == k)
  | eraseAt? hash' _ | compact hash' | eraseCursor hash' => hash' = hash
  | replaceAt? _ _ | clear | drain _ | startCursor | advanceCursor => True

end Command

/-- A table and a cursor over it. -/
structure Session (K : Type) where
  table : Table K
  cursor : Cursor
deriving Repr

namespace Session

variable {K : Type}

/-- A table with a cursor in front of its first entry. -/
def new (t : Table K) : Session K :=
  ⟨t, Cursor.new t⟩

/-- The session with its table changed as an operation on the table leaves it. -/
def lift {α : Type} (s : Session K) (o : Outcome Abort (Table K) α) :
    Outcome Abort (Session K) α :=
  o.within id fun t => { s with table := t }

/-- Carries out a command. -/
def perform [Stored K] (s : Session K) : Command K → Outcome Abort (Session K) (Answer K)
  | .insert? hash h p k v => (s.lift (s.table.insert? hash h p k v)).map .value?
  | .replace? h p v => (s.lift (s.table.replace? h p v)).map .value?
  | .replaceAt? i v => (s.lift (s.table.replaceAt? i v)).map .value?
  | .erase? hash h p => (s.lift (s.table.erase? hash h p)).map .pair?
  | .eraseAt? hash i => (s.lift (s.table.eraseAt? hash i)).map .pair?
  | .compact hash => (s.lift (s.table.compact hash)).map fun _ => .done
  | .clear => .ok .done { s with table := s.table.clear }
  | .drain n =>
    let (it, t) := s.table.drain
    .ok (.pairs (it.toList.take n)) { s with table := t }
  | .startCursor => .ok .done (new s.table)
  | .advanceCursor =>
    let (i?, c) := s.cursor.advance s.table
    .ok (.index? i?) { s with cursor := c }
  | .eraseCursor hash =>
    ((s.cursor.erase hash s.table).within id fun (t, c) => ⟨t, c⟩).map .pair?

/-- Carries out commands one after the other up to the first that aborts; the answer is the list
of their answers. -/
def run [Stored K] (s : Session K) : List (Command K) → Outcome Abort (Session K) (List (Answer K))
  | [] => .ok [] s
  | c :: cs =>
    match s.perform c with
    | .error a s' => .error a s'
    | .ok r s' => (run s' cs).map (r :: ·)

end Session

end LinearProbe.Table
