import LinearProbe.Map.Traversal

/-!
# Traversals side by side

A map can be traversed in several ways (`Traversal`) : by iterators over its entries or over one
part of them, by visits, by a cursor over its table, and by a walk. A `Reader` is a traversal that
may have come some way, and `Reader.next` moves it on. Iterators and visits tell how many items they
will yet yield; iterators and cursors can be copied.

A `Reading` is what can be done with traversals that are represented in one way or another. A
`Reading.Command` is one call on one of several traversals, and `Reading.run` carries out a list of
calls. `Map.reading` is about the readers of a map, and `Listing.reading` about lists of items, of
which nothing is known but what is still to come.
-/

namespace LinearProbe

/-! ## What is read -/

/-- What an iterator yields of an entry. -/
inductive Part where
  | entry
  | key
  | value
deriving DecidableEq, Repr

/-- A way to traverse a map. -/
inductive Traversal where
  | iter (part : Part)
  | visits
  | cursor
  | walk
deriving DecidableEq, Repr

/-- What a traversal yields. Visits and cursors yield the slot of an entry. -/
inductive Item (K : Type) where
  | entry (e : K × Int32)
  | key (k : K)
  | value (v : Int32)
  | slot (i : Nat) (e : K × Int32)
deriving DecidableEq, Repr

/-- The part of an entry. -/
def Part.of {K : Type} : Part → K × Int32 → Item K
  | entry, e => .entry e
  | key, e => .key e.1
  | value, e => .value e.2

namespace Traversal

/-- What the traversal yields for an entry and its slot. -/
def view {K : Type} : Traversal → Nat × K × Int32 → Item K
  | iter part, (_, e) => part.of e
  | visits, (i, e) | cursor, (i, e) => .slot i e
  | walk, (_, e) => .entry e

/-- The traversal tells how many items are left. -/
def isSized : Traversal → Bool
  | iter _ | visits => true
  | cursor | walk => false

/-- The traversal can be copied. -/
def isCopied : Traversal → Bool
  | iter _ | cursor => true
  | visits | walk => false

end Traversal

/-! ## Several traversals -/

/-- What can be done with traversals that are represented by `R`. -/
structure Reading (K R : Type) where
  /-- A traversal in front of the first entry. -/
  start : Traversal → R
  /-- The next item, and the traversal behind it. -/
  next : R → Option (Item K) × R
  /-- Bounds for the number of items left. -/
  sizeHint? : R → Option (Nat × Option Nat)
  /-- A copy of the traversal. -/
  copy? : R → Option R

namespace Reading

variable {K R : Type}

/-- A call on one of several traversals, which are numbered as they were started or copied. -/
inductive Command where
  | start (way : Traversal)
  | next (reader : Nat)
  | sizeHint? (reader : Nat)
  | copy? (reader : Nat)
deriving DecidableEq, Repr

/-- What a call answers. -/
inductive Answer (K : Type) where
  | done
  | absent
  | item? (x? : Option (Item K))
  | sizeHint? (bounds? : Option (Nat × Option Nat))
deriving DecidableEq, Repr

/-- Carries out a call on the traversals there are. -/
def perform (T : Reading K R) (rs : List R) : Command → Answer K × List R
  | .start way => (.done, rs ++ [T.start way])
  | .next j =>
    match rs[j]? with
    | none => (.absent, rs)
    | some r => (.item? (T.next r).1, rs.set j (T.next r).2)
  | .sizeHint? j =>
    match rs[j]? with
    | none => (.absent, rs)
    | some r => (.sizeHint? (T.sizeHint? r), rs)
  | .copy? j =>
    match rs[j]?.bind T.copy? with
    | none => (.absent, rs)
    | some r => (.done, rs ++ [r])

/-- Carries out calls one after the other : their answers, and the traversals there are then. -/
def run (T : Reading K R) (rs : List R) : List Command → List (Answer K) × List R
  | [] => ([], rs)
  | c :: cs =>
    let (a, rs') := T.perform rs c
    let (as, rs'') := run T rs' cs
    (a :: as, rs'')

/-- A traversal that was moved on `n` times. -/
def after (T : Reading K R) (way : Traversal) : Nat → R
  | 0 => T.start way
  | n + 1 => (T.next (after T way n)).2

end Reading

/-! ## Readers of a map -/

/-- A traversal of a map that may have come some way. -/
inductive Reader (K : Type) where
  | iter (part : Part) (it : Entries K)
  | visits (it : Visits)
  | cursor (c : Cursor)
  | walk (w : Map.Walk K)

namespace Reader

variable {K : Type}

/-- The way in which the map is traversed. -/
def way : Reader K → Traversal
  | iter part _ => .iter part
  | visits _ => .visits
  | cursor _ => .cursor
  | walk _ => .walk

/-- A reader in front of the first entry. -/
def start (m : Map K) : Traversal → Reader K
  | .iter part => iter part m.iter
  | .visits => visits m.visits
  | .cursor => cursor (Cursor.new m.table)
  | .walk => walk m.walk

/-- The next item, and the reader behind it. -/
def next (m : Map K) : Reader K → Option (Item K) × Reader K
  | iter part it =>
    match it.next? with
    | none => (none, iter part it)
    | some (e, it') => (some (part.of e), iter part it')
  | visits it =>
    match it.next? m.table with
    | none => (none, visits it)
    | some (i, it') => ((m.table.slot? i).map (.slot i), visits it')
  | cursor c =>
    let (i?, c') := c.advance m.table
    (i?.bind fun i => (m.table.slot? i).map (.slot i), cursor c')
  | walk w =>
    let (e?, w') := w.next
    (e?.map .entry, walk w')

/-- How many items are left, at least and at most. -/
def sizeHint? : Reader K → Option (Nat × Option Nat)
  | iter _ it => some (it.left, some it.left)
  | visits it => some (it.left, some it.left)
  | cursor _ | walk _ => none

/-- A reader of its own that goes on from the same place. -/
def copy? : Reader K → Option (Reader K)
  | iter part it => some (iter part it)
  | cursor c => some (cursor c)
  | visits _ | walk _ => none

end Reader

/-- The readers of a map that is not changed. -/
def Map.reading {K : Type} (m : Map K) : Reading K (Reader K) where
  start := Reader.start m
  next := Reader.next m
  sizeHint? := Reader.sizeHint?
  copy? := Reader.copy?

/-! ## Lists of items -/

/-- The items that are left of a traversal. -/
structure Listing (K : Type) where
  way : Traversal
  items : List (Item K)
deriving DecidableEq, Repr

/-- Lists of items, of which each traversal takes the first one as long as there is one. -/
def Listing.reading {K : Type} (stops : List (Nat × K × Int32)) : Reading K (Listing K) where
  start way := ⟨way, stops.map way.view⟩
  next l := (l.items.head?, { l with items := l.items.tail })
  sizeHint? l := if l.way.isSized then some (l.items.length, some l.items.length) else none
  copy? l := if l.way.isCopied then some l else none

/-- The entries in the order of a traversal, with their slots. -/
def Table.stops {K : Type} (t : Table K) : List (Nat × K × Int32) :=
  t.order.filterMap fun i => (t.slot? i).map (i, ·)

end LinearProbe
