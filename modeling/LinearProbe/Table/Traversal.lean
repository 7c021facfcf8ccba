import LinearProbe.Table.Update

/-!
# Traversals and cursors

A traversal visits the slots in cyclic order from `Table.start`. The start is chosen so that no
probe path crosses it: the first slot if the last one is empty, and otherwise the slot behind the
first empty one. In this order `Table.order` lists all slots.

Two iterators go over the entries. `Entries` holds the slots it has not looked at yet, so it is a
value of its own and can be copied; `Table.iter` yields them in the order of a traversal.
`Visits` yields the slots that hold entries rather than the entries, so that a value can be written
while the traversal goes on; it looks at the table in every step. Both count down the number of
entries of the table and stop at zero; `Entries.steps` asks for more.

`Table.drain` empties the table and yields what was in it by index. `Table.drain?` gives the table
new rows, for a number of slots that is found anew from the old one and may turn out not to be
allocatable; from then on the iterator and the table have nothing to do with each other.

A `Cursor` is a position in a traversal at which the entry it stands on can be erased. It keeps
the slot where the traversal started, the number of slots it has looked at, and the slot of the
entry it stands on. It holds no table: every step is given the table it was made for. Erasing shifts
entries behind the gap back, and one of them may come to lie in the slot just looked at.
`Cursor.erase` therefore steps back by one slot, so that the slot is looked at again.
-/

namespace LinearProbe

/-! ## Iterators -/

/-- An iterator over entries: the slots not looked at yet, and the number of entries left. -/
structure Entries (K : Type) where
  slots : List (Option K × Int32)
  left : Nat
deriving DecidableEq, Repr

namespace Entries

variable {K : Type}

/-- The first entry among slots, with the slots behind it. -/
def seek : List (Option K × Int32) → Option ((K × Int32) × List (Option K × Int32))
  | [] => none
  | (none, _) :: rest => seek rest
  | (some k, v) :: rest => some ((k, v), rest)

/-- The next entry, with the iterator after it. -/
def next? (it : Entries K) : Option ((K × Int32) × Entries K) :=
  if it.left = 0 then none
  else (seek it.slots).map fun (e, rest) => (e, ⟨rest, it.left - 1⟩)

/-- The next entry, or nothing behind the last one, and the iterator after it. -/
def step (it : Entries K) : Option (K × Int32) × Entries K :=
  match it.next? with
  | none => (none, it)
  | some (e, it') => (some e, it')

/-- What `n` calls for the next entry answer, and the iterator after them. -/
def steps : Nat → Entries K → List (Option (K × Int32)) × Entries K
  | 0, it => ([], it)
  | n + 1, it =>
    let (e?, it') := it.step
    let (es, it'') := steps n it'
    (e? :: es, it'')

/-- How many entries are left, at least and at most. -/
def sizeHint (it : Entries K) : Nat × Option Nat :=
  (it.left, some it.left)

/-- The entries among slots. -/
def held (slots : List (Option K × Int32)) : List (K × Int32) :=
  slots.filterMap fun (k?, v) => k?.map fun k => (k, v)

/-- All entries that are left. -/
def toList (it : Entries K) : List (K × Int32) :=
  (held it.slots).take it.left

theorem held_of_seek_eq_none {slots : List (Option K × Int32)} (h : seek slots = none) :
    held slots = [] := by
  induction slots with
  | nil => rfl
  | cons slot rest ih =>
    obtain ⟨_ | k, v⟩ := slot
    · simpa [held] using ih h
    · simp [seek] at h

theorem held_of_seek_eq_some {slots rest : List (Option K × Int32)} {e : K × Int32}
    (h : seek slots = some (e, rest)) : held slots = e :: held rest := by
  induction slots with
  | nil => simp [seek] at h
  | cons slot slots ih =>
    obtain ⟨_ | k, v⟩ := slot
    · simpa [held] using ih h
    · obtain ⟨rfl, rfl⟩ : (k, v) = e ∧ slots = rest := by simpa [seek] using h
      rfl

/-- An iterator without a next entry has none left. -/
theorem toList_of_next?_eq_none {it : Entries K} (h : it.next? = none) : it.toList = [] := by
  unfold next? at h
  split at h
  · next h0 => simp [toList, h0]
  · simp [toList, held_of_seek_eq_none (Option.map_eq_none_iff.1 h)]

/-- The next entry of an iterator is the first of those left. -/
theorem toList_of_next?_eq_some {it it' : Entries K} {e : K × Int32}
    (h : it.next? = some (e, it')) : it.toList = e :: it'.toList := by
  unfold next? at h
  split at h
  · simp at h
  · next h0 =>
    obtain ⟨⟨e', rest⟩, hs, heq⟩ := Option.map_eq_some_iff.1 h
    obtain ⟨rfl, rfl⟩ := Prod.mk.inj heq
    obtain ⟨n, hn⟩ := Nat.exists_eq_succ_of_ne_zero h0
    simp [toList, held_of_seek_eq_some hs, hn]

end Entries

/-- An iterator over the slots that hold entries: the slots not looked at yet, and the number of
entries left. -/
structure Visits where
  slots : List Nat
  left : Nat
deriving DecidableEq, Repr

namespace Visits

variable {K : Type}

/-- The first slot that holds an entry, with the slots behind it. -/
def seek (t : Table K) : List Nat → Option (Nat × List Nat)
  | [] => none
  | i :: rest => if (t.key? i).isSome then some (i, rest) else seek t rest

/-- The next slot that holds an entry, with the iterator after it. -/
def next? (t : Table K) (it : Visits) : Option (Nat × Visits) :=
  if it.left = 0 then none
  else (seek t it.slots).map fun (i, rest) => (i, ⟨rest, it.left - 1⟩)

/-- All slots with entries that are left. -/
def toList (t : Table K) (it : Visits) : List Nat :=
  (it.slots.filter fun i => (t.key? i).isSome).take it.left

end Visits

/-! ## The order of a traversal -/

namespace Table

variable {K : Type}

/-- The first slot of a traversal. -/
def start (t : Table K) : Nat :=
  match t.key? (t.capacity - 1) with
  | none => 0
  | some _ =>
    match (List.range t.capacity).find? fun i => (t.key? i).isNone with
    | some i => t.next i
    | none => 0

/-- All slots in cyclic order from slot `s` on. -/
def cycle (t : Table K) (s : Nat) : List Nat :=
  (List.range t.capacity).map fun d => (s + d) % t.capacity

/-- All slots in the order of a traversal. -/
def order (t : Table K) : List Nat :=
  t.cycle t.start

/-- An iterator over the entries. -/
def iter (t : Table K) : Entries K :=
  ⟨t.order.map fun i => (t.key? i, t.value i), t.size⟩

/-- An iterator over the slots with entries. -/
def visits (t : Table K) : Visits :=
  ⟨t.order, t.size⟩

/-- The entries in the order of a traversal. -/
def toList (t : Table K) : List (K × Int32) :=
  t.iter.toList

/-- The table emptied, and an iterator over what was in it by index. -/
def drain (t : Table K) : Entries K × Table K :=
  (⟨t.keys.toList.zip t.values.toList, t.size⟩, t.clear)

/-- The table emptied into new rows, and an iterator over the old rows by index. -/
def drain? [Stored K] (t : Table K) : Except Abort (Entries K × Table K) :=
  match capacityFor t.capacity.toUInt64 with
  | .error a => .error a
  | .ok slots =>
    if isAllocatable K slots then
      .ok (⟨t.keys.toList.zip t.values.toList, t.size⟩,
        { t with keys := Array.replicate slots none, values := Array.replicate slots 0, size := 0 })
    else .error .capacityOverflow

/-- Some entry has the value. -/
def containsValue (t : Table K) (v : Int32) : Bool :=
  t.toList.any fun e => e.2 = v

end Table

/-! ## Cursors -/

/-- A position in a traversal. -/
structure Cursor where
  /-- The slot where the traversal started. -/
  start : Nat
  /-- How many slots have been looked at. -/
  visited : Nat
  /-- The slot of the entry that the cursor stands on. -/
  current : Option Nat
deriving DecidableEq, Repr

namespace Cursor

variable {K : Type}

/-- A cursor in front of the first entry. -/
def new (t : Table K) : Cursor :=
  ⟨t.start, 0, none⟩

/-- The first slot with an entry among the next `n` ones, when `visited` have been looked at, and
how many have been looked at after it. -/
def seek (t : Table K) (start : Nat) : Nat → Nat → Option (Nat × Nat)
  | 0, _ => none
  | n + 1, visited =>
    let i := (start + visited) % t.capacity
    if (t.key? i).isSome then some (i, visited + 1) else seek t start n (visited + 1)

/-- The cursor moved to the next entry, and the slot of that entry. Behind the last entry it
stands on none. -/
def advance (t : Table K) (c : Cursor) : Option Nat × Cursor :=
  match seek t c.start (t.capacity - c.visited) c.visited with
  | some (i, visited) => (some i, ⟨c.start, visited, some i⟩)
  | none => (none, ⟨c.start, max c.visited t.capacity, none⟩)

/-- The entry that the cursor stands on erased; the answer is that entry. Whether there was one
or not, the cursor stands on none afterwards. -/
def erase (hash : K → UInt64) (t : Table K) (c : Cursor) :
    Outcome Abort (Table K × Cursor) (Option (K × Int32)) :=
  match c.current with
  | none => .ok none (t, c)
  | some i =>
    match t.eraseAt? hash i with
    | .error a t' => .error a (t', { c with current := none })
    | .ok none t' => .ok none (t', { c with current := none })
    | .ok (some e) t' => .ok (some e) (t', ⟨c.start, c.visited - 1, none⟩)

/-- The cursor as a record. -/
def inspect (c : Cursor) : String :=
  let current := match c.current with
    | none => "None"
    | some i => "Some(" ++ toString i ++ ")"
  Layout.inline.record "RawCursor"
    [("start", toString c.start), ("visited", toString c.visited), ("current", current)]

end Cursor

end LinearProbe
