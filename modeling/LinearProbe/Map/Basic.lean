import LinearProbe.Table.Stats
import LinearProbe.Table.Traversal
import LinearProbe.Table.Update

/-!
# Maps to 32-bit integers

A `Map` is a table together with the function that hashes its keys and with a value that stands
for absence. That value is never stored, so a look-up can answer with it instead of with an
`Option` and nothing is lost: `Map.get k` is the value of `k`, or the missing value exactly if
there is none.

Keys are compared with the equality of their type. This module holds construction, look-ups, and
what else a map shows without being changed.

Two maps are the same (`Map.sameAs`) if they have as many entries and every entry of the first is
one of the second; neither the order of the slots nor the hash functions matter. `Map.hashCode`
agrees with that: it adds up, modulo `2 ^ 64`, one word for each entry, the hash of its key combined
with the bits of its value. That hash of keys is one for all maps, whatever hash functions they were
built with, so it is an argument.
-/

namespace LinearProbe

/-- A map from keys to 32-bit integers, one of which stands for absence. -/
structure Map (K : Type) where
  table : Table K
  hash : K → UInt64
  missing : Int32

namespace Map

variable {K : Type}

/-! ## Construction -/

/-- An empty map with the default number of slots and load factor. -/
def empty (missing : Int32) (hash : K → UInt64) : Map K :=
  ⟨Table.empty minCapacity defaultLoadFactor, hash, missing⟩

/-- An empty map with the given parameters, which are validated first. -/
def ofConfig [Stored K] (c : Config) (hash : K → UInt64) : Except Failure (Map K) :=
  match c.validate with
  | .error e => .error (.refused e)
  | .ok _ =>
    match Table.ofHint c.capacityHint c.loadFactor with
    | .error a => .error (.aborted a)
    | .ok t => .ok ⟨t, hash, c.missing⟩

/-! ## Size and entries -/

/-- The number of entries. -/
def size (m : Map K) : Nat :=
  m.table.size

/-- The map has no entries. -/
def isEmpty (m : Map K) : Bool :=
  m.table.isEmpty

/-- The number of slots. -/
def capacity (m : Map K) : Nat :=
  m.table.capacity

/-- The entries in the order of a traversal. -/
def toList (m : Map K) : List (K × Int32) :=
  m.table.toList

/-- Some key has the value. -/
def containsValue (m : Map K) (v : Int32) : Bool :=
  v ≠ m.missing && m.table.containsValue v

/-! ## Look-ups -/

section Lookup

variable [BEq K]

/-- The stored key equal to `k`, with its value. -/
def getPair? (m : Map K) (k : K) : Except Abort (Option (K × Int32)) :=
  m.table.find? (m.hash k) (· == k)

/-- The value of a key. -/
def get? (m : Map K) (k : K) : Except Abort (Option Int32) :=
  m.table.get? (m.hash k) (· == k)

/-- The value of a key, or `v` if it has none. -/
def getD (m : Map K) (k : K) (v : Int32) : Except Abort Int32 :=
  (m.get? k).map fun v? => v?.getD v

/-- The value of a key, or the missing value if it has none. -/
def get (m : Map K) (k : K) : Except Abort Int32 :=
  m.getD k m.missing

/-- The key has a value. -/
def contains (m : Map K) (k : K) : Except Abort Bool :=
  (m.table.indexOf? (m.hash k) (· == k)).map Option.isSome

/-- The value of a key that has to have one. -/
def require (m : Map K) (k : K) : Except Abort Int32 :=
  match m.get? k with
  | .error a => .error a
  | .ok none => .error .keyNotFound
  | .ok (some v) => .ok v

end Lookup

/-! ## Equality and hash codes -/

/-- Each of the entries is an entry of the map. The look-ups stop at the first that is not. -/
def includesAll [BEq K] (m : Map K) : List (K × Int32) → Except Abort Bool
  | [] => .ok true
  | (k, v) :: rest =>
    match m.get? k with
    | .error a => .error a
    | .ok v? => if v? = some v then m.includesAll rest else .ok false

/-- The maps have the same entries. -/
def sameAs [BEq K] (m n : Map K) : Except Abort Bool :=
  if m.size = n.size then n.includesAll m.toList else .ok false

/-- The word of an entry in a hash code. -/
def entryCode (keyCode : K → UInt64) (e : K × Int32) : UInt64 :=
  keyCode e.1 ^^^ e.2.toUInt32.toUInt64

/-- A hash of the entries that does not depend on their order. -/
def hashCode (keyCode : K → UInt64) (m : Map K) : UInt64 :=
  m.toList.foldl (fun sum e => sum + entryCode keyCode e) 0

/-- A map as the key of another one gives a hash function one word, its hash code. `write` is how
the hash function takes a word into its state. -/
def hashInto {σ : Type} (write : σ → UInt64 → σ) (keyCode : K → UInt64) (m : Map K)
    (state : σ) : σ :=
  write state (m.hashCode keyCode)

/-! ## Text and statistics -/

/-- The entries for display, `key=value` between braces. -/
def display [Shown K] (m : Map K) : String :=
  "\x7b" ++ ", ".intercalate (m.toList.map fun (k, v) => Shown.display k ++ "=" ++ toString v) ++
    "\x7d"

/-- The entries for inspection, as a mapping. -/
def inspect [Shown K] (layout : Layout) (m : Map K) : String :=
  layout.mapping (m.toList.map fun (k, v) => (Shown.inspect k, toString v))

/-- The entries counted by displacement, under the hash function of the map. -/
def histogram (m : Map K) : Histogram :=
  m.table.histogram m.hash

/-- Occupancy, probe lengths and memory, under the hash function of the map. -/
def stats [Stored K] (m : Map K) : Stats :=
  m.table.stats m.hash

end Map

end LinearProbe
