import LinearProbe.Table.Basic

/-!
# Probing

The probe for a key begins at the home of its hash and goes from slot to slot until it meets the
key or an empty slot. `Table.locate` returns the `Spot` where it stops: `Spot.held` with the key,
or `Spot.free` where the key would go. A probe that has met every slot without stopping would
meet them again, so it is reported as endless.

The look-ups by key are what the spot says; those by index abort outside the row.
-/

namespace LinearProbe

/-- Where the probe for a key stops. -/
inductive Spot where
  /-- The slot that holds the key. -/
  | held (index : Nat)
  /-- The empty slot where the key would go. -/
  | free (index : Nat)
deriving DecidableEq, Repr

namespace Spot

/-- The slot of the spot. -/
def index : Spot → Nat
  | held i => i
  | free i => i

/-- The slot of the spot, if the key is in it. -/
def held? : Spot → Option Nat
  | held i => some i
  | free _ => none

end Spot

namespace Table

variable {K : Type}

/-! ## The probe -/

/-- Probes at most `n` slots, from slot `i` on, for a key that `p` accepts. -/
def locateFrom (t : Table K) (p : K → Bool) : Nat → Nat → Except Abort Spot
  | 0, _ => .error .endless
  | n + 1, i =>
    match t.key? i with
    | none => .ok (.free i)
    | some k => if p k then .ok (.held i) else t.locateFrom p n (t.next i)

/-- Where the probe for a hash and a key that `p` accepts stops. -/
def locate (t : Table K) (hash : UInt64) (p : K → Bool) : Except Abort Spot :=
  t.locateFrom p t.capacity (t.home hash)

/-! ## Look-ups by key -/

/-- The slot that holds the key. -/
def indexOf? (t : Table K) (hash : UInt64) (p : K → Bool) : Except Abort (Option Nat) :=
  (t.locate hash p).map Spot.held?

/-- The key that is held, with its value. -/
def find? (t : Table K) (hash : UInt64) (p : K → Bool) : Except Abort (Option (K × Int32)) :=
  (t.indexOf? hash p).map fun i? => i?.bind t.slot?

/-- The value of the key. -/
def get? (t : Table K) (hash : UInt64) (p : K → Bool) : Except Abort (Option Int32) :=
  (t.indexOf? hash p).map fun i? => i?.map t.value

/-- The value of the key, overwritten if the key is held; the answer is the value before. -/
def replace? (t : Table K) (hash : UInt64) (p : K → Bool) (v : Int32) :
    Outcome Abort (Table K) (Option Int32) :=
  match t.indexOf? hash p with
  | .error e => .error e t
  | .ok none => .ok none t
  | .ok (some i) => .ok (some (t.value i)) (t.writeValue i v)

/-! ## Access by index -/

/-- Aborts for an index outside the row. -/
def checkIndex (t : Table K) (i : Nat) : Except Abort Unit :=
  if i < t.capacity then .ok () else .error (.indexOutOfBounds t.capacity i)

/-- The key in a slot of the row. -/
def keyAt? (t : Table K) (i : Nat) : Except Abort (Option K) :=
  (t.checkIndex i).map fun _ => t.key? i

/-- The value in a slot of the row. -/
def valueAt? (t : Table K) (i : Nat) : Except Abort (Option Int32) :=
  (t.checkIndex i).map fun _ => (t.slot? i).map Prod.snd

/-- The value in a slot of the row, overwritten if the slot holds an entry; the answer is the
value before. -/
def replaceAt? (t : Table K) (i : Nat) (v : Int32) : Outcome Abort (Table K) (Option Int32) :=
  match t.valueAt? i with
  | .error e => .error e t
  | .ok none => .ok none t
  | .ok (some old) => .ok (some old) (t.writeValue i v)

end Table

end LinearProbe
