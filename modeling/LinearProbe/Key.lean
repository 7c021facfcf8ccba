import LinearProbe.Text

/-!
# Kinds of keys

A table can hold keys of any type. What it needs to know of the type is in two classes: the size of
a slot's key cell, which bounds how many slots can be allocated (`Stored`), and the text of a key
(`Shown`).

Three key types have both: 64-bit numbers, texts, and `Tagged` keys, which are equal by
their `id` alone, so that two equal keys can differ in their tag and can even carry different
hashes.
-/

namespace LinearProbe

/-- Key types that can be stored in slots. -/
class Stored (K : Type) where
  /-- The bytes of a slot's key cell, with the mark of an empty slot. -/
  cellBytes : Nat

/-- Key types with a text. -/
class Shown (K : Type) where
  /-- The text of a key. -/
  display : K → String
  /-- The text of a key for inspection. -/
  inspect : K → String

instance : Stored UInt64 := ⟨16⟩

instance : Shown UInt64 := ⟨toString, toString⟩

instance : Stored String := ⟨24⟩

instance : Shown String := ⟨id, quote⟩

/-- A key that carries the hash it gives, the identity by which it is compared, and a tag. -/
structure Tagged where
  hash : UInt64
  id : UInt64
  tag : UInt64
deriving DecidableEq, Repr

namespace Tagged

/-- Tagged keys are equal when their identities are. -/
instance : BEq Tagged := ⟨fun a b => a.id == b.id⟩

theorem beq_iff {a b : Tagged} : (a == b) = true ↔ a.id = b.id :=
  beq_iff_eq (α := UInt64)

instance : EquivBEq Tagged where
  rfl := beq_iff.2 rfl
  symm h := beq_iff.2 (beq_iff.1 h).symm
  trans h h' := beq_iff.2 ((beq_iff.1 h).trans (beq_iff.1 h'))

/-- The three numbers, separated by colons. -/
def text (key : Tagged) : String :=
  toString key.hash ++ ":" ++ toString key.id ++ ":" ++ toString key.tag

instance : Stored Tagged := ⟨32⟩

instance : Shown Tagged := ⟨text, text⟩

end Tagged

end LinearProbe
