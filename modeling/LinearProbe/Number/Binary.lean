/-!
# Binary floating-point numbers

`roundRatio num den` is the natural nearest to `num / den`, of two equally near ones the even one.
Every rounding of the library, to the bits of a binary number or to the places of a decimal one,
goes through it.

A `Binary` is a double-precision number `mantissa * 2 ^ exponent` that is not negative, read as a
fraction by `Binary.num` and `Binary.den`. `Binary.ofRatio` is the nearest one to a quotient whose
mantissa has 53 bits; the operations `Binary.ofNat`, `Binary.mul` and `Binary.div` compute exactly
and then round with it, as double-precision arithmetic does. The numbers that occur, slot counts,
load factors and averages over slots, lie far inside the range of doubles, so exponents are not
bounded here. `Binary.bits` is the IEEE 754 pattern.

A `Single` is the 32-bit pattern of an IEEE 754 single: a sign, eight bits of exponent and
twenty-three of fraction. `Single.magnitude` decodes it exactly. Every finite single is a whole
number of units of `2 ^ -149`, so its magnitude is a natural number (`Single.Magnitude.finite`),
and `1` is `unitsPerOne` of them. Patterns are equal when their bits are; `Single.numEq` is the
comparison of numbers, under which the two zeros agree and a NaN differs from itself.
`Single.isFraction` asks for a number strictly between 0 and 1.
-/

namespace LinearProbe

/-! ## Rounding a quotient -/

/-- The natural nearest to `num / den`; of two equally near ones the even one. -/
def roundRatio (num den : Nat) : Nat :=
  if 2 * (num % den) < den then num / den
  else if den < 2 * (num % den) then num / den + 1
  else num / den + num / den % 2

/-- A multiple of the divisor is its quotient. -/
theorem roundRatio_mul_left (n : Nat) {den : Nat} (h : 0 < den) : roundRatio (den * n) den = n := by
  simp [roundRatio, h]

/-! ## Doubles -/

/-- The number `mantissa * 2 ^ exponent`. -/
structure Binary where
  mantissa : Nat
  exponent : Int
deriving DecidableEq, Repr

namespace Binary

/-- The numerator of the number as a fraction over `den`. -/
def num (x : Binary) : Nat :=
  x.mantissa <<< x.exponent.toNat

/-- The power of two that divides `num`. -/
def den (x : Binary) : Nat :=
  1 <<< (-x.exponent).toNat

/-- The whole part of the number. -/
def floor (x : Binary) : Nat :=
  x.num / x.den

/-- The number with 53 significant bits nearest to `n / d`, ties to the even mantissa. With
`e = log2 n - log2 d - 53` the quotient is between `2 ^ 52` and `2 ^ 54` times `2 ^ e`, so one of
the exponents `e` and `e + 1` leaves a mantissa of 53 bits. -/
def ofRatio (n d : Nat) : Binary :=
  if n = 0 then ⟨0, 0⟩ else
    let e : Int := n.log2 - d.log2 - 53
    let n' := n <<< (-e).toNat
    let d' := d <<< e.toNat
    if n' < d' <<< 53 then ⟨roundRatio n' d', e⟩ else ⟨roundRatio n' (2 * d'), e + 1⟩

/-- A natural number, rounded. -/
def ofNat (n : Nat) : Binary :=
  ofRatio n 1

/-- The product, rounded. -/
def mul (x y : Binary) : Binary :=
  ofRatio (x.num * y.num) (x.den * y.den)

/-- The quotient, rounded. -/
def div (x y : Binary) : Binary :=
  ofRatio (x.num * y.den) (x.den * y.num)

/-- The IEEE 754 pattern of the number. The leading bit of the mantissa is moved to place 52,
where it adds one to the exponent field. -/
def bits (x : Binary) : UInt64 :=
  if x.mantissa = 0 then 0 else
    let top : Int := x.mantissa.log2
    let field := (top + x.exponent + 1022).toNat
    UInt64.ofNat (field <<< 52 + x.mantissa <<< (52 - top).toNat >>> (top - 52).toNat)

end Binary

/-! ## Singles -/

/-- A single-precision number, as its IEEE 754 pattern. -/
structure Single where
  bits : UInt32
deriving DecidableEq, Repr

namespace Single

/-- The sign bit. -/
def isNegative (x : Single) : Bool :=
  0x80000000 ≤ x.bits.toNat

/-- The eight bits of the exponent. -/
def exponentField (x : Single) : Nat :=
  x.bits.toNat / 0x800000 % 0x100

/-- The twenty-three bits of the fraction. -/
def fractionField (x : Single) : Nat :=
  x.bits.toNat % 0x800000

/-- The unit in which finite magnitudes are counted is one part in `unitsPerOne`. -/
def unitsPerOne : Nat :=
  1 <<< 149

/-- What a pattern stands for, its sign apart. -/
inductive Magnitude where
  | nan
  | infinite
  | finite (units : Nat)
deriving DecidableEq, Repr

/-- The significand of a finite pattern: the fraction, with a leading one unless the exponent
field is zero. -/
def significand (x : Single) : Nat :=
  if x.exponentField = 0 then x.fractionField else 0x800000 + x.fractionField

/-- The units in the last place of the significand, as a power of two. -/
def scale (x : Single) : Nat :=
  x.exponentField - 1

/-- The magnitude of a finite pattern in units of `2 ^ -149`. -/
def units (x : Single) : Nat :=
  x.significand <<< x.scale

/-- The magnitude of a pattern. -/
def magnitude (x : Single) : Magnitude :=
  if x.exponentField < 255 then .finite x.units
  else if x.fractionField = 0 then .infinite
  else .nan

/-- The numbers are equal: the same number in either pattern, with one zero and no NaN. -/
def numEq (x y : Single) : Bool :=
  match x.magnitude, y.magnitude with
  | .nan, _ | _, .nan => false
  | .finite 0, .finite 0 => true
  | a, b => a = b && x.isNegative = y.isNegative

/-- The number lies strictly between 0 and 1. -/
def isFraction (x : Single) : Bool :=
  match x.magnitude with
  | .finite u => !x.isNegative && 0 < u && u < unitsPerOne
  | _ => false

/-- A finite magnitude as a double; a single has fewer bits, so nothing is rounded. -/
def toBinary (x : Single) : Binary :=
  ⟨x.significand, x.scale - 149⟩

end Single

end LinearProbe
