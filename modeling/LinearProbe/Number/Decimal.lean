import LinearProbe.Number.Binary

/-!
# Decimal text of binary numbers

Two ways of writing a number in decimal.

*Shortest*: the fewest digits that read back as the same number, and of those the nearest.
`Interval` is the set of reals that round to a number, `Interval.pick?` tries the two neighbours
of the number on one decimal grid, and `Interval.coarsest` goes from wide grids to narrow ones
until one has a neighbour in the interval. `Single.shortest` applies this to singles, and
`Decimal.text` writes the result as a `DecimalStyle` lays down.

*Fixed places*: `fixed` rounds a quotient to a number of places, ties to even.
-/

namespace LinearProbe

/-- The number `digits * 10 ^ exponent`. -/
structure Decimal where
  digits : Nat
  exponent : Int
deriving DecidableEq, Repr

/-- The number `10 ^ n`. -/
def powerOfTen : Nat → Nat
  | 0 => 1
  | n + 1 => 10 * powerOfTen n

/-! ## Shortest digits -/

/-- The numbers from `low` to `high` around `value`, with both ends or neither. -/
structure Interval where
  low : Nat
  value : Nat
  high : Nat
  closed : Bool

namespace Interval

/-- Membership in the interval. -/
def contains (i : Interval) (x : Nat) : Bool :=
  if i.closed then i.low ≤ x && x ≤ i.high else i.low < x && x < i.high

/-- The multiple of `step` next to the value that lies in the interval, as a factor of `step`. Of
two such multiples the nearer one; of two equally near ones the upper. -/
def pick? (i : Interval) (step : Nat) : Option Nat :=
  let below := i.value / step
  match i.contains (below * step), i.contains ((below + 1) * step) with
  | true, true => some (if 2 * (i.value % step) < step then below else below + 1)
  | true, false => some below
  | false, true => some (below + 1)
  | false, false => none

/-- The widest of the grids `unit * 10 ^ n, …, unit * 10, unit` with a multiple next to the value
in the interval: that multiple, and the power of ten. -/
def coarsest (i : Interval) (unit : Nat) : Nat → Nat × Nat
  | 0 => ((i.pick? unit).getD (i.value / unit), 0)
  | n + 1 =>
    match i.pick? (unit * powerOfTen (n + 1)) with
    | some d => (d, n + 1)
    | none => i.coarsest unit n

end Interval

namespace Single

/-- The exponent of the narrowest decimal grid tried, negated: singles are more than `10 ^ -46`
apart. -/
def finestPlaces : Nat :=
  50

/-- The reals that round to a finite single, in units of `2 ^ -151 * 10 ^ -finestPlaces`. The gap
to the neighbour below is halved at a power of two that has a smaller exponent below it. The ends
round to the single when its significand is even. -/
def interval (x : Single) : Interval :=
  let ulp := powerOfTen finestPlaces <<< x.scale
  let value := 4 * x.significand * ulp
  let below := if x.fractionField = 0 && 1 < x.exponentField then ulp else 2 * ulp
  ⟨value - below, value, value + 2 * ulp, x.significand % 2 = 0⟩

/-- The shortest decimal that rounds to the magnitude of a finite single. No single reaches
`10 ^ 39`. -/
def shortest (x : Single) : Decimal :=
  if x.significand = 0 then ⟨0, 0⟩ else
    let (digits, power) := x.interval.coarsest (1 <<< 151) (finestPlaces + 39)
    ⟨digits, power - finestPlaces⟩

end Single

/-! ## Writing a decimal -/

/-- How a decimal is written. -/
structure DecimalStyle where
  /-- The exponents of the leading digit for which the number is written without an exponent. -/
  isPositional : Int → Bool
  /-- Whether a whole number written without an exponent ends in `.0`. -/
  pointZero : Bool

namespace Decimal

/-- `n` zeros. -/
def zeros (n : Nat) : String :=
  String.ofList (List.replicate n '0')

/-- The exponent of the leading digit. -/
def leadingExponent (d : Decimal) : Int :=
  (toString d.digits).length - 1 + d.exponent

/-- The number without an exponent. -/
def positional (d : Decimal) (pointZero : Bool) : String :=
  let text := toString d.digits
  if 0 ≤ d.exponent then
    text ++ zeros d.exponent.toNat ++ if pointZero then ".0" else ""
  else
    let places := (-d.exponent).toNat
    let padded := zeros (places + 1 - text.length) ++ text
    let whole := padded.length - places
    String.ofList (padded.toList.take whole) ++ "." ++ String.ofList (padded.toList.drop whole)

/-- The number with one digit before the point and an exponent. -/
def scientific (d : Decimal) : String :=
  let rest := (toString d.digits).toList
  String.ofList (rest.take 1) ++ (if rest.length ≤ 1 then "" else "." ++ String.ofList (rest.drop 1))
    ++ "e" ++ toString d.leadingExponent

/-- The number in the given style. -/
def text (style : DecimalStyle) (d : Decimal) : String :=
  if d.digits = 0 || style.isPositional d.leadingExponent then d.positional style.pointZero
  else d.scientific

end Decimal

/-! ## Fixed places -/

/-- The quotient `num / den` to `places` decimal places, ties to even. -/
def fixed (places num den : Nat) : String :=
  let unit := powerOfTen places
  let scaled := roundRatio (num * unit) den
  let rest := toString (scaled % unit)
  toString (scaled / unit) ++
    if places = 0 then "" else "." ++ Decimal.zeros (places - rest.length) ++ rest

/-- A double to `places` decimal places. -/
def Binary.fixed (places : Nat) (x : Binary) : String :=
  LinearProbe.fixed places x.num x.den

/-! ## Text of singles -/

namespace Single

/-- The text of a single, given the text of a finite magnitude. -/
def textWith (finite : String) (x : Single) : String :=
  match x.magnitude with
  | .nan => "NaN"
  | .infinite => (if x.isNegative then "-" else "") ++ "inf"
  | .finite _ => (if x.isNegative then "-" else "") ++ finite

/-- The text for messages: the shortest digits, never with an exponent. -/
def display (x : Single) : String :=
  x.textWith (x.shortest.text ⟨fun _ => true, false⟩)

/-- The text for inspection: the shortest digits, with at least one decimal place, and with an
exponent below `10 ^ -4` and from `10 ^ 16` on. -/
def inspect (x : Single) : String :=
  x.textWith (x.shortest.text ⟨fun e => -4 ≤ e && e < 16, true⟩)

/-- The number to `places` decimal places. -/
def fixed (places : Nat) (x : Single) : String :=
  x.textWith (LinearProbe.fixed places x.units unitsPerOne)

end Single

end LinearProbe
