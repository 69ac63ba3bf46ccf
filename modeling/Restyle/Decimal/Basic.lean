/-!
# Decimal numbers

A `Decimal` is a numeral as written: a sign, a coefficient and a power of ten. `Decimal.toFloat` is
the nearest binary64 number.
-/

namespace Restyle

/-- The number `± coefficient * 10 ^ exponent`. The sign is kept for zero too. -/
structure Decimal where
  /-- Whether the number was written with a minus sign. -/
  negative : Bool
  /-- The digits, read as one natural number. -/
  coefficient : Nat
  /-- The power of ten that the coefficient is multiplied by. -/
  exponent : Int
deriving DecidableEq, Repr

namespace Decimal

/-- The power of ten just above the coefficient: `coefficient < 10 ^ width`. -/
def width (d : Decimal) : Nat :=
  (Nat.toDigits 10 d.coefficient).length

/-- The nearest binary64 number without regard to the sign, ties to even. -/
def magnitude (d : Decimal) : Float :=
  -- Beyond these powers the answer is known, and the powers of ten are not worth computing.
  let top := d.exponent + d.width
  if d.coefficient = 0 ∨ top < -400 then 0.0
  else if 400 < top then 1.0 / 0.0
  else if d.exponent < 0 then Float.ofScientific d.coefficient true d.exponent.natAbs
  else Float.ofScientific d.coefficient false d.exponent.natAbs

/-- The nearest binary64 number; too large a number becomes an infinity. -/
def toFloat (d : Decimal) : Float :=
  if d.negative then -d.magnitude else d.magnitude

end Decimal

end Restyle
