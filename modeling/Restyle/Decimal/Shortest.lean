/-!
# The shortest decimal text of a number

`Shortest.text` writes a binary64 number with the fewest digits that read back as that number, the
nearest such digits if there is a choice. The text is positional, never with an exponent, and has
no point when the number is whole.
-/

namespace Restyle.Shortest

/-- A positive binary64 number as `mantissa * 2 ^ exponent`, with the reals that round to it. -/
structure Binary where
  /-- The significand, at least one. -/
  mantissa : Nat
  /-- The power of two that the significand is multiplied by. -/
  exponent : Int
  /-- The neighbour below is only half a unit away: the number is a normal power of two. -/
  narrowBelow : Bool

/-- The number with these bits, sign left out; `none` for zero, infinities and NaN. -/
def Binary.ofBits? (bits : UInt64) : Option Binary :=
  let field : Nat := bits.toNat / Nat.pow 2 52 % Nat.pow 2 11
  let low : Nat := bits.toNat % Nat.pow 2 52
  if field = 2047 then none
  else if field = 0 then
    if low = 0 then none else some ⟨low, -1074, false⟩
  else some ⟨low + Nat.pow 2 52, (field : Int) - 1075, low = 0 && 1 < field⟩

/-- Digits with the power of ten of the last one: `digits * 10 ^ scale`. -/
structure Digits where
  /-- The digits, read as one natural number. -/
  digits : Nat
  /-- The power of ten of the last digit. -/
  scale : Int
deriving DecidableEq, Repr

/-- The value and the ends of its rounding interval as numerators over one denominator. -/
structure Interval where
  /-- The lower end. -/
  low : Nat
  /-- The number itself. -/
  value : Nat
  /-- The upper end. -/
  high : Nat
  /-- The common denominator. -/
  unit : Nat
  /-- Whether the ends round to the number as well. -/
  closed : Bool

/-- The reals that round to the number: half a unit up, and half or a quarter of one down. -/
def Binary.interval (b : Binary) : Interval :=
  let up := Nat.pow 2 b.exponent.toNat
  let value := 4 * b.mantissa * up
  { low := value - (if b.narrowBelow then 1 else 2) * up
    value
    high := value + 2 * up
    unit := 4 * Nat.pow 2 (-b.exponent).toNat
    closed := b.mantissa % 2 = 0 }

/-- Whether `digits * 10 ^ scale` lies in the interval. -/
def Interval.contains (i : Interval) (d : Digits) : Bool :=
  let point := d.digits * Nat.pow 10 d.scale.toNat * i.unit
  let grid := Nat.pow 10 (-d.scale).toNat
  if i.closed then i.low * grid ≤ point && point ≤ i.high * grid
  else i.low * grid < point && point < i.high * grid

/-- The grid points next to the value on the grid of this power of ten, those in the interval,
nearest first; of two at the same distance the upper one comes first. -/
def Interval.candidate? (i : Interval) (scale : Int) : Option Digits :=
  let grid := Nat.pow 10 scale.toNat * i.unit
  let value := i.value * Nat.pow 10 (-scale).toNat
  let below : Digits := ⟨value / grid, scale⟩
  let above : Digits := ⟨value / grid + 1, scale⟩
  let (first, second) := if 2 * (value % grid) < grid then (below, above) else (above, below)
  if i.contains first then some first
  else if i.contains second then some second
  else none

/-- The first power of ten, going down from `scale`, whose grid has a point in the interval. -/
def Interval.coarsest (i : Interval) (scale : Int) : Nat → Digits
  | 0 => ⟨i.value / i.unit, 0⟩
  | n + 1 => (i.candidate? scale).getD (i.coarsest (scale - 1) n)

/-- The fewest digits that lie in the rounding interval of the number. -/
def Binary.digits (b : Binary) : Digits :=
  let i := b.interval
  -- A coarser grid has nothing in the interval, and the grid of the exponent has the number itself.
  let start := (Nat.toDigits 10 (i.value / i.unit)).length
  i.coarsest start (start + b.exponent.natAbs + 1)

/-- Positional notation for `digits * 10 ^ scale`. -/
def Digits.text (d : Digits) : String :=
  let ds := Nat.toDigits 10 d.digits
  if 0 ≤ d.scale then String.ofList (ds ++ List.replicate d.scale.toNat '0')
  else
    let places := (-d.scale).toNat
    let padded := List.replicate (places + 1 - ds.length) '0' ++ ds
    let whole := padded.take (padded.length - places)
    String.ofList (whole ++ '.' :: padded.drop (padded.length - places))

/-- The shortest text that reads back as the number; `inf` and `NaN` for what is not finite. -/
def text (x : Float) : String :=
  let bits := x.toBits
  let sign := if Nat.pow 2 63 ≤ bits.toNat then "-" else ""
  if x.isNaN then "NaN"
  else if x.isInf then sign ++ "inf"
  else
    match Binary.ofBits? bits with
    | none => sign ++ "0"
    | some b => sign ++ b.digits.text

end Restyle.Shortest
