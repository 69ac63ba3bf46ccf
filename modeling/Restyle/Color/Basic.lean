import Restyle.Css.Sheet

/-!
# Colors

`Rgb` is a color with three channels of eight bits. It is read from and written as hexadecimal
digits, and `Rgb.gray` projects it onto the gray axis.
-/

namespace Restyle

/-- A color without transparency. -/
structure Rgb where
  /-- The red channel. -/
  red : UInt8
  /-- The green channel. -/
  green : UInt8
  /-- The blue channel. -/
  blue : UInt8
deriving DecidableEq, Repr

namespace Rgb

/-- The channel that two hexadecimal digits write. -/
def channel (high low : Char) : UInt8 :=
  UInt8.ofNat (16 * Text.hexValue high + Text.hexValue low)

/-- The color of 3, 4, 6 or 8 hexadecimal digits. In the short forms each digit counts twice, and
the digits for transparency are left out. -/
def ofDigits? (digits : String) : Option Rgb :=
  if Css.Value.isHexColor digits then
    match digits.toList with
    | [r, g, b] | [r, g, b, _] => some ⟨channel r r, channel g g, channel b b⟩
    | r :: r' :: g :: g' :: b :: b' :: _ => some ⟨channel r r', channel g g', channel b b'⟩
    | _ => none
  else none

/-- The color of hexadecimal digits with or without a `#` before them. -/
def ofHex? (text : String) : Option Rgb :=
  match text.toList with
  | '#' :: digits => ofDigits? (String.ofList digits)
  | _ => ofDigits? text

/-- The color as six lower-case hexadecimal digits. -/
def hex (c : Rgb) : String :=
  Text.hexDigits 2 c.red.toNat ++ Text.hexDigits 2 c.green.toNat ++ Text.hexDigits 2 c.blue.toNat

/-- The brightness of a color, rounded. The weights sum to 1000, so a gray is as bright as each of
its channels. -/
def luma (c : Rgb) : Nat :=
  (299 * c.red.toNat + 587 * c.green.toNat + 114 * c.blue.toNat + 500) / 1000

/-- The gray of the same brightness. -/
def gray (c : Rgb) : Rgb :=
  let level := UInt8.ofNat c.luma
  ⟨level, level, level⟩

theorem luma_of_gray (v : UInt8) : luma ⟨v, v, v⟩ = v.toNat := by
  simp only [luma]
  omega

/-- A gray is its own gray. -/
theorem gray_gray (c : Rgb) : c.gray.gray = c.gray := by
  simp only [gray, luma_of_gray, UInt8.ofNat_toNat]

end Rgb

end Restyle
