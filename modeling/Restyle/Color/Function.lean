import Restyle.Color.Named
import Restyle.Css.Lexer
import Restyle.Css.Printer

/-!
# Color functions

The colors that `rgb()`, `rgba()`, `hsl()` and `hsla()` write with plain numbers, percentages and
angles. A call with anything else among its arguments stands for no color.
-/

namespace Restyle

/-- An argument of a color function. -/
inductive ColorArg where
  /-- A plain number. -/
  | number (x : Float)
  /-- A percentage. -/
  | percentage (x : Float)
  /-- An angle in degrees. -/
  | degrees (x : Float)

namespace ColorArg

/-- An angle in degrees, from its number and its unit. -/
def ofAngle? (x : Float) (unit : String) : Option ColorArg :=
  match Text.lower unit with
  | "deg" => some (.degrees x)
  | "grad" => some (.degrees (x * 360.0 / 400.0))
  | "rad" => some (.degrees (x * 57.29577951308232))
  | "turn" => some (.degrees (x * 360.0))
  | _ => none

/-- The arguments that lexemes write; white space, commas and slashes stand between them. -/
def ofLexemes? : List Css.Lexeme → Option (List ColorArg)
  | [] => some []
  | l :: ls =>
    match l.token with
    | .number v _ => (ofLexemes? ls).map (.number v.toFloat :: ·)
    | .percentage v => (ofLexemes? ls).map (.percentage v.toFloat :: ·)
    | .dimension v unit => do return (← ofAngle? v.toFloat unit) :: (← ofLexemes? ls)
    | .whitespace | .comma | .delim '/' => ofLexemes? ls
    | _ => none

end ColorArg

namespace Rgb

/-- The nearest channel: halves go away from zero, what is out of range goes to its ends, and what
is not a number goes to zero. -/
def channelOf (x : Float) : UInt8 :=
  if x ≥ 255.0 then 255
  else if x > 0.0 then
    let floor := x.toUInt8
    if x - floor.toFloat ≥ 0.5 then floor + 1 else floor
  else 0

/-- A number between zero and one, or the nearer of these. -/
def unitOf (x : Float) : Float :=
  if x < 0.0 then 0.0 else if x > 1.0 then 1.0 else x

/-- The remainder of the division of a nonnegative finite number by 360, without rounding. -/
def fullTurns (x : Float) : Float :=
  let bits := x.toBits.toNat
  let field : Nat := bits / Nat.pow 2 52 % Nat.pow 2 11
  let mantissa : Nat := bits % Nat.pow 2 52 + Nat.pow 2 52
  if x < 360.0 then x
  else if 1075 ≤ field then
    (UInt64.ofNat (mantissa * Nat.pow 2 (field - 1075) % 360)).toFloat
  else
    -- The number is at least 360, so fewer than 45 of its bits stand after the point.
    let scale := Nat.pow 2 (1075 - field)
    (UInt64.ofNat (mantissa % (360 * scale))).toFloat / (UInt64.ofNat scale).toFloat

/-- An angle in degrees, brought between 0 and 360. A tiny negative angle rounds up to 360. -/
def hueOf (x : Float) : Float :=
  if x.isNaN || x.isInf then 0.0 / 0.0
  else if x < 0.0 then
    let r := -(fullTurns (-x))
    if r < 0.0 then r + 360.0 else r
  else fullTurns x

/-- The color of a hue in degrees, with saturation and lightness between zero and one. -/
def ofHsl (hue saturation lightness : Float) : Rgb :=
  let s := unitOf saturation
  let l := unitOf lightness
  let chroma := (1.0 - (2.0 * l - 1.0).abs) * s
  let sector := hueOf hue / 60.0
  let pair := (UInt8.ofNat (sector.toUInt8.toNat / 2 * 2)).toFloat
  let second := chroma * (1.0 - ((sector - pair) - 1.0).abs)
  let (r, g, b) :=
    match sector.toUInt8 with
    | 0 => (chroma, second, 0.0)
    | 1 => (second, chroma, 0.0)
    | 2 => (0.0, chroma, second)
    | 3 => (0.0, second, chroma)
    | 4 => (second, 0.0, chroma)
    | 5 => (chroma, 0.0, second)
    | _ => (0.0, 0.0, 0.0)
  let base := l - chroma / 2.0
  let channel (x : Float) := channelOf ((x + base) * 255.0)
  ⟨channel r, channel g, channel b⟩

/-- A channel of `rgb()`: a number up to 255 or a percentage. -/
def channelOfArg? : ColorArg → Option UInt8
  | .number x => some (channelOf x)
  | .percentage x => some (channelOf (x * 255.0 / 100.0))
  | .degrees _ => none

/-- The hue of `hsl()`: a number of degrees or an angle. -/
def hueOfArg? : ColorArg → Option Float
  | .number x | .degrees x => some x
  | .percentage _ => none

/-- The saturation or lightness of `hsl()`: a percentage or a number out of 100. -/
def fractionOfArg? : ColorArg → Option Float
  | .percentage x | .number x => some (x / 100.0)
  | .degrees _ => none

/-- The functions that write a color. -/
def functionNames : List String :=
  ["hsl", "hsla", "rgb", "rgba"]

/-- Whether a function writes a color, up to the case of letters. -/
def isFunction (name : String) : Bool :=
  functionNames.contains (Text.lower name)

/-- The color of a function with three arguments; an argument for transparency does not count. -/
def ofArgs? (name : String) : List ColorArg → Option Rgb
  | [a, b, c] | [a, b, c, _] =>
    if ["rgb", "rgba"].contains (Text.lower name) then do
      return ⟨← channelOfArg? a, ← channelOfArg? b, ← channelOfArg? c⟩
    else do
      return ofHsl (← hueOfArg? a) (← fractionOfArg? b) (← fractionOfArg? c)
  | _ => none

/-- The color that a function call writes. -/
def ofCall? (name : String) (args : List Css.Value) : Option Rgb :=
  if !isFunction name || args.any (fun v => v.isCall) then none
  else ColorArg.ofLexemes? (Css.Lexeme.scan (Css.Value.cssAll args)) >>= ofArgs? name

/-- The color that a value writes. -/
def ofValue? : Css.Value → Option Rgb
  | .identifier name => ofName? name
  | .hexColor digits => ofHex? digits
  | .call name args => ofCall? name args
  | .other _ => none

end Rgb

/-- The gray hex color to put in place of a value, if the value is a color and not that gray. -/
def Css.Value.grayed? (v : Css.Value) : Option Css.Value := do
  let c ← Rgb.ofValue? v
  let gray := Css.Value.hexColor c.gray.hex
  if gray = v then none else some gray

end Restyle
