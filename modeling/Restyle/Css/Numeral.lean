import Restyle.Decimal.Basic
import Restyle.Text.Ascii

/-!
# Numerals

The written form of a number in a style sheet: an optional sign, digits, an optional fraction and
an optional exponent. `Numeral.read` takes the longest numeral at the start of a text.
-/

namespace Restyle.Css

/-- The exponent of a numeral. -/
structure Exponent where
  /-- The letter that introduces it, of either case. -/
  letter : Char
  /-- The sign, if one is written. -/
  sign : Option Char
  /-- The digits. -/
  digits : List Char
deriving DecidableEq, Repr

/-- The parts of a numeral as written. -/
structure Numeral where
  /-- The sign, if one is written. -/
  sign : Option Char
  /-- The digits before the point. -/
  whole : List Char
  /-- The digits after the point, if there is one. -/
  fraction : Option (List Char)
  /-- The exponent, if there is one. -/
  exponent : Option Exponent
deriving DecidableEq, Repr

/-- The text of an exponent. -/
def Exponent.text (e : Exponent) : List Char :=
  e.letter :: e.sign.toList ++ e.digits

/-- The power of ten that an exponent writes. -/
def Exponent.value (e : Exponent) : Int :=
  if e.sign = some '-' then -(Text.numberOf 10 e.digits : Int) else Text.numberOf 10 e.digits

namespace Numeral

/-- The text of a numeral. -/
def text (n : Numeral) : List Char :=
  n.sign.toList ++ n.whole ++ (n.fraction.map ('.' :: ·)).getD [] ++
    (n.exponent.map Exponent.text).getD []

/-- The number that a numeral writes. -/
def value (n : Numeral) : Decimal where
  negative := n.sign = some '-'
  coefficient := Text.numberOf 10 (n.whole ++ n.fraction.getD [])
  exponent := (n.exponent.map Exponent.value).getD 0 - (n.fraction.getD []).length

/-- A numeral is whole when it has neither a point nor an exponent. -/
def isWhole (n : Numeral) : Bool :=
  n.fraction.isNone && n.exponent.isNone

/-- Whether a text starts with a digit. -/
def startsDigit : List Char → Bool
  | c :: _ => c.isDigit
  | [] => false

/-- Takes a sign off the front. -/
def readSign : List Char → Option Char × List Char
  | '+' :: r => (some '+', r)
  | '-' :: r => (some '-', r)
  | s => (none, s)

/-- Takes a point with digits after it off the front. -/
def readFraction : List Char → Option (List Char) × List Char
  | '.' :: r =>
    if startsDigit r then (some (r.takeWhile Char.isDigit), r.dropWhile Char.isDigit)
    else (none, '.' :: r)
  | s => (none, s)

/-- Takes an exponent off the front. The letter counts only with digits after it. -/
def readExponent : List Char → Option Exponent × List Char
  | c :: r =>
    if c = 'e' ∨ c = 'E' then
      let (sign, digits) := readSign r
      if startsDigit digits then
        (some ⟨c, sign, digits.takeWhile Char.isDigit⟩, digits.dropWhile Char.isDigit)
      else (none, c :: r)
    else (none, c :: r)
  | [] => (none, [])

/-- Takes the longest numeral off the front of a text that starts with one. -/
def read (s : List Char) : Numeral × List Char :=
  let (sign, s) := readSign s
  let whole := s.takeWhile Char.isDigit
  let (fraction, s) := readFraction (s.dropWhile Char.isDigit)
  let (exponent, s) := readExponent s
  (⟨sign, whole, fraction, exponent⟩, s)

/-- Whether a text starts with a numeral that has no sign. -/
def startsUnsigned : List Char → Bool
  | '.' :: r => startsDigit r
  | s => startsDigit s

/-- Whether a text starts with a numeral. -/
def starts (s : List Char) : Bool :=
  startsUnsigned (readSign s).2

theorem text_readSign (s : List Char) : (readSign s).1.toList ++ (readSign s).2 = s := by
  unfold readSign
  split <;> rfl

theorem text_readFraction (s : List Char) :
    ((readFraction s).1.map ('.' :: ·)).getD [] ++ (readFraction s).2 = s := by
  unfold readFraction
  split
  · split <;> simp
  · rfl

theorem text_readExponent (s : List Char) :
    ((readExponent s).1.map Exponent.text).getD [] ++ (readExponent s).2 = s := by
  unfold readExponent
  split
  · rename_i c r
    split
    · have h := text_readSign r
      dsimp only
      split
      · simp only [Option.map_some, Option.getD_some, Exponent.text, List.cons_append,
          List.append_assoc, List.takeWhile_append_dropWhile, h]
      · rfl
    · rfl
  · rfl

/-- Reading splits the text into the numeral and the rest. -/
theorem text_read (s : List Char) : (read s).1.text ++ (read s).2 = s := by
  have h₁ := text_readSign s
  have h₂ := text_readFraction ((readSign s).2.dropWhile Char.isDigit)
  have h₃ := text_readExponent (readFraction ((readSign s).2.dropWhile Char.isDigit)).2
  simp only [read, text, List.append_assoc, h₃, h₂, List.takeWhile_append_dropWhile, h₁]

theorem starts_of_isDigit {c : Char} {r : List Char} (h : c.isDigit) : starts (c :: r) := by
  have h₁ : c ≠ '+' := by rintro rfl; exact absurd h (by decide)
  have h₂ : c ≠ '-' := by rintro rfl; exact absurd h (by decide)
  have h₃ : c ≠ '.' := by rintro rfl; exact absurd h (by decide)
  simp [starts, readSign, startsUnsigned, startsDigit, h₁, h₂, h₃, h]

/-- A numeral has at least one character. -/
theorem text_ne_nil {s : List Char} (h : starts s) : (read s).1.text ≠ [] := by
  intro hnil
  simp only [text, List.append_eq_nil_iff, Option.toList_eq_nil_iff] at hnil
  obtain ⟨⟨⟨hsign, hwhole⟩, hfraction⟩, -⟩ := hnil
  simp only [read] at hsign hwhole hfraction
  -- Without a sign the text itself starts with a digit or a point.
  unfold starts at h
  generalize (readSign s).2 = u at *
  unfold startsUnsigned at h
  split at h
  · rename_i r
    simp [readFraction, h] at hfraction
  · cases u with
    | nil => simp [startsDigit] at h
    | cons c r => simp [startsDigit] at h; simp [h] at hwhole

/-- What is left after a numeral is an end piece of the tail of the text. -/
theorem read_suffix {c : Char} {r : List Char} (h : starts (c :: r)) : (read (c :: r)).2 <:+ r := by
  have happend := text_read (c :: r)
  cases htext : (read (c :: r)).1.text with
  | nil => exact absurd htext (text_ne_nil h)
  | cons d ds =>
    rw [htext, List.cons_append, List.cons.injEq] at happend
    exact ⟨ds, happend.2⟩

end Numeral

end Restyle.Css
