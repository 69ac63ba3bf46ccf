import Restyle.Text.Ascii

/-!
# Character references

What `&amp;`, `&#38;` and their like stand for. A reference that is not recognised is the ampersand
itself, and the text after it is read as usual.
-/

namespace Restyle.Html.Reference

open Text

/-- The names of references, without the ampersand and the semicolon, and their characters. -/
def named : List (String × Char) :=
  [("amp", '&'), ("lt", '<'), ("gt", '>'), ("quot", '"'), ("apos", '\''), ("nbsp", '\u00A0'),
    ("copy", '\u00A9'), ("reg", '\u00AE'), ("trade", '\u2122'), ("mdash", '\u2014'),
    ("ndash", '\u2013'), ("hellip", '\u2026'), ("bull", '\u2022'), ("middot", '\u00B7'),
    ("lsquo", '\u2018'), ("rsquo", '\u2019'), ("ldquo", '\u201C'), ("rdquo", '\u201D'),
    ("laquo", '\u00AB'), ("raquo", '\u00BB'), ("times", '\u00D7'), ("divide", '\u00F7'),
    ("deg", '\u00B0'), ("euro", '\u20AC'), ("pound", '\u00A3'), ("yen", '\u00A5'),
    ("sect", '\u00A7'), ("para", '\u00B6'), ("shy", '\u00AD')]

/-- The names that text may write without the semicolon. -/
def unterminated : List String :=
  ["amp", "lt", "gt", "quot", "nbsp", "copy", "reg"]

/-- The character with this name. -/
def ofName? (name : String) : Option Char :=
  named.lookup name

/-- Drops a semicolon off the front. -/
def dropSemicolon : List Char → List Char
  | ';' :: r => r
  | s => s

/-- The character that digits of the given base stand for, if there are digits. -/
def ofDigits? (base : Nat) (isDigit : Char → Bool) (s : List Char) : Option (Char × List Char) :=
  let digits := s.takeWhile isDigit
  if digits.isEmpty then none
  else some (scalar (numberOf base digits), dropSemicolon (s.dropWhile isDigit))

/-- The character of a reference by number, read after its `#`. -/
def ofNumber? : List Char → Option (Char × List Char)
  | 'x' :: r | 'X' :: r => ofDigits? 16 isHexDigit r
  | r => ofDigits? 10 Char.isDigit r

/-- The character of a reference by name. In an attribute the semicolon is always needed. -/
def ofNamed? (inAttribute : Bool) (s : List Char) : Option (Char × List Char) := do
  let name := (s.take 32).takeWhile Char.isAlphanum
  let rest := s.drop name.length
  let c ← ofName? (String.ofList name)
  match rest with
  | ';' :: r => return (c, r)
  | r =>
    if inAttribute || !unterminated.contains (String.ofList name) then none
    else return (c, r)

/-- Reads a reference after its ampersand: the character it stands for, with the text after it. -/
def read (inAttribute : Bool) (s : List Char) : Char × List Char :=
  let found :=
    match s with
    | '#' :: r => ofNumber? r
    | s => ofNamed? inAttribute s
  found.getD ('&', s)

theorem dropSemicolon_suffix (s : List Char) : dropSemicolon s <:+ s := by
  unfold dropSemicolon
  split
  · exact List.suffix_cons _ _
  · exact List.suffix_refl _

theorem ofDigits?_suffix {base : Nat} {isDigit : Char → Bool} {s rest : List Char} {c : Char}
    (h : ofDigits? base isDigit s = some (c, rest)) : rest <:+ s := by
  unfold ofDigits? at h
  dsimp only at h
  split at h
  · simp at h
  · simp only [Option.some.injEq, Prod.mk.injEq] at h
    rw [← h.2]
    exact (dropSemicolon_suffix _).trans (List.dropWhile_suffix _)

theorem ofNumber?_suffix {s rest : List Char} {c : Char} (h : ofNumber? s = some (c, rest)) :
    rest <:+ s := by
  unfold ofNumber? at h
  split at h
  · exact (ofDigits?_suffix h).trans (List.suffix_cons _ _)
  · exact (ofDigits?_suffix h).trans (List.suffix_cons _ _)
  · exact ofDigits?_suffix h

theorem ofNamed?_suffix {inAttribute : Bool} {s rest : List Char} {c : Char}
    (h : ofNamed? inAttribute s = some (c, rest)) : rest <:+ s := by
  have hdrop := List.drop_suffix ((s.take 32).takeWhile Char.isAlphanum).length s
  unfold ofNamed? at h
  cases hname : ofName? (String.ofList ((s.take 32).takeWhile Char.isAlphanum)) with
  | none => simp [hname] at h
  | some d =>
    simp only [hname, Option.bind_eq_bind, Option.bind_some] at h
    split at h
    · rename_i r hr
      simp only [Option.pure_def, Option.some.injEq, Prod.mk.injEq] at h
      rw [hr] at hdrop
      rw [← h.2]
      exact (List.suffix_cons _ _).trans hdrop
    · split at h
      · simp at h
      · simp only [Option.pure_def, Option.some.injEq, Prod.mk.injEq] at h
        rw [← h.2]
        exact hdrop

/-- Reading a reference leaves an end piece of what comes after the ampersand. -/
theorem read_suffix (inAttribute : Bool) (s : List Char) : (read inAttribute s).2 <:+ s := by
  unfold read
  dsimp only
  split
  · rename_i r
    cases h : ofNumber? r with
    | none => exact List.suffix_refl _
    | some p => exact (ofNumber?_suffix h).trans (List.suffix_cons _ _)
  · cases h : ofNamed? inAttribute s with
    | none => exact List.suffix_refl _
    | some p => exact ofNamed?_suffix h

end Restyle.Html.Reference
