import Mathlib.Computability.RegularExpressions
import Restyle.Proofs.Css.DroppedComments

/-!
# Numbers are read as they are written

The written form of numbers is a regular expression (`Numeral.pattern`), and `Decimal.parse?` says
which number a whole text writes, if it writes one. What carries the proofs is that the pattern
matches the texts of regular numerals and no others (`Numeral.mem_pattern`): what is read is
regular, and reading goes at least as far as any regular numeral in front
(`Numeral.Regular.read_append_suffix`). Main statement: the tokens with a number stand where the
pattern matches, and each of them is made of the longest numeral there, whose text always writes a
number (`Lexeme.numerals_ofText`).
-/

namespace Restyle

open Text

namespace Decimal

/-- The number that a run of digits writes. There is at least one digit. -/
def natural? (s : List Char) : Option Int :=
  if s ≠ [] ∧ s.all Char.isDigit then some (numberOf 10 s) else none

/-- The number that digits write, after a sign or none. -/
def integer? : List Char → Option Int
  | '+' :: r => natural? r
  | '-' :: r => (natural? r).map (- ·)
  | s => natural? s

/-- The power of ten that an exponent writes, zero without one. -/
def power? : List Char → Option Int
  | [] => some 0
  | c :: r => if c = 'e' ∨ c = 'E' then integer? r else none

/-- The digits before a point and after it, and what comes after them. -/
def mantissa (s : List Char) : List Char × List Char × List Char :=
  match s.dropWhile Char.isDigit with
  | '.' :: r => (s.takeWhile Char.isDigit, r.takeWhile Char.isDigit, r.dropWhile Char.isDigit)
  | r => (s.takeWhile Char.isDigit, [], r)

/-- The number that a text without a sign writes. -/
def unsigned? (negative : Bool) (s : List Char) : Option Decimal :=
  let (whole, fraction, r) := mantissa s
  if whole ++ fraction = [] then none
  else
    (power? r).map fun power =>
      ⟨negative, numberOf 10 (whole ++ fraction), power - fraction.length⟩

/-- The number that a text writes from its first character to its last: digits with a point before
them, between them, after them or not at all, a sign in front of them or none, and an exponent at
the end or none. Words that stand for no finite number are left out. -/
def parse? : List Char → Option Decimal
  | '+' :: r => unsigned? false r
  | '-' :: r => unsigned? true r
  | s => unsigned? false s

end Decimal

namespace Css

namespace Numeral

/-! ## The pattern -/

/-- One of some characters. -/
def oneOf (cs : List Char) : RegularExpression Char :=
  (cs.map .char).sum

/-- A pattern, or nothing. -/
def optional (p : RegularExpression Char) : RegularExpression Char :=
  p + 1

/-- `[+-]`. -/
def signPattern : RegularExpression Char :=
  oneOf ['+', '-']

/-- `[0-9]+`. -/
def digitsPattern : RegularExpression Char :=
  oneOf "0123456789".toList * (oneOf "0123456789".toList).star

/-- Digits, with a point between them or before them. -/
def mantissaPattern : RegularExpression Char :=
  digitsPattern + digitsPattern * (.char '.' * digitsPattern) + .char '.' * digitsPattern

/-- `[eE][+-]?[0-9]+`. -/
def exponentPattern : RegularExpression Char :=
  oneOf ['e', 'E'] * (optional signPattern * digitsPattern)

/-- The written form of numbers: digits with a point between them or before them, after a sign or
none and before an exponent or none. -/
def pattern : RegularExpression Char :=
  optional signPattern * (mantissaPattern * optional exponentPattern)

/-- Whether a text is a run of digits, of at least one. -/
def IsDigits (t : List Char) : Prop :=
  t ≠ [] ∧ ∀ c ∈ t, c.isDigit

/-- Whether a sign is a plus or a minus sign, if there is one. -/
def IsSign (sign : Option Char) : Prop :=
  ∀ c ∈ sign, c = '+' ∨ c = '-'

end Numeral

open Numeral

/-- Whether the parts of an exponent are what they should be. -/
structure Exponent.Regular (e : Exponent) : Prop where
  /-- The letter. -/
  letter : e.letter = 'e' ∨ e.letter = 'E'
  /-- The sign. -/
  sign : IsSign e.sign
  /-- There are digits. -/
  digits : IsDigits e.digits

namespace Numeral

/-- Whether the parts of a numeral are what they should be. -/
structure Regular (n : Numeral) : Prop where
  /-- The sign. -/
  sign : IsSign n.sign
  /-- There are digits before the point, or none. -/
  whole : ∀ c ∈ n.whole, c.isDigit
  /-- There are digits after a point. -/
  fraction : ∀ f ∈ n.fraction, IsDigits f
  /-- The exponent. -/
  exponent : ∀ e ∈ n.exponent, e.Regular
  /-- There are digits before the point or after it. -/
  filled : n.whole ≠ [] ∨ n.fraction.isSome

section

variable {t : List Char}

theorem mem_oneOf {cs : List Char} : t ∈ (oneOf cs).matches' ↔ ∃ c ∈ cs, t = [c] := by
  induction cs with
  | nil => simp [oneOf, RegularExpression.matches'_zero, Language.notMem_zero]
  | cons c cs ih =>
    have hsum : oneOf (c :: cs) = .char c + oneOf cs := List.sum_cons
    have hchar : t ∈ (RegularExpression.char c).matches' ↔ t = [c] := Iff.rfl
    rw [hsum, RegularExpression.matches'_add, Language.mem_add, ih, hchar]
    simp

theorem mem_optional {p : RegularExpression Char} :
    t ∈ (optional p).matches' ↔ t ∈ p.matches' ∨ t = [] := by
  rw [optional, RegularExpression.matches'_add, Language.mem_add,
    RegularExpression.matches'_epsilon, Language.mem_one]

theorem mem_mul {p q : RegularExpression Char} :
    t ∈ (p * q).matches' ↔ ∃ a ∈ p.matches', ∃ b ∈ q.matches', a ++ b = t := by
  rw [RegularExpression.matches'_mul, Language.mem_mul]

theorem isDigit_iff {c : Char} : c.isDigit ↔ c ∈ "0123456789".toList := by
  constructor
  · intro h
    refine Lexer.forall_hexDigit (p := fun c => c.isDigit → c ∈ "0123456789".toList) ?_ ?_ h
    · decide
    · simp [isHexDigit, h]
  · exact List.all_eq_true.1 (by decide : "0123456789".toList.all Char.isDigit) c

theorem mem_digitsPattern : t ∈ digitsPattern.matches' ↔ IsDigits t := by
  rw [digitsPattern, mem_mul, RegularExpression.matches'_star]
  constructor
  · rintro ⟨a, ha, b, hb, rfl⟩
    obtain ⟨c, hc, rfl⟩ := mem_oneOf.1 ha
    obtain ⟨ts, rfl, hts⟩ := Language.mem_kstar.1 hb
    refine ⟨by simp, fun d hd => ?_⟩
    rcases List.mem_append.1 hd with hd | hd
    · rw [List.mem_singleton.1 hd]
      exact isDigit_iff.2 hc
    · obtain ⟨u, hu, hdu⟩ := List.mem_flatten.1 hd
      obtain ⟨e, he, rfl⟩ := mem_oneOf.1 (hts u hu)
      rw [List.mem_singleton.1 hdu]
      exact isDigit_iff.2 he
  · rintro ⟨hne, hdigits⟩
    obtain ⟨c, r, rfl⟩ := List.exists_cons_of_ne_nil hne
    have hone : ∀ d ∈ c :: r, [d] ∈ (oneOf "0123456789".toList).matches' :=
      fun d hd => mem_oneOf.2 ⟨d, isDigit_iff.1 (hdigits d hd), rfl⟩
    refine ⟨[c], hone c List.mem_cons_self, r, Language.mem_kstar.2 ⟨r.map ([·]), ?_, ?_⟩, rfl⟩
    · rw [← List.flatMap_def, List.flatMap_singleton']
    · intro u hu
      obtain ⟨d, hd, rfl⟩ := List.mem_map.1 hu
      exact hone d (List.mem_cons_of_mem _ hd)

theorem mem_optional_signPattern :
    t ∈ (optional signPattern).matches' ↔ ∃ sign, IsSign sign ∧ sign.toList = t := by
  rw [mem_optional, signPattern, mem_oneOf]
  constructor
  · rintro (⟨c, hc, rfl⟩ | rfl)
    · refine ⟨some c, ?_, rfl⟩
      rintro _ ⟨⟩
      simpa using hc
    · exact ⟨none, by simp [IsSign], rfl⟩
  · rintro ⟨_ | c, hsign, rfl⟩
    · exact .inr rfl
    · exact .inl ⟨c, by simpa using hsign c rfl, rfl⟩

theorem mem_fraction : t ∈ (RegularExpression.char '.' * digitsPattern).matches' ↔
    ∃ f, IsDigits f ∧ '.' :: f = t := by
  rw [mem_mul]
  constructor
  · rintro ⟨_, rfl, f, hf, rfl⟩
    exact ⟨f, mem_digitsPattern.1 hf, rfl⟩
  · rintro ⟨f, hf, rfl⟩
    exact ⟨['.'], rfl, f, mem_digitsPattern.2 hf, rfl⟩

theorem mem_mantissaPattern : t ∈ mantissaPattern.matches' ↔
    ∃ (whole : List Char) (fraction : Option (List Char)), (∀ c ∈ whole, c.isDigit) ∧
      (∀ f ∈ fraction, IsDigits f) ∧ (whole ≠ [] ∨ fraction.isSome) ∧
        whole ++ (fraction.map ('.' :: ·)).getD [] = t := by
  rw [mantissaPattern, RegularExpression.matches'_add, Language.mem_add,
    RegularExpression.matches'_add, Language.mem_add, mem_mul, mem_digitsPattern, mem_fraction]
  constructor
  · rintro ((hwhole | ⟨whole, hwhole, _, hfraction, rfl⟩) | ⟨f, hf, rfl⟩)
    · exact ⟨t, none, hwhole.2, by simp, .inl hwhole.1, List.append_nil t⟩
    · obtain ⟨f, hf, rfl⟩ := mem_fraction.1 hfraction
      exact ⟨whole, some f, (mem_digitsPattern.1 hwhole).2, by simpa using hf, .inr rfl, rfl⟩
    · exact ⟨[], some f, by simp, by simpa using hf, .inr rfl, rfl⟩
  · rintro ⟨whole, _ | f, hwhole, hfraction, hfilled, rfl⟩
    · refine .inl (.inl ?_)
      rw [Option.map_none, Option.getD_none, List.append_nil]
      exact ⟨hfilled.resolve_right (by simp), hwhole⟩
    · have hf := hfraction f rfl
      by_cases hempty : whole = []
      · exact .inr ⟨f, hf, by rw [hempty]; rfl⟩
      · exact .inl (.inr ⟨whole, mem_digitsPattern.2 ⟨hempty, hwhole⟩, '.' :: f,
          mem_fraction.2 ⟨f, hf, rfl⟩, rfl⟩)

theorem mem_exponentPattern :
    t ∈ exponentPattern.matches' ↔ ∃ e : Exponent, e.Regular ∧ e.text = t := by
  rw [exponentPattern, mem_mul]
  constructor
  · rintro ⟨a, ha, b, hb, rfl⟩
    obtain ⟨c, hc, rfl⟩ := mem_oneOf.1 ha
    obtain ⟨s, hs, digits, hdigits, rfl⟩ := mem_mul.1 hb
    obtain ⟨sign, hsign, rfl⟩ := mem_optional_signPattern.1 hs
    exact ⟨⟨c, sign, digits⟩, ⟨by simpa using hc, hsign, mem_digitsPattern.1 hdigits⟩, rfl⟩
  · rintro ⟨⟨c, sign, digits⟩, ⟨hletter, hsign, hdigits⟩, rfl⟩
    exact ⟨[c], mem_oneOf.2 ⟨c, by simpa using hletter, rfl⟩, sign.toList ++ digits,
      mem_mul.2 ⟨_, mem_optional_signPattern.2 ⟨sign, hsign, rfl⟩, digits,
        mem_digitsPattern.2 hdigits, rfl⟩, rfl⟩

/-- The pattern matches the texts of regular numerals. -/
theorem mem_pattern : t ∈ pattern.matches' ↔ ∃ n : Numeral, n.Regular ∧ n.text = t := by
  rw [pattern, mem_mul]
  constructor
  · rintro ⟨s, hs, u, hu, rfl⟩
    obtain ⟨sign, hsign, rfl⟩ := mem_optional_signPattern.1 hs
    obtain ⟨m, hm, x, hx, rfl⟩ := mem_mul.1 hu
    obtain ⟨whole, fraction, hwhole, hfraction, hfilled, rfl⟩ := mem_mantissaPattern.1 hm
    rcases mem_optional.1 hx with hx | rfl
    · obtain ⟨e, he, rfl⟩ := mem_exponentPattern.1 hx
      exact ⟨⟨sign, whole, fraction, some e⟩,
        ⟨hsign, hwhole, hfraction, by simpa using he, hfilled⟩, by simp [text]⟩
    · exact ⟨⟨sign, whole, fraction, none⟩,
        ⟨hsign, hwhole, hfraction, by simp, hfilled⟩, by simp [text]⟩
  · rintro ⟨⟨sign, whole, fraction, exponent⟩, h, rfl⟩
    refine ⟨sign.toList, mem_optional_signPattern.2 ⟨sign, h.sign, rfl⟩, _,
      mem_mul.2 ⟨_, mem_mantissaPattern.2 ⟨whole, fraction, h.whole, h.fraction, h.filled, rfl⟩,
        (exponent.map Exponent.text).getD [], mem_optional.2 ?_, rfl⟩, by simp [text]⟩
    cases exponent with
    | none => exact .inr rfl
    | some e => exact .inl (mem_exponentPattern.2 ⟨e, h.exponent e rfl, rfl⟩)

/-- A point needs digits after it. -/
example : "-.5E+2".toList ∈ pattern.matches' ∧ "1.e5".toList ∉ pattern.matches' := by decide

end

/-! ## The longest numeral is read -/

section

variable {s z : List Char}

theorem isDigits_takeWhile (h : startsDigit s) : IsDigits (s.takeWhile Char.isDigit) :=
  ⟨Lexer.takeWhile_ne_nil h, List.all_eq_true.1 List.all_takeWhile⟩

theorem isSign_readSign (s : List Char) : IsSign (readSign s).1 := by
  unfold readSign
  split <;> simp [IsSign]

theorem isDigits_readFraction (s : List Char) : ∀ f ∈ (readFraction s).1, IsDigits f := by
  intro f hf
  unfold readFraction at hf
  split at hf
  · split_ifs at hf with hdigit
    · obtain rfl := Option.some.inj hf
      exact isDigits_takeWhile hdigit
    · cases hf
  · cases hf

theorem regular_readExponent (s : List Char) : ∀ e ∈ (readExponent s).1, e.Regular := by
  intro e he
  unfold readExponent at he
  split at he
  · dsimp only at he
    split_ifs at he with hletter hdigit
    · obtain rfl := Option.some.inj he
      exact ⟨hletter, isSign_readSign _, isDigits_takeWhile hdigit⟩
    all_goals cases he
  · cases he

/-- What is read where a numeral starts is one. -/
theorem regular_read (h : starts s) : (read s).1.Regular where
  sign := isSign_readSign s
  whole := List.all_eq_true.1 List.all_takeWhile
  fraction := isDigits_readFraction _
  exponent := regular_readExponent _
  filled := by
    rw [Lexer.starts_eq, Bool.or_eq_true, Bool.not_eq_true', List.isEmpty_eq_false_iff] at h
    exact h

theorem readFraction_suffix (s : List Char) : (readFraction s).2 <:+ s :=
  ⟨_, text_readFraction s⟩

theorem readExponent_suffix (s : List Char) : (readExponent s).2 <:+ s :=
  ⟨_, text_readExponent s⟩

theorem IsDigits.startsDigit_append {ds : List Char} (h : IsDigits ds) (z : List Char) :
    startsDigit (ds ++ z) := by
  obtain ⟨c, r, rfl⟩ := List.exists_cons_of_ne_nil h.1
  exact h.2 c List.mem_cons_self

theorem startsUnsigned_of_startsDigit (h : startsDigit s) : startsUnsigned s := by
  unfold startsUnsigned
  split
  · cases h
  · exact h

/-- A numeral without a sign starts with none. -/
theorem not_sign_of_startsUnsigned {c : Char} {r : List Char} (h : startsUnsigned (c :: r)) :
    c ≠ '+' ∧ c ≠ '-' := by
  constructor
  · rintro rfl
    cases h
  · rintro rfl
    cases h

theorem IsSign.readSign_append {sign : Option Char} (h : IsSign sign) (hz : startsUnsigned z) :
    readSign (sign.toList ++ z) = (sign, z) := by
  cases sign with
  | none =>
    cases z with
    | nil => cases hz
    | cons c r =>
      obtain ⟨hplus, hminus⟩ := not_sign_of_startsUnsigned hz
      simp [readSign, hplus, hminus]
  | some c => rcases h c rfl with rfl | rfl <;> rfl

theorem readFraction_point {f : List Char} (h : IsDigits f) (z : List Char) :
    readFraction ('.' :: (f ++ z)) =
      (some (f ++ z.takeWhile Char.isDigit), z.dropWhile Char.isDigit) := by
  rw [readFraction, if_pos (h.startsDigit_append z), List.takeWhile_append_of_pos h.2,
    List.dropWhile_append_of_pos h.2]

end

end Numeral

namespace Exponent.Regular

variable {e : Exponent} (h : e.Regular)

include h

theorem letter_not_isDigit : e.letter.isDigit = false := by
  rcases h.letter with heq | heq <;> rw [heq] <;> rfl

theorem readFraction_append (z : List Char) : readFraction (e.text ++ z) = (none, e.text ++ z) := by
  have hpoint : e.letter ≠ '.' := by
    rcases h.letter with heq | heq <;> rw [heq] <;> decide
  simp [readFraction, Exponent.text, hpoint]

theorem readExponent_append (z : List Char) :
    readExponent (e.text ++ z) =
      (some ⟨e.letter, e.sign, e.digits ++ z.takeWhile Char.isDigit⟩,
        z.dropWhile Char.isDigit) := by
  have hdigit := h.digits.startsDigit_append z
  have hsplit : e.text ++ z = e.letter :: (e.sign.toList ++ (e.digits ++ z)) := by
    simp [Exponent.text]
  rw [hsplit, readExponent, if_pos h.letter,
    h.sign.readSign_append (startsUnsigned_of_startsDigit hdigit)]
  dsimp only
  rw [if_pos hdigit, List.takeWhile_append_of_pos h.digits.2,
    List.dropWhile_append_of_pos h.digits.2]

end Exponent.Regular

namespace Numeral

/-- After the digits of a mantissa, reading goes beyond an exponent that comes next, also if a point
might come before it. -/
theorem exponent_read {x : Option Exponent} (h : ∀ e ∈ x, e.Regular) (z : List Char) :
    let u := ((x.map Exponent.text).getD [] ++ z).dropWhile Char.isDigit
    (readExponent u).2 <:+ z ∧ (readExponent (readFraction u).2).2 <:+ z := by
  cases x with
  | none =>
    have hdigits : z.dropWhile Char.isDigit <:+ z := List.dropWhile_suffix _
    refine ⟨(readExponent_suffix _).trans hdigits, ?_⟩
    exact (readExponent_suffix _).trans ((readFraction_suffix _).trans hdigits)
  | some e =>
    have he := h e rfl
    have hdrop : (e.text ++ z).dropWhile Char.isDigit = e.text ++ z :=
      List.dropWhile_cons_of_neg (by simp [he.letter_not_isDigit])
    have hread : (readExponent (e.text ++ z)).2 <:+ z := by
      rw [he.readExponent_append]
      exact List.dropWhile_suffix _
    simp only [Option.map_some, Option.getD_some, hdrop, he.readFraction_append]
    exact ⟨hread, hread⟩

namespace Regular

variable {n : Numeral} (h : n.Regular)

include h

theorem startsUnsigned_mantissa (u : List Char) :
    startsUnsigned (n.whole ++ ((n.fraction.map ('.' :: ·)).getD [] ++ u)) := by
  have hfilled := h.filled
  cases hwhole : n.whole with
  | nil =>
    rw [hwhole] at hfilled
    obtain ⟨f, hf⟩ := Option.isSome_iff_exists.1 (hfilled.resolve_left (absurd rfl))
    rw [hf]
    exact (h.fraction f hf).startsDigit_append u
  | cons c r =>
    have hc : c.isDigit := h.whole c (by rw [hwhole]; exact List.mem_cons_self)
    exact startsUnsigned_of_startsDigit hc

theorem readSign_append (z : List Char) :
    readSign (n.text ++ z) = (n.sign,
      n.whole ++ ((n.fraction.map ('.' :: ·)).getD [] ++
        ((n.exponent.map Exponent.text).getD [] ++ z))) := by
  rw [← h.sign.readSign_append (h.startsUnsigned_mantissa _)]
  simp [text]

/-- Reading goes at least as far as any numeral that starts the text. -/
theorem read_append_suffix (z : List Char) : (read (n.text ++ z)).2 <:+ z := by
  have hread := exponent_read h.exponent z
  rw [read, h.readSign_append]
  dsimp only at hread ⊢
  rw [List.dropWhile_append_of_pos h.whole]
  cases hfraction : n.fraction with
  | none => exact hread.2
  | some f =>
    have hpoint : ∀ u, ('.' :: (f ++ u)).dropWhile Char.isDigit = '.' :: (f ++ u) :=
      fun u => List.dropWhile_cons_of_neg (by decide)
    rw [Option.map_some, Option.getD_some, List.cons_append, hpoint,
      readFraction_point (h.fraction f hfraction)]
    exact hread.1

theorem isWhole_iff : n.isWhole ↔ '.' ∉ n.text ∧ 'e' ∉ n.text ∧ 'E' ∉ n.text := by
  rw [isWhole, Bool.and_eq_true, Option.isNone_iff_eq_none, Option.isNone_iff_eq_none]
  constructor
  · rintro ⟨hfraction, hexponent⟩
    have hmem : ∀ c ∈ n.text, (c = '+' ∨ c = '-') ∨ c.isDigit := by
      intro c hc
      simp only [text, hfraction, hexponent, Option.map_none, Option.getD_none, List.append_nil,
        List.mem_append, Option.mem_toList] at hc
      exact hc.imp (h.sign c) (h.whole c)
    exact ⟨fun hc => absurd (hmem _ hc) (by decide), fun hc => absurd (hmem _ hc) (by decide),
      fun hc => absurd (hmem _ hc) (by decide)⟩
  · rintro ⟨hpoint, hlower, hupper⟩
    refine ⟨Option.eq_none_iff_forall_not_mem.2 fun f hf => ?_,
      Option.eq_none_iff_forall_not_mem.2 fun e he => ?_⟩
    · exact hpoint (by simp [text, Option.mem_def.1 hf])
    · rcases (h.exponent e he).letter with hletter | hletter
      · exact hlower (by simp [text, Option.mem_def.1 he, Exponent.text, hletter])
      · exact hupper (by simp [text, Option.mem_def.1 he, Exponent.text, hletter])

end Regular

theorem length_le_of_mem_pattern {s t : List Char} (ht : t ∈ pattern.matches') (hs : t <+: s) :
    t.length ≤ (read s).1.text.length := by
  obtain ⟨n, hn, rfl⟩ := mem_pattern.1 ht
  obtain ⟨z, rfl⟩ := hs
  have hrest := (hn.read_append_suffix z).length_le
  have htext := congrArg List.length (text_read (n.text ++ z))
  rw [List.length_append, List.length_append] at htext
  omega

/-- A numeral starts a text if the pattern matches a piece at its front. -/
theorem starts_iff {s : List Char} : starts s ↔ ∃ t ∈ pattern.matches', t <+: s := by
  constructor
  · intro h
    exact ⟨_, mem_pattern.2 ⟨_, regular_read h, rfl⟩, _, text_read s⟩
  · rintro ⟨t, ht, z, rfl⟩
    obtain ⟨n, hn, rfl⟩ := mem_pattern.1 ht
    rw [starts, hn.readSign_append]
    exact hn.startsUnsigned_mantissa _

/-! ## What a numeral writes -/

theorem integer?_append {ds : List Char} (h : IsDigits ds) {sign : Option Char}
    (hsign : IsSign sign) :
    Decimal.integer? (sign.toList ++ ds) =
      some (if sign = some '-' then -(numberOf 10 ds : Int) else numberOf 10 ds) := by
  have hnatural : Decimal.natural? ds = some (numberOf 10 ds : Int) :=
    if_pos ⟨h.1, List.all_eq_true.2 h.2⟩
  cases sign with
  | none =>
    obtain ⟨c, r, rfl⟩ := List.exists_cons_of_ne_nil h.1
    have hstarts : startsDigit (c :: r) := h.2 c List.mem_cons_self
    obtain ⟨hplus, hminus⟩ := not_sign_of_startsUnsigned (startsUnsigned_of_startsDigit hstarts)
    simpa [Decimal.integer?, hplus, hminus] using hnatural
  | some c =>
    rcases hsign c rfl with rfl | rfl
    · exact hnatural
    · simp [Decimal.integer?, hnatural]

theorem power?_text {x : Option Exponent} (h : ∀ e ∈ x, e.Regular) :
    Decimal.power? ((x.map Exponent.text).getD []) = some ((x.map Exponent.value).getD 0) := by
  cases x with
  | none => rfl
  | some e =>
    have he := h e rfl
    have hread : Decimal.power? e.text = Decimal.integer? (e.sign.toList ++ e.digits) :=
      if_pos he.letter
    rw [Option.map_some, Option.getD_some, hread, integer?_append he.digits he.sign,
      Option.map_some, Option.getD_some, Exponent.value]

theorem mantissa_append {whole : List Char} (hwhole : ∀ c ∈ whole, c.isDigit)
    {fraction : Option (List Char)} (hfraction : ∀ f ∈ fraction, IsDigits f)
    {x : Option Exponent} (hx : ∀ e ∈ x, e.Regular) :
    Decimal.mantissa (whole ++ ((fraction.map ('.' :: ·)).getD [] ++
      (x.map Exponent.text).getD [])) =
        (whole, fraction.getD [], (x.map Exponent.text).getD []) := by
  have htake : ((x.map Exponent.text).getD []).takeWhile Char.isDigit = [] := by
    cases x with
    | none => rfl
    | some e => exact List.takeWhile_cons_of_neg (by simp [(hx e rfl).letter_not_isDigit])
  have hdrop : ((x.map Exponent.text).getD []).dropWhile Char.isDigit =
      (x.map Exponent.text).getD [] := by
    have hsplit := List.takeWhile_append_dropWhile (p := Char.isDigit)
      (l := (x.map Exponent.text).getD [])
    rwa [htake] at hsplit
  rw [Decimal.mantissa, List.takeWhile_append_of_pos hwhole, List.dropWhile_append_of_pos hwhole]
  cases fraction with
  | none =>
    rw [Option.map_none, Option.getD_none, List.nil_append, htake, hdrop, List.append_nil]
    cases x with
    | none => rfl
    | some e =>
      have hpoint : e.letter ≠ '.' := by
        rcases (hx e rfl).letter with heq | heq <;> rw [heq] <;> decide
      simp [Exponent.text, hpoint]
  | some f =>
    have hf := hfraction f rfl
    rw [Option.map_some, Option.getD_some, List.cons_append, List.takeWhile_cons_of_neg (by decide),
      List.dropWhile_cons_of_neg (by decide)]
    simp only [List.takeWhile_append_of_pos hf.2, List.dropWhile_append_of_pos hf.2, htake, hdrop,
      List.append_nil, Option.getD_some]

theorem parse?_append {sign : Option Char} (h : IsSign sign) {s : List Char}
    (hs : startsUnsigned s) :
    Decimal.parse? (sign.toList ++ s) = Decimal.unsigned? (sign = some '-') s := by
  cases sign with
  | none =>
    cases s with
    | nil => cases hs
    | cons c r =>
      obtain ⟨hplus, hminus⟩ := not_sign_of_startsUnsigned hs
      simp [Decimal.parse?, hplus, hminus]
  | some c => rcases h c rfl with rfl | rfl <;> rfl

/-- The text of a numeral writes its value. -/
theorem Regular.parse?_text {n : Numeral} (h : n.Regular) :
    Decimal.parse? n.text = some n.value := by
  have hstarts := h.startsUnsigned_mantissa ((n.exponent.map Exponent.text).getD [])
  have hsplit : n.text = n.sign.toList ++ (n.whole ++ ((n.fraction.map ('.' :: ·)).getD [] ++
      (n.exponent.map Exponent.text).getD [])) := by
    simp [text]
  have hfilled : n.whole ++ n.fraction.getD [] ≠ [] := by
    rcases h.filled with hwhole | hfraction
    · exact List.append_ne_nil_of_left_ne_nil hwhole _
    · obtain ⟨f, hf⟩ := Option.isSome_iff_exists.1 hfraction
      rw [hf]
      exact List.append_ne_nil_of_right_ne_nil _ (h.fraction f hf).1
  rw [hsplit, parse?_append h.sign hstarts, Decimal.unsigned?,
    mantissa_append h.whole h.fraction h.exponent]
  dsimp only
  rw [if_neg hfilled, power?_text h.exponent]
  rfl

/-- Whether a numeral is what is to be read at the front of a text: the longest piece there that the
pattern matches, told to be whole and given its value by its text. -/
structure IsFront (n : Numeral) (s : List Char) : Prop where
  /-- The numeral starts the text. -/
  front : n.text <+: s
  /-- The pattern matches the numeral. -/
  matched : n.text ∈ pattern.matches'
  /-- The pattern matches no longer piece. -/
  longest : ∀ t ∈ pattern.matches', t <+: s → t.length ≤ n.text.length
  /-- A whole numeral has neither a point nor an exponent. -/
  whole : n.isWhole ↔ '.' ∉ n.text ∧ 'e' ∉ n.text ∧ 'E' ∉ n.text
  /-- The text of the numeral writes a number, which is its value. -/
  value : Decimal.parse? n.text = some n.value

theorem isFront_read {s : List Char} (h : starts s) : (read s).1.IsFront s where
  front := ⟨_, text_read s⟩
  matched := mem_pattern.2 ⟨_, regular_read h, rfl⟩
  longest := fun _ => length_le_of_mem_pattern
  whole := (regular_read h).isWhole_iff
  value := (regular_read h).parse?_text

end Numeral

/-! ## Tokens -/

/-- Whether a token with this source text is made of the numeral: alone, before a percent sign or
before a unit. -/
def Token.IsMadeOf (t : Token) (source : List Char) (n : Numeral) : Prop :=
  match t with
  | number value whole => value = n.value ∧ whole = n.isWhole ∧ source = n.text
  | percentage value => value = n.value ∧ source = n.text ++ ['%']
  | dimension value _ => value = n.value ∧ n.text <+: source
  | _ => False

theorem Lexer.isMadeOf_numberToken {s p : List Char} (hp : p ++ (numberToken s).2 = s) :
    (numberToken s).1.IsMadeOf p (Numeral.read s).1 := by
  have hread := Numeral.text_read s
  revert hp
  unfold numberToken
  generalize Numeral.read s = n at hread ⊢
  obtain ⟨n, rest⟩ := n
  dsimp only at hread ⊢
  subst hread
  split
  · intro hp
    obtain ⟨unit, hunit⟩ := name_suffix rest
    refine ⟨rfl, unit, (List.append_left_inj (name rest).2).1 ?_⟩
    rw [hp, List.append_assoc, hunit]
  · split
    · rename_i r _
      intro hp
      refine ⟨rfl, (List.append_left_inj r).1 ?_⟩
      rw [hp, List.append_assoc]
      rfl
    · intro hp
      exact ⟨rfl, rfl, (List.append_left_inj _).1 hp⟩

namespace Lexeme

theorem raw_of_isNumeral {l : Lexeme} (h : l.token.isNumeral) : l.raw = l.source := by
  refine if_neg fun hspace => ?_
  rw [hspace.1] at h
  cases h

/-- A token has a number in it at the places of a text where the pattern matches, and nowhere else:
only white space that stands for comments is read at such a place too. There the longest numeral is
read, which writes a number, and the token is made of it. -/
theorem numerals_ofText (s : String) : ∀ l ∈ ofText s,
    ∃ front rest, s.toList = front ++ rest ∧ l.start = byteSize front ∧
      (l.token.isNumeral ↔ l.token ≠ .whitespace ∧ ∃ t ∈ pattern.matches', t <+: rest) ∧
      (l.token.isNumeral → (Numeral.read rest).1.IsFront rest ∧
        l.token.IsMadeOf l.raw.toList (Numeral.read rest).1) := by
  intro l hl
  rw [ofText, List.mem_append, List.mem_singleton] at hl
  rcases hl with hl | rfl
  · obtain ⟨front, rest, hsplit, hstart, hread⟩ := exists_place_of_mem_scanFrom hl
    rw [Nat.zero_add] at hstart
    refine ⟨front, rest, hsplit, hstart, ?_⟩
    rw [← starts_iff]
    rcases hread with ⟨htoken, -⟩ | ⟨c, r, rfl, htoken, hsource⟩
    · rw [htoken]
      simp [Token.isNumeral]
    · rcases Lexer.numeral_cases c r with ⟨hstarts, hnumber⟩ | ⟨hstarts, hnone⟩
      · rw [hnumber] at htoken hsource
        have hnumeral := Lexer.isNumeral_numberToken (c :: r)
        rw [← htoken] at hnumeral
        refine ⟨iff_of_true hnumeral ⟨?_, hstarts⟩, fun _ => ⟨isFront_read hstarts, ?_⟩⟩
        · intro hspace
          rw [hspace] at hnumeral
          cases hnumeral
        · rw [raw_of_isNumeral hnumeral, htoken]
          exact Lexer.isMadeOf_numberToken hsource
      · rw [← htoken] at hnone
        rw [hnone, hstarts]
        simp
  · refine ⟨s.toList, [], (List.append_nil _).symm, rfl, ?_⟩
    rw [← starts_iff]
    have hnone : Numeral.starts [] = false := rfl
    simp [Token.isNumeral, hnone]

/-- The sign belongs to the number, and the point after the exponent does not. -/
theorem numerals_ofText_signed :
    (⟨.number ⟨true, 5, 1⟩ false, "-.5E+2", 1⟩ : Lexeme) ∈ ofText "1-.5E+2.e" ∧
      ∃ front rest, "1-.5E+2.e".toList = front ++ rest ∧ 1 = byteSize front ∧
        (Numeral.read rest).1.IsFront rest ∧
          (Token.number ⟨true, 5, 1⟩ false).IsMadeOf "-.5E+2".toList (Numeral.read rest).1 := by
  have h : (⟨.number ⟨true, 5, 1⟩ false, "-.5E+2", 1⟩ : Lexeme) ∈ ofText "1-.5E+2.e" := by
    decide +kernel
  obtain ⟨front, rest, hsplit, hstart, -, hread⟩ := numerals_ofText "1-.5E+2.e" _ h
  obtain ⟨hfront, hmade⟩ := hread rfl
  exact ⟨h, front, rest, hsplit, hstart, hfront, hmade⟩

end Lexeme

end Css

end Restyle
