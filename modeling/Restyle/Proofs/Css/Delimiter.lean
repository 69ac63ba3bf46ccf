import Restyle.Css.Lexer
import Restyle.Proofs.Text.Runs

/-!
# Reading up to a stop

A token that stops at a brace, a semicolon, a comma or a `#` is read the same whichever of them it
stops at and whatever comes after that, because no reader looks past such a character without taking
it. The same holds of a token that stops right before a letter: where a letter does not go on with
the token, none of these characters does (`token_stop`).
-/

namespace Restyle.Css

open Text

/-- The characters that set the parts of a style sheet apart when it is written. -/
def isDelimiter (c : Char) : Bool :=
  c == '\x7b' || c == '\x7d' || c == ';' || c == ','

/-- The characters that end whatever token comes before them: delimiters and the mark of a hash. -/
def isStop (c : Char) : Bool :=
  isDelimiter c || c == '#'

/-- The characters before which a token is seen to end: stops, and letters, which would go on with
a name or a number. -/
def isFront (c : Char) : Bool :=
  isStop c || c.isAlpha

namespace Lexer

variable {d e : Char}

theorem delimiter_cases (hd : isDelimiter d) : d = '\x7b' ∨ d = '\x7d' ∨ d = ';' ∨ d = ',' := by
  simpa [isDelimiter, or_assoc] using hd

theorem isStop_of_isDelimiter (hd : isDelimiter d) : isStop d := by
  simp [isStop, hd]

theorem isFront_of_isStop (hd : isStop d) : isFront d := by
  simp [isFront, hd]

theorem isFront_of_isAlpha (hd : d.isAlpha) : isFront d := by
  simp [isFront, hd]

theorem stop_cases (hd : isStop d) :
    d = '\x7b' ∨ d = '\x7d' ∨ d = ';' ∨ d = ',' ∨ d = '#' := by
  simpa [isStop, isDelimiter, or_assoc] using hd

/-- A front is a stop or goes on with a name. -/
theorem front_cases (hd : isFront d) : isStop d ∨ isNameStart d := by
  rw [isFront, Bool.or_eq_true] at hd
  exact hd.imp_right fun h => by simp [isNameStart, h]

theorem isHexDigit_stop (hd : isStop d) : isHexDigit d = false := by
  rcases stop_cases hd with rfl | rfl | rfl | rfl | rfl <;> rfl

theorem isNameChar_stop (hd : isStop d) : isNameChar d = false := by
  rcases stop_cases hd with rfl | rfl | rfl | rfl | rfl <;> rfl

theorem isNameStart_stop (hd : isStop d) : isNameStart d = false := by
  rcases stop_cases hd with rfl | rfl | rfl | rfl | rfl <;> rfl

theorem isSpace_front (hd : isFront d) : isSpace d = false := by
  rw [Bool.eq_false_iff]
  intro hspace
  simp only [isSpace, Bool.or_eq_true, beq_iff_eq] at hspace
  rcases hspace with (((rfl | rfl) | rfl) | rfl) | rfl <;> cases hd

theorem isDigit_front (hd : isFront d) : d.isDigit = false := by
  rw [isFront, Bool.or_eq_true] at hd
  rcases hd with hd | hd
  · rcases stop_cases hd with rfl | rfl | rfl | rfl | rfl <;> rfl
  · rw [Bool.eq_false_iff]
    intro hdigit
    unfold Char.isAlpha Char.isUpper Char.isLower at hd
    unfold Char.isDigit at hdigit
    simp only [Bool.or_eq_true, Bool.and_eq_true, decide_eq_true_eq,
      UInt32.le_iff_toNat_le] at hd hdigit
    have hnine : '9'.val.toNat = 57 := rfl
    have hupper : 'A'.val.toNat = 65 := rfl
    have hlower : 'a'.val.toNat = 97 := rfl
    omega

theorem ne_of_isDelimiter (hd : isDelimiter d) (he : isDelimiter e = false) : d ≠ e := by
  rintro rfl
  rw [hd] at he
  cases he

theorem ne_of_isFront (hd : isFront d) (he : isFront e = false) : d ≠ e := by
  rintro rfl
  rw [hd] at he
  cases he

/-- The characters that a token looks at beyond its end, none of which is a front. -/
theorem ne_of_front (hd : isFront d) :
    d ≠ '\\' ∧ d ≠ '\n' ∧ d ≠ '-' ∧ d ≠ '+' ∧ d ≠ '.' ∧ d ≠ '(' ∧ d ≠ ')' ∧ d ≠ '%' ∧ d ≠ '"' ∧
      d ≠ '\'' ∧ d ≠ '!' ∧ d ≠ '>' ∧ d ≠ '*' ∧ d ≠ '/' := by
  refine ⟨?_, ?_, ?_, ?_, ?_, ?_, ?_, ?_, ?_, ?_, ?_, ?_, ?_, ?_⟩ <;> exact ne_of_isFront hd rfl

/-! ## Readers that take a front

A reader that goes on with a letter leaves no more than what comes after it. -/

/-- What is left cannot hold the front once it has been taken. -/
theorem not_suffix_of_taken {t r' u : List Char} (h : t <:+ u) (ht : t = r' ++ d :: u) : False := by
  have := h.length_le
  rw [ht, List.length_append, List.length_cons] at this
  omega

theorem mk_stop {α : Type} {a b : α} {s s' u : List Char}
    (h : (a, s ++ d :: u) = (b, s' ++ d :: u)) (e : Char) (w : List Char) :
    (a, s ++ e :: w) = (b, s' ++ e :: w) := by
  simp only [Prod.mk.injEq] at h
  rw [List.append_cancel_right h.2, h.1]

/-- An escape takes the character after the backslash at least. -/
theorem escape_cons_suffix (c : Char) (r : List Char) : (escape (c :: r)).2 <:+ r := by
  simp only [escape]
  split
  · exact (dropSpace_suffix _).trans (List.drop_suffix _ _)
  · exact List.suffix_refl _

theorem name_letter_suffix (hd : isNameStart d) (u : List Char) : (name (d :: u)).2 <:+ u :=
  name_cons_suffix (.inl (isNameChar_of_isNameStart hd))

section

variable (hd : isFront d) (he : isStop e) (u w : List Char)

include hd he

/-! ## Looking ahead -/

theorem escapes_front (r : List Char) : escapes (r ++ d :: u) = escapes (r ++ e :: w) := by
  cases r with
  | nil =>
    have hne : ∀ c : Char, isFront c → ∀ s, escapes (c :: s) = true := by
      intro c hc s
      rw [escapes.eq_2]
      rintro s' heq
      exact (ne_of_front hc).2.1 (List.cons.inj heq).1
    rw [List.nil_append, List.nil_append, hne d hd, hne e (isFront_of_isStop he)]
  | cons c r =>
    simp only [List.cons_append]
    unfold escapes
    split <;> rename_i h
    · cases h
      rfl
    · split <;> rename_i h'
      · cases h'
        exact absurd rfl (h _)
      · rfl

theorem quoteAhead_front (r : List Char) :
    quoteAhead (r ++ d :: u) = quoteAhead (r ++ e :: w) := by
  have hstop := isFront_of_isStop he
  unfold quoteAhead
  rw [dropWhile_append_stop (isSpace_front hd), dropWhile_append_stop (isSpace_front hstop)]
  cases r.dropWhile isSpace with
  | nil =>
    rw [Bool.eq_iff_iff]
    simp [ne_of_front hd, ne_of_front hstop]
  | cons c r => rfl

theorem startsDigit_front (r : List Char) :
    Numeral.startsDigit (r ++ d :: u) = Numeral.startsDigit (r ++ e :: w) := by
  cases r with
  | nil => simp [Numeral.startsDigit, isDigit_front hd, isDigit_front (isFront_of_isStop he)]
  | cons c r => rfl

theorem startsUnsigned_front (r : List Char) :
    Numeral.startsUnsigned (r ++ d :: u) = Numeral.startsUnsigned (r ++ e :: w) := by
  cases r with
  | nil =>
    have hstop := isFront_of_isStop he
    simp [Numeral.startsUnsigned, Numeral.startsDigit, isDigit_front hd, isDigit_front hstop,
      ne_of_front hd, ne_of_front hstop]
  | cons c r =>
    by_cases hpoint : c = '.'
    · subst hpoint
      exact startsDigit_front hd he u w r
    · simp [Numeral.startsUnsigned, Numeral.startsDigit, hpoint]

/-- A name starts after a hyphen whatever the front is, or it takes the front. -/
theorem startsAfterHyphen_front (r : List Char) :
    startsAfterHyphen (r ++ d :: u) = startsAfterHyphen (r ++ e :: w) ∨
      startsAfterHyphen (r ++ d :: u) ∧ (name ('-' :: (r ++ d :: u))).2 <:+ u := by
  cases r with
  | nil =>
    rcases front_cases hd with hstop | hstart
    · left
      rw [Bool.eq_iff_iff]
      simp [startsAfterHyphen, isNameStart_stop hstop, isNameStart_stop he, ne_of_front hd,
        ne_of_front (isFront_of_isStop he)]
    · right
      refine ⟨by simp [startsAfterHyphen, hstart], ?_⟩
      rw [List.nil_append, name, if_pos (by decide)]
      exact name_letter_suffix hstart u
  | cons c r =>
    left
    simp only [List.cons_append, startsAfterHyphen]
    rw [escapes_front hd he u w]

/-- A name starts whatever the front is, or it takes the front. -/
theorem startsName_front (r : List Char) :
    startsName (r ++ d :: u) = startsName (r ++ e :: w) ∨
      startsName (r ++ d :: u) ∧ (name (r ++ d :: u)).2 <:+ u := by
  cases r with
  | nil =>
    have hstop := isFront_of_isStop he
    rcases front_cases hd with hstop' | hstart
    · left
      simp [startsName, isNameStart_stop hstop', isNameStart_stop he, ne_of_front hd,
        ne_of_front hstop]
    · right
      exact ⟨by simp [startsName, hstart, ne_of_front hd], name_letter_suffix hstart u⟩
  | cons c r =>
    by_cases hhyphen : c = '-'
    · subst hhyphen
      exact startsAfterHyphen_front hd he u w r
    · left
      by_cases hbackslash : c = '\\'
      · subst hbackslash
        exact escapes_front hd he u w r
      · simp [startsName]

/-- A name goes on whatever the front is, or it takes the front. -/
theorem continuesName_front (r : List Char) :
    continuesName (r ++ d :: u) = continuesName (r ++ e :: w) ∨
      continuesName (r ++ d :: u) ∧ (name (r ++ d :: u)).2 <:+ u := by
  cases r with
  | nil =>
    have hstop := isFront_of_isStop he
    rcases front_cases hd with hstop' | hstart
    · left
      simp [continuesName, isNameChar_stop hstop', isNameChar_stop he, ne_of_front hd,
        ne_of_front hstop]
    · right
      refine ⟨?_, name_letter_suffix hstart u⟩
      simp [continuesName, isNameChar_of_isNameStart hstart, ne_of_front hd]
  | cons c r =>
    left
    by_cases hbackslash : c = '\\'
    · subst hbackslash
      exact escapes_front hd he u w r
    · simp [continuesName]

end

/-! ## The end of a text

The end of a text is looked at as a stop after it. -/

section

variable (he : isStop e) (r w : List Char)

include he

theorem escapes_append_stop : escapes (r ++ e :: w) = escapes r := by
  cases r with
  | nil =>
    rw [List.nil_append, escapes.eq_2]
    · rfl
    · rintro s heq
      exact (ne_of_front (isFront_of_isStop he)).2.1 (List.cons.inj heq).1
  | cons c r =>
    simp only [List.cons_append]
    unfold escapes
    split <;> rename_i h
    · cases h
      rfl
    · split <;> rename_i h'
      · cases h'
        exact absurd rfl (h _)
      · rfl

theorem startsAfterHyphen_append_stop : startsAfterHyphen (r ++ e :: w) = startsAfterHyphen r := by
  cases r with
  | nil =>
    rw [Bool.eq_iff_iff]
    simp [startsAfterHyphen, isNameStart_stop he, ne_of_front (isFront_of_isStop he)]
  | cons c r => rw [List.cons_append, startsAfterHyphen, startsAfterHyphen, escapes_append_stop he]

theorem startsName_append_stop : startsName (r ++ e :: w) = startsName r := by
  cases r with
  | nil =>
    simp [startsName, isNameStart_stop he, ne_of_front (isFront_of_isStop he)]
  | cons c r =>
    by_cases hhyphen : c = '-'
    · subst hhyphen
      exact startsAfterHyphen_append_stop he r w
    · by_cases hbackslash : c = '\\'
      · subst hbackslash
        exact escapes_append_stop he r w
      · simp [startsName]

theorem continuesName_append_stop : continuesName (r ++ e :: w) = continuesName r := by
  cases r with
  | nil =>
    simp [continuesName, isNameChar_stop he, ne_of_front (isFront_of_isStop he)]
  | cons c r =>
    by_cases hbackslash : c = '\\'
    · subst hbackslash
      exact escapes_append_stop he r w
    · simp [continuesName]

end

/-! ## Readers that leave a front -/

/-- Whether a reader leaves a front and what comes after it, and reads the same before any stop. -/
def LeavesFront {α : Type} (read : List Char → α × List Char) (d : Char) (u s : List Char) : Prop :=
  ∃ a t, t <:+ s ∧ read (s ++ d :: u) = (a, t ++ d :: u) ∧
    ∀ e w, isStop e → read (s ++ e :: w) = (a, t ++ e :: w)

theorem dropSpace_front (hd : isFront d) (s u : List Char) :
    dropSpace (s ++ d :: u) = dropSpace s ++ d :: u := by
  cases s with
  | nil => simp [dropSpace, isSpace_front hd]
  | cons c s =>
    simp only [List.cons_append, dropSpace]
    split <;> rfl

section

variable (hd : isFront d) (u : List Char)

include hd

/-- An escape is read the same before any stop, or it takes the front as a digit. -/
theorem escape_front (c : Char) (r : List Char) :
    (∃ a t, t <:+ r ∧ escape (c :: (r ++ d :: u)) = (a, t ++ d :: u) ∧
      ∀ e w, isStop e → escape (c :: (r ++ e :: w)) = (a, t ++ e :: w)) ∨
        (escape (c :: (r ++ d :: u))).2 <:+ u := by
  by_cases hhex : isHexDigit c
  · have hread : ∀ f x, escape (c :: (r ++ f :: x)) =
        (scalar (numberOf 16 (c :: ((r ++ f :: x).take 5).takeWhile isHexDigit)),
          dropSpace ((r ++ f :: x).drop (((r ++ f :: x).take 5).takeWhile isHexDigit).length)) :=
      fun f x => by simp only [escape, hhex, if_true]
    rcases takeWhile_take_append_or isHexDigit 5 r d u with htake | htake
    · left
      have hleaves : ∀ f x, isFront f →
          ((r ++ f :: x).take 5).takeWhile isHexDigit = (r.take 5).takeWhile isHexDigit →
          escape (c :: (r ++ f :: x)) =
            (scalar (numberOf 16 (c :: (r.take 5).takeWhile isHexDigit)),
              dropSpace (r.drop ((r.take 5).takeWhile isHexDigit).length) ++ f :: x) := by
        intro f x hf htake
        rw [hread, htake, List.drop_append_of_le_length (length_takeWhile_take_le 5 r),
          dropSpace_front hf]
      exact ⟨_, _, (dropSpace_suffix _).trans (List.drop_suffix _ _), hleaves d u hd htake,
        fun e w he => hleaves e w (isFront_of_isStop he)
          (takeWhile_take_append_stop (isHexDigit_stop he) 5 r w)⟩
    · right
      rw [hread]
      refine (dropSpace_suffix _).trans (List.suffix_of_suffix_length_le (List.drop_suffix _ _)
        ((List.suffix_cons d u).trans (List.suffix_append r _)) ?_)
      rw [List.length_drop, List.length_append, List.length_cons]
      omega
  · exact .inl ⟨c, r, List.suffix_refl _, by simp [escape, hhex],
      fun e w _ => by simp [escape, hhex]⟩

theorem readSign_front (s : List Char) : LeavesFront Numeral.readSign d u s := by
  cases s with
  | nil =>
    refine ⟨none, [], List.suffix_refl _, ?_, fun e w he => ?_⟩
    · simp [Numeral.readSign, ne_of_front hd]
    · simp [Numeral.readSign, ne_of_front (isFront_of_isStop he)]
  | cons c r =>
    by_cases hplus : c = '+'
    · subst hplus
      exact ⟨some '+', r, List.suffix_cons _ _, rfl, fun e w _ => rfl⟩
    · by_cases hminus : c = '-'
      · subst hminus
        exact ⟨some '-', r, List.suffix_cons _ _, rfl, fun e w _ => rfl⟩
      · exact ⟨none, c :: r, List.suffix_refl _, by simp [Numeral.readSign, hplus, hminus],
          fun e w _ => by simp [Numeral.readSign, hplus, hminus]⟩

theorem readFraction_front (s : List Char) : LeavesFront Numeral.readFraction d u s := by
  cases s with
  | nil =>
    refine ⟨none, [], List.suffix_refl _, ?_, fun e w he => ?_⟩
    · simp [Numeral.readFraction, ne_of_front hd]
    · simp [Numeral.readFraction, ne_of_front (isFront_of_isStop he)]
  | cons c r =>
    by_cases hpoint : c = '.'
    · subst hpoint
      have hread : ∀ f x, isFront f → Numeral.readFraction ('.' :: (r ++ f :: x)) =
          if Numeral.startsDigit (r ++ f :: x) then
            (some (r.takeWhile Char.isDigit), r.dropWhile Char.isDigit ++ f :: x)
          else (none, '.' :: (r ++ f :: x)) := by
        intro f x hf
        rw [Numeral.readFraction, takeWhile_append_stop (isDigit_front hf),
          dropWhile_append_stop (isDigit_front hf)]
      by_cases hdigit : Numeral.startsDigit (r ++ d :: u)
      · refine ⟨some (r.takeWhile Char.isDigit), r.dropWhile Char.isDigit,
          (List.dropWhile_suffix _).trans (List.suffix_cons _ _), ?_, fun e w he => ?_⟩
        · rw [List.cons_append, hread d u hd, if_pos hdigit]
        · rw [startsDigit_front hd he u w] at hdigit
          rw [List.cons_append, hread e w (isFront_of_isStop he), if_pos hdigit]
      · refine ⟨none, '.' :: r, List.suffix_refl _, ?_, fun e w he => ?_⟩
        · rw [List.cons_append, hread d u hd, if_neg hdigit]
        · rw [startsDigit_front hd he u w] at hdigit
          rw [List.cons_append, hread e w (isFront_of_isStop he), if_neg hdigit]
    · exact ⟨none, c :: r, List.suffix_refl _, by simp [Numeral.readFraction, hpoint],
        fun e w _ => by simp [Numeral.readFraction, hpoint]⟩

/-- An exponent is read the same before any stop, or it takes the front as its letter. -/
theorem readExponent_front (s : List Char) :
    LeavesFront Numeral.readExponent d u s ∨ (Numeral.readExponent (s ++ d :: u)).2 <:+ u := by
  have hstop : ∀ e w, isStop e → Numeral.readExponent (e :: w) = (none, e :: w) := by
    intro e w he
    rcases stop_cases he with rfl | rfl | rfl | rfl | rfl <;> rfl
  cases s with
  | nil =>
    by_cases hletter : d = 'e' ∨ d = 'E'
    · by_cases hdigit : Numeral.startsDigit (Numeral.readSign u).2
      · right
        simp only [List.nil_append, Numeral.readExponent, hletter, if_true, hdigit]
        refine (List.dropWhile_suffix _).trans ⟨_, Numeral.text_readSign u⟩
      · refine .inl ⟨none, [], List.suffix_refl _, ?_, fun e w he => hstop e w he⟩
        simp [Numeral.readExponent, hletter, hdigit]
    · refine .inl ⟨none, [], List.suffix_refl _, ?_, fun e w he => hstop e w he⟩
      simp [Numeral.readExponent, hletter]
  | cons c r =>
    left
    by_cases hletter : c = 'e' ∨ c = 'E'
    · obtain ⟨sign, t, ht, hfront, hsign⟩ := readSign_front hd u r
      by_cases hdigit : Numeral.startsDigit (t ++ d :: u)
      · refine ⟨some ⟨c, sign, t.takeWhile Char.isDigit⟩, t.dropWhile Char.isDigit,
          (List.dropWhile_suffix _).trans (ht.trans (List.suffix_cons _ _)), ?_, fun e w he => ?_⟩
        · simp only [List.cons_append, Numeral.readExponent, hletter, if_true, hfront, hdigit]
          rw [takeWhile_append_stop (isDigit_front hd), dropWhile_append_stop (isDigit_front hd)]
        · have hdigit' := isDigit_front (isFront_of_isStop he)
          rw [startsDigit_front hd he u w] at hdigit
          simp only [List.cons_append, Numeral.readExponent, hletter, if_true, hsign e w he, hdigit]
          rw [takeWhile_append_stop hdigit', dropWhile_append_stop hdigit']
      · refine ⟨none, c :: r, List.suffix_refl _, ?_, fun e w he => ?_⟩
        · simp [Numeral.readExponent, hletter, hfront, hdigit]
        · rw [startsDigit_front hd he u w] at hdigit
          simp [Numeral.readExponent, hletter, hsign e w he, hdigit]
    · exact ⟨none, c :: r, List.suffix_refl _, by simp [Numeral.readExponent, hletter],
        fun e w _ => by simp [Numeral.readExponent, hletter]⟩

/-- A numeral is read the same before any stop, or it takes the front. -/
theorem read_front (s : List Char) :
    LeavesFront Numeral.read d u s ∨ (Numeral.read (s ++ d :: u)).2 <:+ u := by
  obtain ⟨sign, s₁, h₁, hfront₁, hsign⟩ := readSign_front hd u s
  obtain ⟨fraction, s₂, h₂, hfront₂, hfraction⟩ :=
    readFraction_front hd u (s₁.dropWhile Char.isDigit)
  have hread : Numeral.read (s ++ d :: u) =
      (⟨sign, s₁.takeWhile Char.isDigit, fraction, (Numeral.readExponent (s₂ ++ d :: u)).1⟩,
        (Numeral.readExponent (s₂ ++ d :: u)).2) := by
    simp only [Numeral.read, hfront₁]
    rw [takeWhile_append_stop (isDigit_front hd), dropWhile_append_stop (isDigit_front hd),
      hfront₂]
  rw [hread]
  refine (readExponent_front hd u s₂).imp ?_ id
  rintro ⟨exponent, s₃, h₃, hfront₃, hexponent⟩
  refine ⟨⟨sign, s₁.takeWhile Char.isDigit, fraction, exponent⟩, s₃,
    h₃.trans (h₂.trans ((List.dropWhile_suffix _).trans h₁)), ?_, fun e w he => ?_⟩
  · rw [hread, hfront₃]
  · have hdigit := isDigit_front (isFront_of_isStop he)
    simp only [Numeral.read, hsign e w he]
    rw [takeWhile_append_stop hdigit, dropWhile_append_stop hdigit, hfraction e w he]
    simp only [hexponent e w he]

end

/-! ## Readers that stop at a front

An escape can take the front itself. Where the front is left, any stop in its place is. -/

section

variable {quote : Char} (hquote : quote ≠ '\\')

include hquote

theorem string_backslash {x : Char} (hx : x ≠ '\n') (r : List Char) :
    string quote ('\\' :: x :: r) =
      ((string quote (escape (x :: r)).2).1.map ((escape (x :: r)).1 :: ·),
        (string quote (escape (x :: r)).2).2) := by
  rw [string.eq_def]
  simp only [Ne.symm hquote, if_false, if_true, Char.reduceEq]

theorem string_continued (r : List Char) : string quote ('\\' :: '\n' :: r) = string quote r := by
  rw [string.eq_def]
  simp only [Ne.symm hquote, if_false, if_true, Char.reduceEq]

end

section

variable (hd : isFront d) (he : isStop e) {u : List Char} (w : List Char)

include hd he

theorem name_stop {r n r' : List Char} (h : name (r ++ d :: u) = (n, r' ++ d :: u)) :
    name (r ++ e :: w) = (n, r' ++ e :: w) := by
  induction hlength : r.length using Nat.strongRecOn generalizing r n with
  | ind k ih =>
    subst hlength
    cases r with
    | nil =>
      rcases front_cases hd with hstop | hstart
      · rw [List.nil_append, name, if_neg (by simp [isNameChar_stop hstop]),
          if_neg (by simp [ne_of_front hd]), Prod.mk.injEq] at h
        obtain ⟨rfl, hrest⟩ := h
        obtain rfl : [] = r' := (List.append_left_inj (d :: u)).1 hrest
        rw [List.nil_append, name, if_neg (by simp [isNameChar_stop he]),
          if_neg (by simp [ne_of_front (isFront_of_isStop he)])]
      · exact (not_suffix_of_taken (name_letter_suffix hstart u) (congrArg Prod.snd h)).elim
    | cons c r =>
      rw [List.cons_append, name] at h ⊢
      rw [← escapes_front hd he u w]
      split at h
      · rename_i hc
        rw [if_pos hc]
        simp only [Prod.mk.injEq] at h
        obtain ⟨rfl, hrest⟩ := h
        rw [ih r.length (Nat.lt_succ_self _) (Prod.ext rfl hrest) rfl]
      · rename_i hc
        rw [if_neg hc]
        split at h
        · rename_i hescape
          rw [if_pos hescape]
          simp only [Prod.mk.injEq] at h
          obtain ⟨rfl, hrest⟩ := h
          cases r with
          | nil =>
            have htaken := (name_suffix _).trans (escape_cons_suffix d u)
            exact (not_suffix_of_taken htaken hrest).elim
          | cons x r =>
            rcases escape_front hd u x r with ⟨a, t, ht, hfront, hescape⟩ | htaken
            · simp only [List.cons_append, hfront] at hrest ⊢
              rw [hescape e w he]
              have hlt := Nat.lt_of_le_of_lt ht.length_le (Nat.lt_add_of_pos_right Nat.two_pos)
              rw [ih t.length hlt (Prod.ext rfl hrest) rfl]
            · exact (not_suffix_of_taken ((name_suffix _).trans htaken) hrest).elim
        · rename_i hescape
          rw [if_neg hescape]
          simp only [Prod.mk.injEq] at h
          obtain ⟨rfl, hrest⟩ := h
          rw [← List.cons_append] at hrest
          rw [← List.append_cancel_right hrest, List.cons_append]

theorem string_stop {quote : Char} (hquote : quote = '"' ∨ quote = '\'') {r v r' : List Char}
    (h : string quote (r ++ d :: u) = (some v, r' ++ d :: u)) :
    string quote (r ++ e :: w) = (some v, r' ++ e :: w) := by
  have hne : quote ≠ '\\' := by
    rintro rfl
    simp at hquote
  induction hlength : r.length using Nat.strongRecOn generalizing r v with
  | ind k ih =>
    subst hlength
    cases r with
    | nil =>
      have hnot := ne_of_front hd
      have hopen : d ≠ quote := by rcases hquote with rfl | rfl <;> simp [hnot]
      rw [List.nil_append, string.eq_def] at h
      simp only [hopen, hnot, if_false, Prod.mk.injEq] at h
      exact (not_suffix_of_taken (string_suffix quote u) h.2).elim
    | cons c r =>
      by_cases hbackslash : c = '\\'
      · subst hbackslash
        cases r with
        | nil =>
          rw [List.cons_append, List.nil_append, string_backslash hne (ne_of_isFront hd rfl)] at h
          have htaken := (string_suffix quote _).trans (escape_cons_suffix d u)
          exact (not_suffix_of_taken htaken (congrArg Prod.snd h)).elim
        | cons x r =>
          simp only [List.cons_append] at h ⊢
          by_cases hx : x = '\n'
          · subst hx
            rw [string_continued hne] at h ⊢
            exact ih r.length (Nat.lt_add_of_pos_right Nat.two_pos) h rfl
          · rw [string_backslash hne hx] at h ⊢
            rcases escape_front hd u x r with ⟨a, t, ht, hfront, hescape⟩ | htaken
            · have hlt := Nat.lt_of_le_of_lt ht.length_le (Nat.lt_add_of_pos_right Nat.two_pos)
              rw [hfront] at h
              simp only [Prod.mk.injEq, Option.map_eq_some_iff] at h
              obtain ⟨⟨v', hv', rfl⟩, hrest⟩ := h
              rw [hescape e w he, ih t.length hlt (Prod.ext hv' hrest) rfl]
              rfl
            · have htaken := (string_suffix quote _).trans htaken
              exact (not_suffix_of_taken htaken (congrArg Prod.snd h)).elim
      · rw [List.cons_append, string.eq_def] at h ⊢
        simp only [hbackslash, if_false] at h ⊢
        split at h
        · rename_i hc
          rw [if_pos hc]
          exact mk_stop h e w
        · rename_i hc
          rw [if_neg hc]
          split at h
          · simp at h
          · rename_i hbreak
            rw [if_neg hbreak]
            simp only [Prod.mk.injEq, Option.map_eq_some_iff] at h
            obtain ⟨⟨v', hv', rfl⟩, hrest⟩ := h
            rw [ih r.length (Nat.lt_succ_self _) (Prod.ext hv' hrest) rfl]
            rfl

theorem url_stop {r v r' : List Char} (h : url (r ++ d :: u) = (some v, r' ++ d :: u)) :
    url (r ++ e :: w) = (some v, r' ++ e :: w) := by
  induction hlength : r.length using Nat.strongRecOn generalizing r v with
  | ind k ih =>
    subst hlength
    cases r with
    | nil =>
      have hnot := ne_of_front hd
      rw [List.nil_append, url, if_neg (by simp [hnot]), if_neg (by simp [isSpace_front hd]),
        if_neg (by simp [hnot]), if_neg hnot.1] at h
      exact (not_suffix_of_taken (url_suffix u) (congrArg Prod.snd h)).elim
    | cons c r =>
      rw [List.cons_append, url] at h ⊢
      rw [← escapes_front hd he u w, dropWhile_append_stop (isSpace_front (isFront_of_isStop he))]
      rw [dropWhile_append_stop (isSpace_front hd)] at h
      split at h
      · rename_i hc
        rw [if_pos hc]
        exact mk_stop h e w
      · rename_i hc
        rw [if_neg hc]
        split at h
        · rename_i hspace
          rw [if_pos hspace]
          cases hr : r.dropWhile isSpace with
          | nil => simp [hr, ne_of_front hd] at h
          | cons x t =>
            simp only [hr, List.cons_append] at h ⊢
            split at h
            · rename_i hx
              rw [if_pos hx]
              exact mk_stop h e w
            · simp at h
        · rename_i hspace
          rw [if_neg hspace]
          split at h
          · simp at h
          · rename_i hquote
            rw [if_neg hquote]
            split at h
            · rename_i hbackslash
              rw [if_pos hbackslash]
              split at h
              · rename_i hescapes
                rw [if_pos hescapes]
                simp only [Prod.mk.injEq, Option.map_eq_some_iff] at h
                obtain ⟨⟨v', hv', rfl⟩, hrest⟩ := h
                cases r with
                | nil =>
                  have htaken := (url_suffix _).trans (escape_cons_suffix d u)
                  exact (not_suffix_of_taken htaken hrest).elim
                | cons x r =>
                  rcases escape_front hd u x r with ⟨a, t, ht, hfront, hescape⟩ | htaken
                  · have hlt :=
                      Nat.lt_of_le_of_lt ht.length_le (Nat.lt_add_of_pos_right Nat.two_pos)
                    simp only [List.cons_append, hfront] at hv' hrest ⊢
                    rw [hescape e w he, ih t.length hlt (Prod.ext hv' hrest) rfl]
                    rfl
                  · exact (not_suffix_of_taken ((url_suffix _).trans htaken) hrest).elim
              · simp at h
            · rename_i hbackslash
              rw [if_neg hbackslash]
              simp only [Prod.mk.injEq, Option.map_eq_some_iff] at h
              obtain ⟨⟨v', hv', rfl⟩, hrest⟩ := h
              rw [ih r.length (Nat.lt_succ_self _) (Prod.ext hv' hrest) rfl]
              rfl

end

/-! ## Tokens -/

/-- Before a front, a text starts with another character only if it holds it. -/
theorem ne_cons_of_front {c : Char} {s : List Char} (hs : ¬∃ s', s = c :: s')
    (hc : isFront c = false) (f : Char) (x : List Char) (hf : isFront f) (r : List Char) :
    s ++ f :: x ≠ c :: r := by
  intro heq
  cases s with
  | nil =>
    rw [(List.cons.inj heq).1, hc] at hf
    cases hf
  | cons a s => exact hs ⟨s, by rw [(List.cons.inj heq).1]⟩

theorem nameToken_of_name {s n rest : List Char} (h : name s = (n, rest))
    (hrest : ∀ r, rest ≠ '(' :: r) : nameToken s = (.ident (String.ofList n), rest) := by
  unfold nameToken
  rw [h]
  dsimp only
  split
  · exact absurd rfl (hrest _)
  · rfl

theorem nameToken_of_paren {s n r : List Char} (h : name s = (n, '(' :: r)) :
    nameToken s =
      if sameLetters (String.ofList n) "url" && !quoteAhead r then
        match url (r.dropWhile isSpace) with
        | (some v, rest) => (.url (String.ofList v), rest)
        | (none, rest) => (.badUrl, rest)
      else (.function (String.ofList n), r) := by
  unfold nameToken
  rw [h]
  rfl

section

variable (hd : isFront d) (he : isStop e) {u : List Char} (w : List Char)
  {r r' : List Char} {t : Token}

include hd he

theorem nameToken_stop (ht : t ≠ .badUrl) (h : nameToken (r ++ d :: u) = (t, r' ++ d :: u)) :
    nameToken (r ++ e :: w) = (t, r' ++ e :: w) := by
  have hlength : u.length < (name (r ++ d :: u)).2.length := by
    have := (nameToken_suffix (r ++ d :: u)).length_le
    rw [h, List.length_append, List.length_cons] at this
    omega
  obtain ⟨s, hs, -⟩ := exists_append_of_suffix (name_suffix (r ++ d :: u)) hlength
  have hname : name (r ++ d :: u) = ((name (r ++ d :: u)).1, s ++ d :: u) := Prod.ext rfl hs
  have hname' := name_stop hd he w hname
  generalize (name (r ++ d :: u)).1 = n at hname hname'
  by_cases hparen : ∃ s', s = '(' :: s'
  · obtain ⟨s, rfl⟩ := hparen
    rw [List.cons_append] at hname hname'
    rw [nameToken_of_paren hname] at h
    rw [nameToken_of_paren hname', ← quoteAhead_front hd he u w,
      dropWhile_append_stop (isSpace_front (isFront_of_isStop he))]
    rw [dropWhile_append_stop (isSpace_front hd)] at h
    split at h
    · rename_i hurl
      rw [if_pos hurl]
      cases hread : url (s.dropWhile isSpace ++ d :: u) with
      | mk v rest =>
        cases v with
        | none =>
          rw [hread] at h
          exact absurd (Prod.mk.inj h).1.symm ht
        | some v =>
          rw [hread] at h
          simp only [Prod.mk.injEq] at h
          obtain ⟨rfl, rfl⟩ := h
          rw [url_stop hd he w hread]
    · rename_i hurl
      rw [if_neg hurl]
      exact mk_stop h e w
  · have hne := ne_cons_of_front hparen rfl
    rw [nameToken_of_name hname (hne d u hd)] at h
    simp only [Prod.mk.injEq] at h
    rw [nameToken_of_name hname' (hne e w (isFront_of_isStop he)), List.append_cancel_right h.2,
      h.1]

theorem numberToken_stop (h : numberToken (r ++ d :: u) = (t, r' ++ d :: u)) :
    numberToken (r ++ e :: w) = (t, r' ++ e :: w) := by
  rcases read_front hd u r with ⟨n, s, -, hfront, hread⟩ | htaken
  · unfold numberToken at h ⊢
    rw [hfront] at h
    rw [hread e w he]
    dsimp only at h ⊢
    rcases startsName_front hd he u w s with hstarts | ⟨hstarts, htaken⟩
    · rw [← hstarts]
      split at h
      · rename_i hstarts
        rw [if_pos hstarts]
        simp only [Prod.mk.injEq] at h
        rw [name_stop hd he w (Prod.ext rfl h.2), ← h.1]
      · rename_i hstarts
        rw [if_neg hstarts]
        by_cases hpercent : ∃ s', s = '%' :: s'
        · obtain ⟨s, rfl⟩ := hpercent
          exact mk_stop h e w
        · have hne := ne_cons_of_front hpercent rfl
          split at h
          · rename_i heq
            exact absurd heq (hne d u hd _)
          · split
            · rename_i heq
              exact absurd heq (hne e w (isFront_of_isStop he) _)
            · exact mk_stop h e w
    · rw [if_pos hstarts] at h
      exact (not_suffix_of_taken htaken (congrArg Prod.snd h)).elim
  · have htaken := (numberToken_suffix _).trans htaken
    exact (not_suffix_of_taken htaken (congrArg Prod.snd h)).elim

theorem stringToken_stop {quote : Char} (hquote : quote = '"' ∨ quote = '\'') (ht : t ≠ .badString)
    (h : stringToken quote (r ++ d :: u) = (t, r' ++ d :: u)) :
    stringToken quote (r ++ e :: w) = (t, r' ++ e :: w) := by
  unfold stringToken at h ⊢
  cases hread : string quote (r ++ d :: u) with
  | mk v rest =>
    cases v with
    | none =>
      rw [hread] at h
      exact absurd (Prod.mk.inj h).1.symm ht
    | some v =>
      rw [hread] at h
      simp only [Prod.mk.injEq] at h
      obtain ⟨rfl, rfl⟩ := h
      rw [string_stop hd he w hquote hread]

theorem hashToken_stop (h : hashToken (r ++ d :: u) = (t, r' ++ d :: u)) :
    hashToken (r ++ e :: w) = (t, r' ++ e :: w) := by
  unfold hashToken at h ⊢
  rcases continuesName_front hd he u w r with hcontinues | ⟨hcontinues, htaken⟩
  · rw [← hcontinues]
    split at h
    · rename_i hname
      rw [if_pos hname]
      simp only [Prod.mk.injEq] at h
      rcases startsName_front hd he u w r with hstarts | ⟨-, htaken⟩
      · rw [name_stop hd he w (Prod.ext rfl h.2), ← hstarts, ← h.1]
      · exact (not_suffix_of_taken htaken h.2).elim
    · rename_i hname
      rw [if_neg hname]
      exact mk_stop h e w
  · rw [if_pos hcontinues] at h
    exact (not_suffix_of_taken htaken (congrArg Prod.snd h)).elim

theorem lessToken_stop (h : lessToken (r ++ d :: u) = (t, r' ++ d :: u)) :
    lessToken (r ++ e :: w) = (t, r' ++ e :: w) := by
  by_cases hmark : ∃ s, r = '!' :: '-' :: '-' :: s
  · obtain ⟨s, rfl⟩ := hmark
    exact mk_stop h e w
  · have hne : ∀ f x, isFront f → ∀ s, r ++ f :: x ≠ '!' :: '-' :: '-' :: s := by
      intro f x hf s heq
      rcases r with _ | ⟨a, _ | ⟨b, _ | ⟨c, r⟩⟩⟩
      all_goals
        simp only [List.nil_append, List.cons_append, List.cons.injEq] at heq
      · exact ne_of_isFront hf rfl heq.1
      · exact ne_of_isFront hf rfl heq.2.1
      · exact ne_of_isFront hf rfl heq.2.2.1
      · exact hmark ⟨r, by rw [heq.1, heq.2.1, heq.2.2.1]⟩
    rw [lessToken.eq_2 _ (hne d u hd)] at h
    simp only [Prod.mk.injEq] at h
    rw [lessToken.eq_2 _ (hne e w (isFront_of_isStop he)), List.append_cancel_right h.2, h.1]

theorem atToken_stop (h : atToken (r ++ d :: u) = (t, r' ++ d :: u)) :
    atToken (r ++ e :: w) = (t, r' ++ e :: w) := by
  unfold atToken at h ⊢
  rcases startsName_front hd he u w r with hstarts | ⟨hstarts, htaken⟩
  · rw [← hstarts]
    split at h
    · rename_i hname
      rw [if_pos hname]
      simp only [Prod.mk.injEq] at h
      rw [name_stop hd he w (Prod.ext rfl h.2), ← h.1]
    · rename_i hname
      rw [if_neg hname]
      exact mk_stop h e w
  · rw [if_pos hstarts] at h
    exact (not_suffix_of_taken htaken (congrArg Prod.snd h)).elim

theorem hyphenToken_stop (ht : t ≠ .badUrl) (h : hyphenToken (r ++ d :: u) = (t, r' ++ d :: u)) :
    hyphenToken (r ++ e :: w) = (t, r' ++ e :: w) := by
  unfold hyphenToken at h ⊢
  rw [← startsUnsigned_front hd he u w]
  split at h
  · rename_i hnumber
    rw [if_pos hnumber]
    exact numberToken_stop hd he w (r := '-' :: r) h
  · rename_i hnumber
    rw [if_neg hnumber]
    by_cases hmark : ∃ s, r = '-' :: '>' :: s
    · obtain ⟨s, rfl⟩ := hmark
      exact mk_stop h e w
    · have hne : ∀ f x, isFront f → ∀ s, r ++ f :: x ≠ '-' :: '>' :: s := by
        intro f x hf s heq
        rcases r with _ | ⟨a, _ | ⟨b, r⟩⟩
        all_goals
          simp only [List.nil_append, List.cons_append, List.cons.injEq] at heq
        · exact ne_of_isFront hf rfl heq.1
        · exact ne_of_isFront hf rfl heq.2.1
        · exact hmark ⟨r, by rw [heq.1, heq.2.1]⟩
      split at h
      · rename_i heq
        exact absurd heq (hne d u hd _)
      · split
        · rename_i heq
          exact absurd heq (hne e w (isFront_of_isStop he) _)
        · rcases startsAfterHyphen_front hd he u w r with hstarts | ⟨hstarts, htaken⟩
          · rw [← hstarts]
            split at h
            · rename_i hname
              rw [if_pos hname]
              exact nameToken_stop hd he w (r := '-' :: r) ht h
            · rename_i hname
              rw [if_neg hname]
              exact mk_stop h e w
          · rw [if_pos hstarts] at h
            have htaken := (nameToken_suffix _).trans htaken
            exact (not_suffix_of_taken htaken (congrArg Prod.snd h)).elim

/-- A token that stops at a stop or before a letter is read the same before any stop. -/
theorem token_stop {c : Char} (hstring : t ≠ .badString) (hurl : t ≠ .badUrl)
    (h : token c (r ++ d :: u) = (t, r' ++ d :: u)) :
    token c (r ++ e :: w) = (t, r' ++ e :: w) := by
  unfold token at h ⊢
  split at h
  · rename_i hspace
    rw [if_pos hspace, dropWhile_append_stop (isSpace_front (isFront_of_isStop he))]
    rw [dropWhile_append_stop (isSpace_front hd)] at h
    exact mk_stop h e w
  rename_i hspace
  rw [if_neg hspace]
  split at h
  case h_1 => exact stringToken_stop hd he w (.inl rfl) hstring h
  case h_2 => exact stringToken_stop hd he w (.inr rfl) hstring h
  case h_3 => exact hashToken_stop hd he w h
  case h_13 | h_15 =>
    first | rw [← startsUnsigned_front hd he u w] | rw [← startsDigit_front hd he u w]
    split at h
    · rename_i hnumber
      rw [if_pos hnumber]
      exact numberToken_stop hd he w (r := _ :: r) h
    · rename_i hnumber
      rw [if_neg hnumber]
      exact mk_stop h e w
  case h_14 => exact hyphenToken_stop hd he w hurl h
  case h_16 => exact lessToken_stop hd he w h
  case h_17 => exact atToken_stop hd he w h
  case h_18 =>
    rw [← escapes_front hd he u w]
    split at h
    · rename_i hescape
      rw [if_pos hescape]
      exact nameToken_stop hd he w (r := _ :: r) hurl h
    · rename_i hescape
      rw [if_neg hescape]
      exact mk_stop h e w
  case h_19 =>
    split at h
    · rename_i hdigit
      rw [if_pos hdigit]
      exact numberToken_stop hd he w (r := _ :: r) h
    · rename_i hdigit
      rw [if_neg hdigit]
      split at h
      · rename_i hname
        rw [if_pos hname]
        exact nameToken_stop hd he w (r := _ :: r) hurl h
      · rename_i hname
        rw [if_neg hname]
        exact mk_stop h e w
  all_goals
    exact mk_stop h e w

end

end Lexer

end Restyle.Css
