import Restyle.Proofs.Css.Lookahead
import Restyle.Proofs.Css.Spelling
import Restyle.Proofs.Css.Weighing

/-!
# Reading a text without its comments

The lexemes of a text, written one after another, are the text without its comments, and white space
stands where a comment keeps two words apart. Reading that again gives the same lexemes if and only
if no token runs into what stands for the tokens after it (`apart`); then the tokens are the same as
well (`tokens_joined`).
-/

namespace Restyle.Css

open Text

/-- Numbers, with a unit or without one. -/
def Token.isNumeral : Token → Bool
  | .number _ _ | .percentage _ | .dimension _ _ => true
  | _ => false

namespace Lexer

/-! ## What a token shows of the text after its first character -/

section

variable {r : List Char}

theorem escapes_iff : escapes r ↔ (token '\\' r).1 ≠ .delim '\\' := by
  have hread : token '\\' r = if escapes r then nameToken ('\\' :: r) else (.delim '\\', r) := rfl
  rw [hread]
  split_ifs with h
  · exact iff_of_true h (nameToken_ne_delim _ _)
  · exact iff_of_false h (by simp)

theorem startsDigit_iff : Numeral.startsDigit r ↔ (token '.' r).1 ≠ .delim '.' := by
  have hread : token '.' r =
      if Numeral.startsDigit r then numberToken ('.' :: r) else (.delim '.', r) := rfl
  rw [hread]
  split_ifs with h
  · refine iff_of_true h fun heq => ?_
    cases isWord_of_number heq
  · exact iff_of_false h (by simp)

theorem isNumeral_numberToken (s : List Char) : (numberToken s).1.isNumeral := by
  unfold numberToken
  dsimp only
  split_ifs
  · rfl
  · split <;> rfl

theorem isNumeral_nameToken (s : List Char) : (nameToken s).1.isNumeral = false := by
  unfold nameToken
  dsimp only
  split
  · split_ifs
    · split <;> rfl
    · rfl
  · rfl

theorem isNumeral_stringToken (quote : Char) (s : List Char) :
    (stringToken quote s).1.isNumeral = false := by
  unfold stringToken
  split <;> rfl

/-- Where a numeral starts, a token is read as one, and elsewhere a token is none. -/
theorem numeral_cases (c : Char) (r : List Char) :
    Numeral.starts (c :: r) ∧ token c r = numberToken (c :: r) ∨
      Numeral.starts (c :: r) = false ∧ (token c r).1.isNumeral = false := by
  unfold token
  split
  · rename_i hspace
    refine .inr ⟨?_, rfl⟩
    simp only [isSpace, Bool.or_eq_true, beq_iff_eq] at hspace
    rcases hspace with (((rfl | rfl) | rfl) | rfl) | rfl <;> rfl
  split
  case h_1 | h_2 => exact .inr ⟨rfl, isNumeral_stringToken _ _⟩
  case h_3 =>
    refine .inr ⟨rfl, ?_⟩
    unfold hashToken
    split <;> rfl
  case h_13 | h_15 =>
    split
    · exact .inl ⟨‹_›, rfl⟩
    · exact .inr ⟨Bool.eq_false_iff.2 ‹_›, rfl⟩
  case h_14 =>
    unfold hyphenToken
    split
    · exact .inl ⟨‹_›, rfl⟩
    · refine .inr ⟨Bool.eq_false_iff.2 ‹_›, ?_⟩
      split
      · rfl
      · split
        · exact isNumeral_nameToken _
        · rfl
  case h_16 =>
    refine .inr ⟨rfl, ?_⟩
    unfold lessToken
    split <;> rfl
  case h_17 =>
    refine .inr ⟨rfl, ?_⟩
    unfold atToken
    split <;> rfl
  case h_18 =>
    refine .inr ⟨rfl, ?_⟩
    split
    · exact isNumeral_nameToken _
    · rfl
  case h_19 hplus hminus hpoint _ _ _ =>
    -- Without a sign or a point in front a numeral starts with a digit.
    have hstarts : Numeral.starts (c :: r) = c.isDigit := by
      rw [Numeral.starts, Numeral.readSign.eq_3 _ (by simpa using hplus) (by simpa using hminus),
        Numeral.startsUnsigned.eq_2 _ (by simpa using hpoint)]
      rfl
    rw [hstarts]
    split
    · exact .inl ⟨‹_›, rfl⟩
    · refine .inr ⟨Bool.eq_false_iff.2 ‹_›, ?_⟩
      split
      · exact isNumeral_nameToken _
      · rfl
  all_goals exact .inr ⟨rfl, rfl⟩
theorem not_startsAfterHyphen_of_startsUnsigned (h : Numeral.startsUnsigned r) :
    startsAfterHyphen r = false := by
  cases r with
  | nil => cases h
  | cons c r =>
    by_cases hpoint : c = '.'
    · rw [hpoint]
      rfl
    · rw [startsUnsigned_cons hpoint] at h
      have hother : isNameStart c = false ∧ c ≠ '-' ∧ c ≠ '\\' := by
        refine forall_hexDigit
          (p := fun c => c.isDigit → isNameStart c = false ∧ c ≠ '-' ∧ c ≠ '\\')
          ?_ (by simp [isHexDigit, h]) h
        decide
      simp [startsAfterHyphen, hother]

theorem startsAfterHyphen_iff :
    startsAfterHyphen r ↔ (token '-' r).1.isNumeral = false ∧ (token '-' r).1 ≠ .delim '-' := by
  have hread : token '-' r = hyphenToken r := rfl
  rw [hread]
  unfold hyphenToken
  split_ifs with hnumber
  · rw [not_startsAfterHyphen_of_startsUnsigned hnumber, isNumeral_numberToken]
    simp
  · split
    · exact iff_of_true rfl ⟨rfl, by simp⟩
    · split_ifs with hstarts
      · exact iff_of_true hstarts ⟨isNumeral_nameToken _, nameToken_ne_delim _ _⟩
      · exact iff_of_false hstarts (by simp)

end

/-- A number that starts with a plus sign takes what comes after the sign. -/
theorem token_plus_ne {r : List Char} (h : Numeral.startsUnsigned r) : (token '+' r).2 ≠ r := by
  intro heq
  cases r with
  | nil => cases h
  | cons c r =>
    have hread : token '+' (c :: r) = numberToken ('+' :: c :: r) := if_pos h
    have hsign : Numeral.readSign (c :: r) = (none, c :: r) := by
      have hplus : c ≠ '+' := by
        rintro rfl
        cases h
      have hminus : c ≠ '-' := by
        rintro rfl
        cases h
      simp [Numeral.readSign, hplus, hminus]
    have hstarts : Numeral.starts (c :: r) := by rwa [Numeral.starts, hsign]
    have hrest : (Numeral.read ('+' :: c :: r)).2 = (Numeral.read (c :: r)).2 := by
      rw [Numeral.read, Numeral.read, hsign]
      rfl
    have htaken := numberToken_suffix ('+' :: c :: r)
    rw [← hread, heq, hrest] at htaken
    exact not_suffix_self (htaken.trans (Numeral.read_suffix hstarts))

/-! ## Texts that words see the same -/

section

variable {c : Char} {v v' : List Char} (htoken : (token c v').1 = (token c v).1)
  (hplus : c = '+' → startsPlus (c :: v') = startsPlus (c :: v))

include htoken hplus

/-- Words see the same where the same token comes next. -/
theorem seesSame_of_token : SeesSame (c :: v) (c :: v') := by
  refine ⟨?_, ?_, rfl, ?_, ?_, id, id⟩
  · by_cases hbackslash : c = '\\'
    · subst hbackslash
      rw [continuesName, continuesName, Bool.eq_iff_iff, escapes_iff, escapes_iff, htoken]
    · rw [continuesName_cons_of_ne hbackslash, continuesName_cons_of_ne hbackslash]
  · by_cases hbackslash : c = '\\'
    · subst hbackslash
      rw [startsName, startsName, Bool.eq_iff_iff, escapes_iff, escapes_iff, htoken]
    · by_cases hhyphen : c = '-'
      · subst hhyphen
        rw [startsName, startsName, Bool.eq_iff_iff, startsAfterHyphen_iff, startsAfterHyphen_iff,
          htoken]
      · rw [startsName_cons_of_ne hhyphen hbackslash, startsName_cons_of_ne hhyphen hbackslash]
  · by_cases hpoint : c = '.'
    · subst hpoint
      rw [startsPoint, startsPoint, Bool.eq_iff_iff, startsDigit_iff, startsDigit_iff, htoken]
    · simp [startsPoint, hpoint]
  · by_cases hc : c = '+'
    · exact hplus hc
    · simp [startsPlus, hc]

omit htoken hplus in
/-- Words see no difference between a comment and what neither goes on with them nor could. -/
theorem seesSame_comment {s y : List Char} (hcontinues : continuesName y = false)
    (hpoint : startsPoint y = false) (hplus : startsPlus y = false) (hparen : y.head? ≠ some '(')
    (hpercent : y.head? ≠ some '%') : SeesSame ('/' :: s) y := by
  refine ⟨hcontinues, ?_, ?_, hpoint, hplus, fun h => absurd h hparen, fun h => absurd h hpercent⟩
  · have hnot : startsName ('/' :: s) = false := rfl
    rw [hnot, Bool.eq_false_iff]
    intro hstarts
    rw [continuesName_of_startsName hstarts] at hcontinues
    cases hcontinues
  · have hnot : Numeral.startsDigit ('/' :: s) = false := rfl
    rw [hnot, Bool.eq_false_iff]
    intro hdigit
    cases y with
    | nil => cases hdigit
    | cons c r =>
      have hc : c.isDigit := hdigit
      have := isNameChar_of_head? hcontinues c rfl
      simp [isNameChar, hc] at this

omit htoken hplus in
theorem startsDigit_of_startsUnsigned {z : List Char} (hz : Numeral.startsUnsigned z = false) :
    Numeral.startsDigit z = false := by
  cases z with
  | nil => rfl
  | cons d z =>
    by_cases hd : d = '.'
    · rw [hd]
      rfl
    · rwa [startsUnsigned_cons hd] at hz

/-- Words see no difference between a comment and the token after it that does not extend them. -/
theorem seesSame_of_not_extendsWord (hextends : extendsWord (c :: v) = false) (s : List Char) :
    SeesSame ('/' :: s) (c :: v') := by
  have hsame := seesSame_of_token htoken hplus
  rw [extendsWord] at hextends
  split_ifs at hextends with hc
  · have hdigit := startsDigit_of_startsUnsigned hextends
    rcases hc with rfl | rfl
    · refine seesSame_comment rfl (hsame.point.trans hdigit) rfl ?_ ?_ <;> simp
    · refine seesSame_comment rfl rfl (hsame.plus.trans hdigit) ?_ ?_ <;> simp
  · simp only [Bool.or_eq_false_iff, beq_eq_false_iff_ne] at hextends
    obtain ⟨⟨⟨hname, hbackslash⟩, hparen⟩, hpercent⟩ := hextends
    rw [not_or] at hc
    refine seesSame_comment ?_ ?_ ?_ ?_ ?_
    · rwa [continuesName_cons_of_ne hbackslash]
    · simp [startsPoint, hc]
    · simp [startsPlus, hc]
    · simpa using hparen
    · simpa using hpercent

end

section

variable {c : Char} {t : Token} {p x y : List Char}

theorem startsPlus_of_token (h : token c (p ++ x) = (t, x)) (h' : token c (p ++ y) = (t, y))
    (hc : c = '+') : startsPlus (c :: (p ++ y)) = startsPlus (c :: (p ++ x)) := by
  subst hc
  cases p with
  | cons d p => rfl
  | nil =>
    rw [List.nil_append] at h h'
    have hdigit : ∀ {z}, token '+' z = (t, z) → Numeral.startsDigit z = false := by
      intro z hz
      apply startsDigit_of_startsUnsigned
      rw [Bool.eq_false_iff]
      exact fun hnumber => token_plus_ne hnumber (congrArg Prod.snd hz)
    exact (hdigit h').trans (hdigit h).symm

/-! ## Texts that stand for others -/

/-- Whether what comes after a token may be another text: no reader that looks past the token sees a
difference. -/
structure StandsFor (inWord : Bool) (x y : List Char) : Prop where
  /-- The end stays the end. -/
  nil : x = [] → y = []
  /-- A line feed stays one. -/
  line : x.head? = some '\n' → y.head? = some '\n'
  /-- A quote that comes next still does. -/
  quote : quoteAhead x → quoteAhead y
  /-- Words see no difference. -/
  word : inWord → SeesSame x y

theorem runsInto_nil (t : Token) (text : List Char) : t.runsInto text [] = false := by
  unfold Token.runsInto
  split <;> first | rfl | simp [startsSpace]

/-- A token is read before what stands for the text after it if it does not run into that. -/
theorem token_standsFor_iff (hspace : isSpace c = false)
    (hskip : skipComments (c :: (p ++ x)) = c :: (p ++ x)) (h : token c (p ++ x) = (t, x))
    (hy : StandsFor t.isWord x y) :
    skipComments (c :: (p ++ y)) = c :: (p ++ y) ∧ token c (p ++ y) = (t, y) ↔
      t.runsInto (c :: p) y = false := by
  cases x with
  | nil =>
    rw [hy.nil rfl]
    exact iff_of_true ⟨hskip, h⟩ (runsInto_nil _ _)
  | cons d u =>
    by_cases hslash : c = '/'
    · subst hslash
      obtain ⟨rfl, hp⟩ := Prod.mk.inj h
      obtain rfl := List.append_left_eq_self.1 hp
      rw [List.nil_append, Token.runsInto_slash, Bool.eq_false_iff, Ne, isPrefixOf_iff_exists]
      constructor
      · rintro ⟨hskip, -⟩ ⟨r, rfl⟩
        exact not_comment_of_skipComments hskip r rfl
      · intro hnot
        refine ⟨skipComments_eq_self fun r hr => hnot ⟨r, (List.cons.inj hr).2⟩, rfl⟩
    · have hline : d = '\n' → y.head? = some '\n' := fun hd => hy.line (congrArg some hd)
      rw [skipComments_cons hslash,
        ← token_append_iff (fun _ => hline) hy.quote hy.word hspace hslash h]
      exact and_iff_right rfl

end

theorem quoteAhead_spaces (hp : ∀ e ∈ p, isSpace e) (x : List Char) :
    quoteAhead (p ++ x) = quoteAhead x := by
  rw [quoteAhead, quoteAhead, List.dropWhile_append_of_pos hp]

theorem quoteAhead_of_not_isSpace (hc : isSpace c = false) (x y : List Char) :
    quoteAhead (c :: x) = quoteAhead (c :: y) := by
  rw [quoteAhead, quoteAhead, List.dropWhile_cons_of_neg (by simp [hc]),
    List.dropWhile_cons_of_neg (by simp [hc])]

theorem token_ne_whitespace {r : List Char} (hc : isSpace c = false) (h : token c r = (t, x)) :
    t ≠ .whitespace := by
  rintro rfl
  obtain ⟨p, hp⟩ := exists_source c r
  have hspace : (token c r).1 = .whitespace := congrArg Prod.fst h
  have hshows := shows_token hp (by simp [hspace]) (by simp [hspace])
  rw [hspace] at hshows
  have := hshows c List.mem_cons_self
  rw [hc] at this
  cases this

/-- Whether `space` stands for comments before a text: white space, or nothing where the text does
not go on with a word before it. Nothing stands for no comments. -/
def SpaceFor (inWord : Bool) (comments space s : List Char) : Prop :=
  comments = [] ∧ space = [] ∨ (∃ z, comments = '/' :: z) ∧
    (space = [' '] ∨ space = [] ∧ (inWord → extendsWord s = false))

/-- A token stands for itself, and what stands between it and the word before it for comments. -/
theorem StandsFor.cons {inWord : Bool} {front space v v' : List Char}
    (htoken : (token c v').1 = (token c v).1)
    (hplus : c = '+' → startsPlus (c :: v') = startsPlus (c :: v))
    (hquote : quoteAhead (c :: v) → quoteAhead (c :: v'))
    (hfront : SpaceFor inWord front space (c :: v)) :
    StandsFor inWord (front ++ c :: v) (space ++ c :: v') := by
  rcases hfront with ⟨rfl, rfl⟩ | ⟨⟨z, rfl⟩, hspace⟩
  · exact ⟨by simp, by simp, hquote, fun _ => seesSame_of_token htoken hplus⟩
  · have hnot : quoteAhead ('/' :: z ++ c :: v) = false := rfl
    refine ⟨by simp, by simp, fun h => ?_, fun hword => ?_⟩
    · rw [hnot] at h
      cases h
    rcases hspace with rfl | ⟨rfl, hextends⟩
    · refine seesSame_comment rfl rfl rfl ?_ ?_ <;> simp
    · exact seesSame_of_not_extendsWord htoken hplus (hextends hword) _

theorem standsFor_nil {inWord : Bool} {s : List Char} (h : skipComments s = []) :
    StandsFor inWord s [] := by
  obtain ⟨front, hfront, rfl | ⟨z, rfl⟩⟩ := exists_front s <;> rw [h, List.append_nil] at hfront <;>
    rw [← hfront]
  · exact ⟨id, id, id, fun _ => .refl []⟩
  · refine ⟨by simp, by simp, id, fun _ => ?_⟩
    refine seesSame_comment rfl rfl rfl ?_ ?_ <;> simp

theorem token_of_isSpace {c : Char} (hc : isSpace c) (r : List Char) :
    token c r = (.whitespace, r.dropWhile isSpace) :=
  if_pos hc

end Lexer

/-! ## What lexemes show -/

namespace Lexeme

/-- The tokens of lexemes, each with the text that stands for it, and white space character by
character. -/
def shown (ls : List Lexeme) : List (Token × List Char) :=
  ls.flatMap fun l =>
    if l.isSpace then l.raw.toList.map fun c => (.whitespace, [c]) else [(l.token, l.raw.toList)]

/-- Whether no token runs into what stands for the lexemes after it. -/
def apart : List Lexeme → Bool
  | [] => true
  | l :: ls => !l.token.runsInto l.raw.toList (joined ls).toList && apart ls

theorem shown_cons (l : Lexeme) (ls : List Lexeme) :
    shown (l :: ls) = (if l.isSpace then l.raw.toList.map fun c => (.whitespace, [c])
      else [(l.token, l.raw.toList)]) ++ shown ls :=
  List.flatMap_cons

section

variable {t : Token} {c : Char} {p : List Char} {start : Nat}

theorem toList_raw_mk :
    (raw ⟨t, String.ofList (c :: p), start⟩).toList = c :: p := by
  rw [raw, if_neg, String.toList_ofList]
  rintro ⟨-, hempty⟩
  have := congrArg String.toList hempty
  simp at this

theorem shown_space (ls : List Lexeme) :
    shown (⟨.whitespace, String.ofList (c :: p), start⟩ :: ls) =
      (c :: p).map (fun e => (.whitespace, [e])) ++ shown ls := by
  rw [shown_cons, toList_raw_mk]
  rfl

theorem shown_token (ht : t ≠ .whitespace) (ls : List Lexeme) :
    shown (⟨t, String.ofList (c :: p), start⟩ :: ls) = (t, c :: p) :: shown ls := by
  rw [shown_cons, toList_raw_mk, if_neg (by simpa [isSpace] using ht)]
  rfl

theorem toList_joined_cons (ls : List Lexeme) :
    (joined (⟨t, String.ofList (c :: p), start⟩ :: ls)).toList =
      c :: (p ++ (joined ls).toList) := by
  rw [joined_cons, String.toList_append, toList_raw_mk]
  rfl

end

theorem scanFrom_space {c : Char} (hc : Text.isSpace c) (inWord : Bool) (start : Nat)
    (r : List Char) :
    scanFrom inWord start (c :: r) =
      ⟨.whitespace, String.ofList (c :: r.takeWhile Text.isSpace), start⟩ ::
        scanFrom false (start + byteSize (c :: r.takeWhile Text.isSpace))
          (r.dropWhile Text.isSpace) := by
  have hslash : c ≠ '/' := by
    rintro rfl
    cases hc
  have htoken := Lexer.token_of_isSpace hc r
  have hscan := @scanFrom_eq_of_skipComments inWord start [] (c :: r.takeWhile Text.isSpace) r c
    (Lexer.skipComments_cons hslash r)
    (by rw [htoken, List.cons_append, List.takeWhile_append_dropWhile])
  rw [htoken] at hscan
  exact hscan

/-- White space shows as its characters, whatever comes after it. -/
theorem shown_scanFrom_space {c : Char} (hc : Text.isSpace c) (inWord : Bool) (start : Nat)
    (r : List Char) :
    shown (scanFrom inWord start (c :: r)) =
      (.whitespace, [c]) :: shown (scanFrom false (start + c.utf8Size) r) := by
  rw [scanFrom_space hc, shown_space]
  cases r with
  | nil => rfl
  | cons e r =>
    by_cases he : Text.isSpace e
    · rw [scanFrom_space he, shown_space, List.takeWhile_cons_of_pos he,
        List.dropWhile_cons_of_pos he, byteSize, Nat.add_assoc]
      rfl
    · rw [List.takeWhile_cons_of_neg he, List.dropWhile_cons_of_neg he]
      rfl

theorem shown_scanFrom_spaces {p : List Char} (hp : ∀ e ∈ p, Text.isSpace e) {c : Char}
    (hc : Text.isSpace c) (inWord : Bool) (start : Nat) (y : List Char) :
    ∃ start', shown (scanFrom inWord start (c :: (p ++ y))) =
      (c :: p).map (fun e => (.whitespace, [e])) ++ shown (scanFrom false start' y) := by
  induction p generalizing c inWord start with
  | nil => exact ⟨_, shown_scanFrom_space hc inWord start y⟩
  | cons e p ih =>
    rw [List.forall_mem_cons] at hp
    obtain ⟨start', h⟩ := ih hp.2 hp.1 false (start + c.utf8Size)
    refine ⟨start', ?_⟩
    rw [List.cons_append, shown_scanFrom_space hc, h]
    rfl

/-- A token that is read before another text shows as it is. -/
theorem shown_scanFrom_token {c : Char} {t : Token} {p y : List Char}
    (hskip : Lexer.skipComments (c :: (p ++ y)) = c :: (p ++ y))
    (h : Lexer.token c (p ++ y) = (t, y)) (ht : t ≠ .whitespace) (inWord : Bool) (start : Nat) :
    ∃ start', shown (scanFrom inWord start (c :: (p ++ y))) =
      (t, c :: p) :: shown (scanFrom t.isWord start' y) := by
  have hscan := @scanFrom_eq_of_skipComments inWord start [] (c :: p) (p ++ y) c hskip
    (by rw [h]; rfl)
  rw [h, gap_nil, List.nil_append, List.nil_append] at hscan
  exact ⟨_, by rw [hscan, shown_token ht]⟩

/-- A token that shows at the front of a text is read there, and what shows after it comes from the
rest of the text. -/
theorem token_of_shown {c : Char} {t : Token} {p y : List Char} {more : List (Token × List Char)}
    {inWord : Bool} {start : Nat} (hc : Text.isSpace c = false)
    (hskip : Lexer.skipComments (c :: (p ++ y)) = c :: (p ++ y))
    (h : shown (scanFrom inWord start (c :: (p ++ y))) = (t, c :: p) :: more) :
    Lexer.token c (p ++ y) = (t, y) ∧ ∃ start', shown (scanFrom t.isWord start' y) = more := by
  obtain ⟨t', y', htoken⟩ : ∃ t' y', Lexer.token c (p ++ y) = (t', y') := ⟨_, _, rfl⟩
  obtain ⟨p', hp⟩ := Lexer.token_suffix c (p ++ y)
  rw [htoken] at hp
  dsimp only at hp
  rw [← hp] at hskip htoken h
  obtain ⟨start', hread⟩ :=
    shown_scanFrom_token hskip htoken (Lexer.token_ne_whitespace hc htoken) inWord start
  rw [hread, List.cons.injEq, Prod.mk.injEq, List.cons.injEq] at h
  obtain ⟨⟨rfl, -, rfl⟩, hmore⟩ := h
  obtain rfl : y' = y := List.append_cancel_left hp
  exact ⟨htoken, start', hmore⟩

/-! ## Reading again -/

/-- What stands for comments before a text is read as it was, and the text after it. -/
theorem exists_space {front : List Char} (h : front = [] ∨ ∃ z, front = '/' :: z) (inWord : Bool)
    (start : Nat) (s : List Char) :
    ∃ space, (joined (gap front inWord start s)).toList = space ∧
      Lexer.SpaceFor inWord front space s ∧
      ∀ inWord' start' y, ∃ inWord'' start'', shown (scanFrom inWord' start' (space ++ y)) =
        shown (gap front inWord start s) ++ shown (scanFrom inWord'' start'' y) := by
  by_cases hgap : !front.isEmpty && inWord && Lexer.extendsWord s
  · have heq : gap front inWord start s = [⟨.whitespace, "", start⟩] := if_pos hgap
    rw [heq]
    refine ⟨[' '], by simp [joined, raw], .inr ⟨h.resolve_left ?_, .inl rfl⟩, fun _ start' y => ?_⟩
    · rintro rfl
      cases hgap
    · refine ⟨false, start' + ' '.utf8Size, ?_⟩
      rw [List.singleton_append, shown_scanFrom_space rfl]
      simp [shown, isSpace, raw]
  · have heq : gap front inWord start s = [] := if_neg hgap
    rw [heq]
    refine ⟨[], by simp [joined], ?_, fun inWord' start' y => ⟨inWord', start', rfl⟩⟩
    refine h.imp (⟨·, rfl⟩) fun hfront => ⟨hfront, .inr ⟨rfl, fun hword => ?_⟩⟩
    obtain ⟨z, rfl⟩ := hfront
    simpa [hword] using hgap

section

variable {c : Char} {t : Token} {p x : List Char} {ls : List Lexeme}
  (skips : Lexer.skipComments (c :: (p ++ x)) = c :: (p ++ x))
  (reads : Lexer.token c (p ++ x) = (t, x))

include reads in
theorem spaces_of_reads (hc : Text.isSpace c) : t = .whitespace ∧ ∀ e ∈ p, Text.isSpace e := by
  rw [Lexer.token_of_isSpace hc, Prod.mk.injEq] at reads
  refine ⟨reads.1.symm, ?_⟩
  have hsplit := List.takeWhile_append_dropWhile (p := Text.isSpace) (l := p ++ x)
  rw [reads.2] at hsplit
  rw [← List.append_cancel_right hsplit]
  exact fun e he => List.all_eq_true.1 List.all_takeWhile e he

include skips reads

/-- A token that does not run into what stands for the lexemes after it is read again, and so are
they. -/
theorem shown_scanFrom_cons (hstands : Lexer.StandsFor t.isWord x (joined ls).toList)
    (hshown : ∀ inWord start, shown (scanFrom inWord start (joined ls).toList) = shown ls)
    (hnot : t.runsInto (c :: p) (joined ls).toList = false) (inWord : Bool) (start start' : Nat) :
    shown (scanFrom inWord start (c :: (p ++ (joined ls).toList))) =
      shown (⟨t, String.ofList (c :: p), start'⟩ :: ls) := by
  cases hc : Text.isSpace c with
  | true =>
    obtain ⟨rfl, hp⟩ := spaces_of_reads reads hc
    obtain ⟨_, h⟩ := shown_scanFrom_spaces hp hc inWord start (joined ls).toList
    rw [h, hshown, shown_space]
  | false =>
    have ht := Lexer.token_ne_whitespace hc reads
    obtain ⟨hskip, htoken⟩ := (Lexer.token_standsFor_iff hc skips reads hstands).2 hnot
    obtain ⟨_, h⟩ := shown_scanFrom_token hskip htoken ht inWord start
    rw [h, hshown, shown_token ht]

/-- A token that does not run into what stands for the lexemes after it stands for itself. -/
theorem standsFor_cons (hstands : Lexer.StandsFor t.isWord x (joined ls).toList)
    (hnot : t.runsInto (c :: p) (joined ls).toList = false) {inWord : Bool}
    {front space : List Char} (hfront : Lexer.SpaceFor inWord front space (c :: (p ++ x))) :
    Lexer.StandsFor inWord (front ++ c :: (p ++ x)) (space ++ c :: (p ++ (joined ls).toList)) := by
  cases hc : Text.isSpace c with
  | true =>
    obtain ⟨-, hp⟩ := spaces_of_reads reads hc
    refine .cons ?_ ?_ (fun hquote => ?_) hfront
    · rw [Lexer.token_of_isSpace hc, Lexer.token_of_isSpace hc]
    · rintro rfl
      cases hc
    · have hspaces : ∀ e ∈ c :: p, Text.isSpace e := List.forall_mem_cons.2 ⟨hc, hp⟩
      rw [← List.cons_append, Lexer.quoteAhead_spaces hspaces] at hquote ⊢
      exact hstands.quote hquote
  | false =>
    obtain ⟨-, htoken⟩ := (Lexer.token_standsFor_iff hc skips reads hstands).2 hnot
    refine .cons ?_ (Lexer.startsPlus_of_token reads htoken) (fun hquote => ?_) hfront
    · rw [reads, htoken]
    · rwa [Lexer.quoteAhead_of_not_isSpace hc]

end

theorem apart_gap_append (front : List Char) (inWord : Bool) (start : Nat) (s : List Char)
    (ls : List Lexeme) : apart (gap front inWord start s ++ ls) = apart ls := by
  unfold gap
  split_ifs <;> rfl

theorem apart_cons {t : Token} {c : Char} {p : List Char} {start : Nat} {ls : List Lexeme} :
    apart (⟨t, String.ofList (c :: p), start⟩ :: ls) ↔
      t.runsInto (c :: p) (joined ls).toList = false ∧ apart ls := by
  rw [apart, toList_raw_mk, Bool.and_eq_true, Bool.not_eq_true']

/-- Lexemes that are apart are read again from what stands for them. -/
theorem Scans.shown_scanFrom_joined {inWord : Bool} {s : List Char} {ls : List Lexeme}
    (h : Scans inWord s ls) (hapart : apart ls) :
    Lexer.StandsFor inWord s (joined ls).toList ∧
      ∀ inWord start, shown (scanFrom inWord start (joined ls).toList) = shown ls := by
  induction h with
  | nil skips =>
    have hjoined : (joined []).toList = [] := by simp [joined]
    rw [hjoined]
    refine ⟨Lexer.standsFor_nil skips, fun inWord start => ?_⟩
    rw [scanFrom_of_skipComments_eq_nil (Lexer.skipComments_eq_self (by simp))]
  | @cons inWord front p x c t start ls skips isComment reads rest ih =>
    rw [apart_gap_append, apart_cons] at hapart
    obtain ⟨hstands, hshown⟩ := ih hapart.2
    have hskip := Lexer.skipComments_idem (front ++ c :: (p ++ x))
    rw [skips] at hskip
    obtain ⟨space, hspace, hfront, hread⟩ := exists_space isComment inWord start (c :: (p ++ x))
    rw [joined_append, String.toList_append, hspace, toList_joined_cons]
    refine ⟨standsFor_cons hskip reads hstands hapart.1 hfront, fun inWord' start' => ?_⟩
    obtain ⟨inWord'', start'', h⟩ := hread inWord' start' (c :: (p ++ (joined ls).toList))
    rw [h, shown_scanFrom_cons hskip reads hstands hshown hapart.1 inWord'' start'' start, shown,
      shown, shown, List.flatMap_append]

theorem joined_eq_shown (ls : List Lexeme) : (joined ls).toList = (shown ls).flatMap Prod.snd := by
  induction ls with
  | nil => simp [joined, shown]
  | cons l ls ih =>
    rw [joined_cons, String.toList_append, shown_cons, List.flatMap_append, ih]
    split_ifs
    · simp [List.flatMap_map]
    · simp

/-- A text that its lexemes show as it is starts with no comment. -/
theorem skipComments_of_joined {inWord : Bool} {start : Nat} {s : List Char}
    (h : (joined (scanFrom inWord start s)).toList = s) : Lexer.skipComments s = s := by
  cases hskip : Lexer.skipComments s with
  | nil =>
    rw [scanFrom_of_skipComments_eq_nil hskip] at h
    rw [← h]
    simp [joined]
  | cons c r =>
    obtain ⟨front, source, p, start₁, start₂, hs, hsource, -, hlost, hscan⟩ :=
      @scanFrom_step inWord start _ _ _ hskip
    rcases hlost with rfl | hlost
    · exact hs.symm
    · have hweight := congrArg (weight true) h
      have hrest : weight true (written (scanFrom (Lexer.token c r).1.isWord start₂
          (Lexer.token c r).2)) ≤ weight true (Lexer.token c r).2 :=
        Source.weight_le (.inl ⟨_, _, rfl⟩) true
      have hfront := hlost true
      rw [weight_joined, hscan, written_append, written_gap, List.nil_append, written_cons,
        String.toList_ofList, weight_append, hs, weight_append, ← hsource, weight_append] at hweight
      omega

/-- Lexemes that are read again from what stands for them are apart. -/
theorem Scans.apart_of_shown {inWord : Bool} {s : List Char} {ls : List Lexeme}
    (h : Scans inWord s ls) {inWord' : Bool} {start : Nat}
    (hshown : shown (scanFrom inWord' start (joined ls).toList) = shown ls) : apart ls := by
  induction h generalizing inWord' start with
  | nil => rfl
  | @cons inWord front p x c t start₁ ls skips isComment reads rest ih =>
    have hskip := Lexer.skipComments_idem (front ++ c :: (p ++ x))
    rw [skips] at hskip
    obtain ⟨space, hspace, -, hread⟩ := exists_space isComment inWord start₁ (c :: (p ++ x))
    rw [joined_append, String.toList_append, hspace, toList_joined_cons] at hshown
    obtain ⟨inWord'', start'', h⟩ := hread inWord' start (c :: (p ++ (joined ls).toList))
    rw [h, shown, shown, shown, List.flatMap_append] at hshown
    replace hshown : shown (scanFrom inWord'' start'' (c :: (p ++ (joined ls).toList))) =
        shown (⟨t, String.ofList (c :: p), start₁⟩ :: ls) := List.append_cancel_left hshown
    rw [apart_gap_append, apart_cons]
    cases hc : Text.isSpace c with
    | true =>
      obtain ⟨rfl, hp⟩ := spaces_of_reads reads hc
      obtain ⟨_, hspaces⟩ := shown_scanFrom_spaces hp hc inWord'' start'' (joined ls).toList
      rw [hspaces, shown_space] at hshown
      exact ⟨rfl, ih (List.append_cancel_left hshown)⟩
    | false =>
      have ht := Lexer.token_ne_whitespace hc reads
      have hskip' : Lexer.skipComments (c :: (p ++ (joined ls).toList)) =
          c :: (p ++ (joined ls).toList) := by
        apply @skipComments_of_joined inWord'' start''
        rw [joined_eq_shown, hshown, ← joined_eq_shown, toList_joined_cons]
      rw [shown_token ht] at hshown
      obtain ⟨htoken, _, hmore⟩ := token_of_shown hc hskip' hshown
      have hapart := ih hmore
      have hstands := (rest.shown_scanFrom_joined hapart).1
      exact ⟨(Lexer.token_standsFor_iff hc hskip reads hstands).1 ⟨hskip', htoken⟩, hapart⟩

/-! ## The end of a text -/

theorem joined_ofText (s : String) : joined (ofText s) = joined (scan s) := by
  rw [ofText, joined_append, ← String.toList_inj]
  simp [joined, raw]

theorem shown_ofText (s : String) : shown (ofText s) = shown (scan s) ++ [(.eof, [])] := by
  rw [ofText, shown, List.flatMap_append]
  rfl

theorem apart_concat {e : Lexeme} (he : e.raw = "") (hruns : e.token.runsInto [] [] = false)
    (ls : List Lexeme) : apart (ls ++ [e]) = apart ls := by
  induction ls with
  | nil => simp [apart, he, hruns, joined]
  | cons l ls ih =>
    have hjoined : joined (ls ++ [e]) = joined ls := by
      rw [joined_append, ← String.toList_inj]
      simp [joined, he]
    rw [List.cons_append, apart, apart, ih, hjoined]

end Lexeme

/-! ## Tokens -/

namespace Token

/-- Tokens with one white space token in the place of each run of them. -/
def mergeSpace : List Token → List Token
  | [] => []
  | t :: ts =>
    if t = .whitespace ∧ ts.head? = some .whitespace then mergeSpace ts else t :: mergeSpace ts

theorem head?_mergeSpace (ts : List Token) : (mergeSpace ts).head? = ts.head? := by
  induction ts with
  | nil => rfl
  | cons t ts ih =>
    rw [mergeSpace]
    split_ifs with h
    · rw [ih, h.1, h.2, List.head?_cons]
    · rfl

theorem mergeSpace_cons {ts us : List Token} (h : mergeSpace ts = mergeSpace us) (t : Token) :
    mergeSpace (t :: ts) = mergeSpace (t :: us) := by
  rw [mergeSpace, mergeSpace, h, ← head?_mergeSpace ts, ← head?_mergeSpace us, h]

/-- White space characters make one token. -/
theorem mergeSpace_spaces {α : Type} (cs : List α) (ts : List Token) :
    mergeSpace (.whitespace :: (cs.map fun _ => .whitespace) ++ ts) =
      mergeSpace (.whitespace :: ts) := by
  induction cs with
  | nil => rfl
  | cons c cs ih =>
    rw [List.map_cons, List.cons_append, List.cons_append, mergeSpace,
      if_pos ⟨rfl, List.head?_cons⟩]
    exact ih

end Token

namespace Lexeme

open Token

theorem mergeSpace_shown (ls : List Lexeme) :
    mergeSpace ((shown ls).map Prod.fst) = mergeSpace (ls.map token) := by
  induction ls with
  | nil => rfl
  | cons l ls ih =>
    rw [shown_cons, List.map_append, List.map_cons]
    split_ifs with hspace
    · have hl : l.token = .whitespace := by simpa [isSpace] using hspace
      obtain ⟨c, cs, hraw⟩ : ∃ c cs, l.raw.toList = c :: cs := by
        apply List.exists_cons_of_ne_nil
        rw [Ne, String.toList_eq_nil_iff, raw]
        split_ifs with hempty
        · decide
        · exact fun hsource => hempty ⟨hl, hsource⟩
      rw [hraw, List.map_map, hl]
      exact (mergeSpace_spaces cs _).trans (mergeSpace_cons ih _)
    · exact mergeSpace_cons ih _

/-- A text is read again from its lexemes if and only if no token runs into what stands for the
tokens after it; then it has the same tokens without its comments. -/
theorem tokens_joined (s : String) :
    (shown (ofText (joined (ofText s))) = shown (ofText s) ↔ apart (ofText s)) ∧
      (apart (ofText s) → mergeSpace ((ofText (joined (ofText s))).map token) =
        mergeSpace ((ofText s).map token)) := by
  have hscans := scans_scanFrom false 0 s.toList
  have happart : apart (ofText s) = apart (scan s) := apart_concat rfl rfl _
  have hiff : shown (ofText (joined (ofText s))) = shown (ofText s) ↔ apart (ofText s) := by
    rw [happart, joined_ofText, shown_ofText, shown_ofText, List.append_left_inj]
    exact ⟨hscans.apart_of_shown, fun h => (hscans.shown_scanFrom_joined h).2 false 0⟩
  refine ⟨hiff, fun h => ?_⟩
  rw [← mergeSpace_shown, hiff.2 h, mergeSpace_shown]

/-- A space stands for the comment between two words, and nothing for the one before a comma. -/
theorem tokens_joined_words :
    joined (ofText "12px/**/Arial/**/,b") = "12px Arial,b" ∧ apart (ofText "12px/**/Arial/**/,b") ∧
      mergeSpace ((ofText (joined (ofText "12px/**/Arial/**/,b"))).map token) =
        mergeSpace ((ofText "12px/**/Arial/**/,b").map token) :=
  have happart : apart (ofText "12px/**/Arial/**/,b") := by decide +kernel
  ⟨by decide +kernel, happart, (tokens_joined _).2 happart⟩

/-- A comment after a `#` is all that keeps it from being a hash. -/
theorem tokens_joined_hash :
    mergeSpace ((ofText (joined (ofText "#/**/abc"))).map token) ≠
      mergeSpace ((ofText "#/**/abc").map token) := by
  decide +kernel

end Lexeme

end Restyle.Css
