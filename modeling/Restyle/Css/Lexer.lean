import Restyle.Css.Numeral
import Restyle.Css.Token

/-!
# Reading tokens

`Lexeme.scan` reads a text into its lexemes and `Lexeme.ofText` adds the mark of the end. Every
reader takes the characters that remain and returns what it read with the characters after it,
always an end piece of what it was given (`token_suffix`). Comments are skipped; one that keeps two
words apart leaves white space without source text.
-/

namespace Restyle.Css.Lexer

open Text

/-- Characters that can start an identifier. -/
def isNameStart (c : Char) : Bool :=
  c.isAlpha || c == '_' || 128 ≤ c.toNat

/-- Characters that can continue an identifier. -/
def isNameChar (c : Char) : Bool :=
  isNameStart c || c.isDigit || c == '-'

/-- Whether a backslash with this text after it is an escape: it is not one before a line feed. -/
def escapes : List Char → Bool
  | '\n' :: _ => false
  | _ => true

/-- Whether a text starts with an identifier once a hyphen has been read. -/
def startsAfterHyphen : List Char → Bool
  | c :: r => isNameStart c || c == '-' || (c == '\\' && escapes r)
  | [] => false

/-- Whether a text starts with an identifier. -/
def startsName : List Char → Bool
  | '-' :: r => startsAfterHyphen r
  | '\\' :: r => escapes r
  | c :: _ => isNameStart c
  | [] => false

/-- Drops one white space character off the front. -/
def dropSpace : List Char → List Char
  | c :: r => if isSpace c then r else c :: r
  | [] => []

/-- The character that an escape stands for, read after its backslash. Up to six hexadecimal digits
name a code point and take one white space character with them; any other character is itself. -/
def escape : List Char → Char × List Char
  | [] => ('\uFFFD', [])
  | c :: r =>
    if isHexDigit c then
      let more := (r.take 5).takeWhile isHexDigit
      (scalar (numberOf 16 (c :: more)), dropSpace (r.drop more.length))
    else (c, r)

theorem dropSpace_suffix (s : List Char) : dropSpace s <:+ s := by
  unfold dropSpace
  split
  · split
    · exact List.suffix_cons _ _
    · exact List.suffix_refl _
  · exact List.suffix_refl _

theorem escape_suffix (s : List Char) : (escape s).2 <:+ s := by
  unfold escape
  split
  · exact List.suffix_refl _
  · split
    · exact (dropSpace_suffix _).trans ((List.drop_suffix _ _).trans (List.suffix_cons _ _))
    · exact List.suffix_cons _ _

/-- Name characters and escapes, as many as there are. -/
def name (s : List Char) : List Char × List Char :=
  match s with
  | [] => ([], [])
  | c :: r =>
    if isNameChar c then
      let (n, rest) := name r
      (c :: n, rest)
    else if c = '\\' ∧ escapes r then
      have := (escape_suffix r).length_le
      let (n, rest) := name (escape r).2
      ((escape r).1 :: n, rest)
    else ([], c :: r)
termination_by s.length
decreasing_by all_goals simp only [List.length_cons]; omega

/-- The inside of a string up to its closing quote, or `none` where a line feed breaks it off. -/
def string (quote : Char) (s : List Char) : Option (List Char) × List Char :=
  match s with
  | [] => (some [], [])
  | c :: r =>
    if c = quote then (some [], r)
    else if c = '\n' then (none, c :: r)
    else if c = '\\' then
      match r with
      | [] => (some [], [])
      | '\n' :: r' => string quote r'
      | e :: r' =>
        have := (escape_suffix (e :: r')).length_le
        let (v, rest) := string quote (escape (e :: r')).2
        (v.map ((escape (e :: r')).1 :: ·), rest)
    else
      let (v, rest) := string quote r
      (v.map (c :: ·), rest)
termination_by s.length
decreasing_by all_goals simp_all only [List.length_cons]; omega

/-- What is left after the rest of a malformed address, its closing parenthesis included. -/
def badUrlRest (s : List Char) : List Char :=
  match s with
  | [] => []
  | c :: r =>
    if c = ')' then r
    else if c = '\\' ∧ escapes r then
      have := (escape_suffix r).length_le
      badUrlRest (escape r).2
    else badUrlRest r
termination_by s.length
decreasing_by all_goals simp only [List.length_cons]; omega

/-- The inside of an unquoted address up to its closing parenthesis, or `none` if it is
malformed. -/
def url (s : List Char) : Option (List Char) × List Char :=
  match s with
  | [] => (some [], [])
  | c :: r =>
    if c = ')' then (some [], r)
    else if isSpace c then
      match r.dropWhile isSpace with
      | [] => (some [], [])
      | d :: r' => if d = ')' then (some [], r') else (none, badUrlRest (d :: r'))
    else if c = '"' ∨ c = '\'' ∨ c = '(' then (none, badUrlRest r)
    else if c = '\\' then
      if escapes r then
        have := (escape_suffix r).length_le
        let (v, rest) := url (escape r).2
        (v.map ((escape r).1 :: ·), rest)
      else (none, badUrlRest r)
    else
      let (v, rest) := url r
      (v.map (c :: ·), rest)
termination_by s.length
decreasing_by all_goals simp only [List.length_cons]; omega

/-- Whether a quote comes next, white space aside. -/
def quoteAhead (s : List Char) : Bool :=
  match s.dropWhile isSpace with
  | c :: _ => c == '"' || c == '\''
  | [] => false

/-- A token that starts with a name: an identifier, a function, or an unquoted address. -/
def nameToken (s : List Char) : Token × List Char :=
  let (n, rest) := name s
  match rest with
  | '(' :: r =>
    if sameLetters (String.ofList n) "url" && !quoteAhead r then
      match url (r.dropWhile isSpace) with
      | (some v, rest) => (.url (String.ofList v), rest)
      | (none, rest) => (.badUrl, rest)
    else (.function (String.ofList n), r)
  | rest => (.ident (String.ofList n), rest)

/-- A token that starts with a numeral: a dimension, a percentage or a plain number. -/
def numberToken (s : List Char) : Token × List Char :=
  let (n, rest) := Numeral.read s
  if startsName rest then
    let (unit, rest) := name rest
    (.dimension n.value (String.ofList unit), rest)
  else
    match rest with
    | '%' :: r => (.percentage n.value, r)
    | rest => (.number n.value n.isWhole, rest)

/-- The token after an opening quote. -/
def stringToken (quote : Char) (s : List Char) : Token × List Char :=
  match string quote s with
  | (some v, rest) => (.string (String.ofList v), rest)
  | (none, rest) => (.badString, rest)

/-- Whether a text starts with a name character or an escape. -/
def continuesName : List Char → Bool
  | '\\' :: r => escapes r
  | c :: _ => isNameChar c
  | [] => false

/-- The token after a `#`. -/
def hashToken (s : List Char) : Token × List Char :=
  if continuesName s then
    let (n, rest) := name s
    (.hash (String.ofList n) (if startsName s then .id else .unrestricted), rest)
  else (.delim '#', s)

/-- The token after an `@`. -/
def atToken (s : List Char) : Token × List Char :=
  if startsName s then
    let (n, rest) := name s
    (.atKeyword (String.ofList n), rest)
  else (.delim '@', s)

/-- The token after a hyphen. -/
def hyphenToken (s : List Char) : Token × List Char :=
  if Numeral.startsUnsigned s then numberToken ('-' :: s)
  else
    match s with
    | '-' :: '>' :: r => (.cdc, r)
    | s => if startsAfterHyphen s then nameToken ('-' :: s) else (.delim '-', s)

/-- The token after a `<`. -/
def lessToken : List Char → Token × List Char
  | '!' :: '-' :: '-' :: r => (.cdo, r)
  | s => (.delim '<', s)

/-- The token that starts with the character `c`, with the text `r` after it. -/
def token (c : Char) (r : List Char) : Token × List Char :=
  if isSpace c then (.whitespace, r.dropWhile isSpace)
  else
    match c with
    | '"' => stringToken '"' r
    | '\'' => stringToken '\'' r
    | '#' => hashToken r
    | '(' => (.leftParen, r)
    | ')' => (.rightParen, r)
    | '[' => (.leftBracket, r)
    | ']' => (.rightBracket, r)
    | '\x7b' => (.leftBrace, r)
    | '\x7d' => (.rightBrace, r)
    | ',' => (.comma, r)
    | ':' => (.colon, r)
    | ';' => (.semicolon, r)
    | '+' => if Numeral.startsUnsigned r then numberToken ('+' :: r) else (.delim '+', r)
    | '-' => hyphenToken r
    | '.' => if Numeral.startsDigit r then numberToken ('.' :: r) else (.delim '.', r)
    | '<' => lessToken r
    | '@' => atToken r
    | '\\' => if escapes r then nameToken ('\\' :: r) else (.delim '\\', r)
    | c =>
      if c.isDigit then numberToken (c :: r)
      else if isNameStart c then nameToken (c :: r)
      else (.delim c, r)

/-- What is left after the inside of a comment and the mark that ends it. -/
def commentRest : List Char → List Char
  | '*' :: '/' :: r => r
  | _ :: r => commentRest r
  | [] => []

theorem commentRest_suffix (s : List Char) : commentRest s <:+ s := by
  induction s using commentRest.induct with
  | case1 r => exact ⟨['*', '/'], rfl⟩
  | case2 c r h ih =>
    rw [commentRest.eq_2 c r h]
    exact ih.trans (List.suffix_cons _ _)
  | case3 => exact List.suffix_refl _

/-- Drops the comments at the front. -/
def skipComments (s : List Char) : List Char :=
  match s with
  | '/' :: '*' :: r =>
    have := (commentRest_suffix r).length_le
    skipComments (commentRest r)
  | s => s
termination_by s.length
decreasing_by simp only [List.length_cons]; omega

/-- Whether a text would run into a word right before it. -/
def extendsWord : List Char → Bool
  | c :: r =>
    if c = '.' ∨ c = '+' then Numeral.startsUnsigned r
    else isNameChar c || c == '\\' || c == '(' || c == '%'
  | [] => false

/-! ## Every reader returns an end piece of what it was given -/

theorem name_suffix (s : List Char) : (name s).2 <:+ s := by
  fun_induction name s with
  | case1 => exact List.suffix_refl _
  | case2 c r _ n rest _ ih => simp_all only; exact ih.trans (List.suffix_cons _ _)
  | case3 c r _ _ _ n rest _ ih =>
    simp_all only
    exact ih.trans ((escape_suffix r).trans (List.suffix_cons _ _))
  | case4 => exact List.suffix_refl _

/-- A name that starts a text is taken off it, so the rest is an end piece of the tail. -/
theorem name_cons_suffix {c : Char} {r : List Char} (h : isNameChar c ∨ c = '\\' ∧ escapes r) :
    (name (c :: r)).2 <:+ r := by
  rw [name]
  split
  · exact name_suffix r
  · rw [if_pos (h.resolve_left ‹_›)]
    exact (name_suffix _).trans (escape_suffix r)

theorem string_suffix (quote : Char) (s : List Char) : (string quote s).2 <:+ s := by
  fun_induction string quote s with
  | case1 => exact List.suffix_refl _
  | case2 => exact List.suffix_cons _ _
  | case3 => exact List.suffix_refl _
  | case4 => exact List.nil_suffix
  | case5 _ _ r' ih => exact ih.trans ⟨['\\', '\n'], rfl⟩
  | case6 _ _ e r' _ _ v rest _ ih =>
    simp_all only
    exact ih.trans ((escape_suffix _).trans (List.suffix_cons _ _))
  | case7 _ _ _ _ _ v rest _ ih => simp_all only; exact ih.trans (List.suffix_cons _ _)

theorem badUrlRest_suffix (s : List Char) : badUrlRest s <:+ s := by
  fun_induction badUrlRest s with
  | case1 => exact List.suffix_refl _
  | case2 => exact List.suffix_cons _ _
  | case3 c r _ _ _ ih => exact ih.trans ((escape_suffix r).trans (List.suffix_cons _ _))
  | case4 _ _ _ _ ih => exact ih.trans (List.suffix_cons _ _)

theorem url_suffix (s : List Char) : (url s).2 <:+ s := by
  fun_induction url s with
  | case1 => exact List.suffix_refl _
  | case2 => exact List.suffix_cons _ _
  | case3 => exact List.nil_suffix
  | case4 c r _ _ r' h =>
    have := List.dropWhile_suffix (l := r) isSpace
    rw [h] at this
    exact (List.suffix_cons _ _).trans (this.trans (List.suffix_cons _ _))
  | case5 c r _ _ d r' h =>
    have := List.dropWhile_suffix (l := r) isSpace
    rw [h] at this
    exact (badUrlRest_suffix _).trans (this.trans (List.suffix_cons _ _))
  | case6 => exact (badUrlRest_suffix _).trans (List.suffix_cons _ _)
  | case7 _ _ _ _ _ _ v rest _ ih =>
    simp_all only
    exact ih.trans ((escape_suffix _).trans (List.suffix_cons _ _))
  | case8 => exact (badUrlRest_suffix _).trans (List.suffix_cons _ _)
  | case9 _ _ _ _ _ _ v rest _ ih => simp_all only; exact ih.trans (List.suffix_cons _ _)

theorem nameToken_suffix (s : List Char) : (nameToken s).2 <:+ (name s).2 := by
  unfold nameToken
  generalize name s = p
  obtain ⟨n, rest⟩ := p
  dsimp only
  split
  · rename_i r
    split
    · have h := url_suffix (r.dropWhile isSpace)
      split <;> rename_i heq <;> rw [heq] at h <;>
        exact h.trans ((List.dropWhile_suffix _).trans (List.suffix_cons _ _))
    · exact List.suffix_cons _ _
  · exact List.suffix_refl _

theorem numberToken_suffix (s : List Char) : (numberToken s).2 <:+ (Numeral.read s).2 := by
  unfold numberToken
  generalize Numeral.read s = p
  obtain ⟨n, rest⟩ := p
  dsimp only
  split
  · exact name_suffix rest
  · split
    · exact List.suffix_cons _ _
    · exact List.suffix_refl _

theorem stringToken_suffix (quote : Char) (s : List Char) : (stringToken quote s).2 <:+ s := by
  have h := string_suffix quote s
  unfold stringToken
  split <;> rename_i heq <;> rw [heq] at h <;> exact h

theorem hashToken_suffix (s : List Char) : (hashToken s).2 <:+ s := by
  unfold hashToken
  split
  · exact name_suffix s
  · exact List.suffix_refl _

theorem atToken_suffix (s : List Char) : (atToken s).2 <:+ s := by
  unfold atToken
  split
  · exact name_suffix s
  · exact List.suffix_refl _

/-- A numeral that starts a text is taken off it, so the rest is an end piece of the tail. -/
theorem numberToken_cons_suffix {c : Char} {r : List Char} (h : Numeral.starts (c :: r)) :
    (numberToken (c :: r)).2 <:+ r :=
  (numberToken_suffix _).trans (Numeral.read_suffix h)

/-- A name that starts a text is taken off it, so the rest is an end piece of the tail. -/
theorem nameToken_cons_suffix {c : Char} {r : List Char} (h : isNameChar c ∨ c = '\\' ∧ escapes r) :
    (nameToken (c :: r)).2 <:+ r :=
  (nameToken_suffix _).trans (name_cons_suffix h)

theorem hyphenToken_suffix (s : List Char) : (hyphenToken s).2 <:+ s := by
  unfold hyphenToken
  split
  · exact numberToken_cons_suffix (by simpa [Numeral.starts, Numeral.readSign])
  · split
    · exact ⟨['-', '>'], rfl⟩
    · split
      · exact nameToken_cons_suffix (.inl (by decide))
      · exact List.suffix_refl _

theorem lessToken_suffix (s : List Char) : (lessToken s).2 <:+ s := by
  unfold lessToken
  split
  · exact ⟨['!', '-', '-'], rfl⟩
  · exact List.suffix_refl _

theorem isNameChar_of_isNameStart {c : Char} (h : isNameStart c) : isNameChar c := by
  simp [isNameChar, h]

/-- Reading a token leaves an end piece of what comes after its first character. -/
theorem token_suffix (c : Char) (r : List Char) : (token c r).2 <:+ r := by
  unfold token
  split
  · exact List.dropWhile_suffix _
  · split
    case h_1 => exact stringToken_suffix _ _
    case h_2 => exact stringToken_suffix _ _
    case h_3 => exact hashToken_suffix _
    case h_13 =>
      split
      · exact numberToken_cons_suffix (by simpa [Numeral.starts, Numeral.readSign])
      · exact List.suffix_refl _
    case h_14 => exact hyphenToken_suffix _
    case h_15 =>
      split
      · exact numberToken_cons_suffix
          (by simpa [Numeral.starts, Numeral.readSign, Numeral.startsUnsigned])
      · exact List.suffix_refl _
    case h_16 => exact lessToken_suffix _
    case h_17 => exact atToken_suffix _
    case h_18 =>
      split
      · rename_i h
        exact nameToken_cons_suffix (.inr ⟨rfl, h⟩)
      · exact List.suffix_refl _
    case h_19 =>
      split
      · rename_i h
        exact numberToken_cons_suffix (Numeral.starts_of_isDigit h)
      · split
        · rename_i h
          exact nameToken_cons_suffix (.inl (isNameChar_of_isNameStart h))
        · exact List.suffix_refl _
    all_goals exact List.suffix_refl _

theorem skipComments_suffix (s : List Char) : skipComments s <:+ s := by
  fun_induction skipComments s with
  | case1 r _ ih => exact ih.trans ((commentRest_suffix r).trans ⟨['/', '*'], rfl⟩)
  | case2 => exact List.suffix_refl _

end Lexer

namespace Lexeme

open Lexer

/-- The lexemes of a text whose first character is at byte `start`; `inWord` says that a word ends
right before it. -/
def scanFrom (inWord : Bool) (start : Nat) (s : List Char) : List Lexeme :=
  match h : skipComments s with
  | [] => []
  | c :: r =>
    have := h ▸ (skipComments_suffix s).length_le
    have := (token_suffix c r).length_le
    let comments := s.take (s.length - (c :: r).length)
    let start := start + Text.byteSize comments
    let next := Lexer.token c r
    let source := (c :: r).take ((c :: r).length - next.2.length)
    let lexemes :=
      ⟨next.1, String.ofList source, start⟩ ::
        scanFrom next.1.isWord (start + Text.byteSize source) next.2
    -- A comment that keeps two words apart stays behind as white space.
    if !comments.isEmpty && inWord && extendsWord (c :: r) then ⟨.whitespace, "", start⟩ :: lexemes
    else lexemes
termination_by s.length
decreasing_by simp_all only [List.length_cons]; omega

/-- The lexemes of a text, without the mark of its end. -/
def scan (s : String) : List Lexeme :=
  scanFrom false 0 s.toList

/-- The lexemes of a text, and the mark of its end. -/
def ofText (s : String) : List Lexeme :=
  scan s ++ [⟨.eof, "", Text.bytes s⟩]

end Lexeme

end Restyle.Css
