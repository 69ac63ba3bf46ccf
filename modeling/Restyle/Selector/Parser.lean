import Restyle.Css.Lexer
import Restyle.Selector.Basic

/-!
# Reading selectors

`Selector.parse` splits a text at its commas and reads each entry on its own. The readers take the
characters that remain and return what they read with the characters after it; those that call each
other return it together with the fact that fewer remain. They are given the size of the entry,
from which the place of an unexpected character is counted.
-/

namespace Restyle.Selector

open Text Css.Lexer

/-! ## Entries -/

/-- Where a text stands between commas. -/
structure EntryState where
  /-- The number of open groups. -/
  depth : Nat
  /-- The quote of the string that is open. -/
  quote : Option Char
  /-- Whether the next character stands after a backslash. -/
  isEscaped : Bool
deriving DecidableEq, Repr

namespace EntryState

/-- The state at the start. -/
def start : EntryState :=
  ⟨0, none, false⟩

/-- Whether this character ends an entry. -/
def separates (st : EntryState) (c : Char) : Bool :=
  !st.isEscaped && st.quote.isNone && st.depth == 0 && c == ','

/-- The state after a character. -/
def next (st : EntryState) (c : Char) : EntryState :=
  if st.isEscaped then { st with isEscaped := false }
  else if c = '\\' then { st with isEscaped := true }
  else
    match st.quote with
    | some q => if c = q then { st with quote := none } else st
    | none =>
      if c = '"' ∨ c = '\'' then { st with quote := some c }
      else if c = '(' ∨ c = '[' then { st with depth := st.depth + 1 }
      else if c = ')' ∨ c = ']' then { st with depth := st.depth - 1 }
      else st

end EntryState

/-- Puts a character in front of the first entry. -/
def consFirst (c : Char) : List (List Char) → List (List Char)
  | [] => [[c]]
  | entry :: entries => (c :: entry) :: entries

/-- The entries of a list, separated by commas outside of strings and groups. -/
def entriesFrom (st : EntryState) : List Char → List (List Char)
  | [] => [[]]
  | c :: r =>
    if st.separates c then [] :: entriesFrom (st.next c) r
    else consFirst c (entriesFrom (st.next c) r)

/-! ## Names and strings -/

/-- The text without white space at its front. -/
def skipSpace (s : List Char) : List Char :=
  s.dropWhile isSpace

/-- The error about the first of the remaining characters of an entry of the given size. -/
def unexpected (size : Nat) : List Char → Error
  | [] => .unexpectedEnd
  | c :: r => .unexpectedChar c (size - byteSize (c :: r))

/-- The characters of a name. A backslash makes the next character part of it. -/
def nameChars : List Char → Except Error (List Char × List Char)
  | [] => .ok ([], [])
  | ['\\'] => .error .unexpectedEnd
  | '\\' :: c :: r => do
    let (name, rest) ← nameChars r
    return (c :: name, rest)
  | c :: r =>
    if isNameChar c then do
      let (name, rest) ← nameChars r
      return (c :: name, rest)
    else .ok ([], c :: r)

/-- Reads a name, which is not empty. -/
def name (size : Nat) (s : List Char) : Except Error (String × List Char) := do
  let (name, rest) ← nameChars s
  if name.isEmpty then .error (unexpected size s) else return (String.ofList name, rest)

/-- Whether a name is a hyphen that starts no identifier. -/
def isBareHyphen (s : String) : Bool :=
  match s.toList with
  | ['-'] => true
  | '-' :: c :: _ => c.isDigit
  | _ => false

/-- Whether a text starts like an identifier. -/
def startsIdent : List Char → Bool
  | c :: _ => isNameStart c || c == '\\' || c == '-'
  | [] => false

/-- Reads an identifier. -/
def ident (size : Nat) (s : List Char) : Except Error (String × List Char) :=
  if startsIdent s then do
    let (n, rest) ← name size s
    if isBareHyphen n then .error (.invalidIdentifier n) else return (n, rest)
  else .error (unexpected size s)

/-- The characters of a string up to its closing quote. -/
def stringChars (quote : Char) : List Char → Except Error (List Char × List Char)
  | [] => .error .unexpectedEnd
  | ['\\'] => .error .unexpectedEnd
  | '\\' :: c :: r => do
    let (value, rest) ← stringChars quote r
    return (c :: value, rest)
  | c :: r =>
    if c = quote then .ok ([], r)
    else do
      let (value, rest) ← stringChars quote r
      return (c :: value, rest)

/-! ## Attributes -/

/-- Reads a character that has to come next. -/
def expect (size : Nat) (expected : Char) (s : List Char) : Except Error (List Char) :=
  match s with
  | c :: r => if c = expected then .ok r else .error (unexpected size s)
  | [] => .error (unexpected size s)

/-- The operator that a character starts, with the text after the whole operator. -/
def operator (size : Nat) (s : List Char) : Except Error (AttributeOperator × List Char) :=
  match s with
  | ']' :: _ => .ok (.present, s)
  | '=' :: r => .ok (.equals, r)
  | '~' :: r => do return (.includes, ← expect size '=' r)
  | '|' :: r => do return (.dashMatch, ← expect size '=' r)
  | '^' :: r => do return (.startsWith, ← expect size '=' r)
  | '$' :: r => do return (.endsWith, ← expect size '=' r)
  | '*' :: r => do return (.contains, ← expect size '=' r)
  | s => .error (unexpected size s)

/-- Reads a value: a string or an identifier. -/
def attributeValue (size : Nat) (s : List Char) : Except Error (String × List Char) :=
  match s with
  | c :: r =>
    if c = '"' ∨ c = '\'' then do
      let (value, rest) ← stringChars c r
      return (String.ofList value, rest)
    else ident size s
  | [] => ident size s

/-- Reads the flag for the case of letters, which may be missing. -/
def caseFlag (size : Nat) (s : List Char) : Except Error (Bool × List Char) :=
  match s with
  | 'i' :: r | 'I' :: r => .ok (true, skipSpace r)
  | 's' :: r | 'S' :: r => .ok (false, skipSpace r)
  | ']' :: _ | [] => .ok (false, s)
  | s => .error (unexpected size s)

/-- Reads a condition on an attribute after its opening bracket. -/
def attributeTest (size : Nat) (s : List Char) : Except Error (AttributeTest × List Char) := do
  let (n, r) ← ident size (skipSpace s)
  let (op, r) ← operator size (skipSpace r)
  if op = .present then
    return (⟨lower n, op, "", false⟩, ← expect size ']' r)
  else
    let (value, r) ← attributeValue size (skipSpace r)
    let (ignoresCase, r) ← caseFlag size (skipSpace r)
    return (⟨lower n, op, value, ignoresCase⟩, ← expect size ']' r)

/-! ## Conditions after a colon -/

/-- Conditions that depend on what people do. -/
def dynamicPseudoClasses : List String :=
  ["active", "focus", "focus-visible", "focus-within", "hover", "target", "visited"]

/-- Parts of elements that may be written with one colon. -/
def legacyPseudoElements : List String :=
  ["after", "before", "first-letter", "first-line"]

/-- The condition with the given name. -/
def PseudoClass.ofName : String → Except Error PseudoClass
  | "root" => .ok .root
  | "first-child" => .ok .firstChild
  | "last-child" => .ok .lastChild
  | "first-of-type" => .ok .firstOfType
  | "last-of-type" => .ok .lastOfType
  | "only-child" => .ok .onlyChild
  | "empty" => .ok .empty
  | "link" | "any-link" => .ok .link
  | "enabled" => .ok .enabled
  | "disabled" => .ok .disabled
  | "checked" => .ok .checked
  | n =>
    if legacyPseudoElements.contains n then .error (.pseudoElement n)
    else if dynamicPseudoClasses.contains n then .error (.dynamicPseudoClass n)
    else .error (.unsupportedPseudoClass n)

/-- What a reader finds at the front of a text: a condition, or the start of a negation. -/
inductive Piece where
  /-- A condition that is complete. -/
  | simple (x : Simple)
  /-- The start of a negation up to its opening parenthesis. -/
  | negation

/-- Reads what follows a colon. -/
def pseudo (size : Nat) (s : List Char) : Except Error (Piece × List Char) :=
  match s with
  | ':' :: r => do
    let (n, _) ← ident size r
    .error (.pseudoElement n)
  | s => do
    let (n, r) ← ident size s
    match r with
    | '(' :: r =>
      if lower n = "not" then return (.negation, r)
      else .error (.unsupportedPseudoClass (lower n ++ "()"))
    | r => return (.simple (.pseudo (← PseudoClass.ofName (lower n))), r)

/-- Reads a condition by its first character; `none` if there is none. -/
def piece? (size : Nat) (s : List Char) : Except Error (Option (Piece × List Char)) :=
  match s with
  | '.' :: r => do
    let (n, r) ← ident size r
    return some (.simple (.className n), r)
  | '#' :: r => do
    let (n, r) ← name size r
    return some (.simple (.id n), r)
  | '[' :: r => do
    let (test, r) ← attributeTest size r
    return some (.simple (.attributeTest test), r)
  | ':' :: r => some <$> pseudo size r
  | _ => return none

/-- Reads the condition on the tag that a compound may start with. -/
def tagPart (size : Nat) (s : List Char) : Except Error (List Simple × List Char) :=
  match s with
  | '*' :: r => .ok ([.universal], r)
  | s =>
    if startsIdent s then do
      let (n, r) ← ident size s
      return ([.type (lower n)], r)
    else .ok ([], s)

/-! ## Every reader takes a character -/

theorem length_skipSpace_le (s : List Char) : (skipSpace s).length ≤ s.length :=
  (List.dropWhile_suffix _).length_le

theorem exists_of_bind_eq_ok {ε α β : Type} {x : Except ε α} {f : α → Except ε β} {b : β}
    (h : x >>= f = .ok b) : ∃ a, x = .ok a ∧ f a = .ok b := by
  cases x with
  | error e => cases h
  | ok a => exact ⟨a, rfl, h⟩

theorem length_of_nameChars {s n rest : List Char} (h : nameChars s = .ok (n, rest)) :
    n.length + rest.length ≤ s.length := by
  fun_induction nameChars s generalizing n rest with
  | case1 => cases h; simp
  | case2 => cases h
  | case3 c r ih =>
    obtain ⟨⟨n, rest⟩, hr, h⟩ := exists_of_bind_eq_ok h
    cases h
    have := ih hr
    simp only [List.length_cons]
    omega
  | case4 c r _ _ _ ih =>
    obtain ⟨⟨n, rest⟩, hr, h⟩ := exists_of_bind_eq_ok h
    cases h
    have := ih hr
    simp only [List.length_cons]
    omega
  | case5 => cases h; simp

theorem length_of_name {size : Nat} {s rest : List Char} {n : String}
    (h : name size s = .ok (n, rest)) : rest.length < s.length := by
  obtain ⟨⟨cs, r⟩, hr, h⟩ := exists_of_bind_eq_ok h
  dsimp only at h
  split at h
  · cases h
  · cases h
    have := length_of_nameChars hr
    have : 0 < cs.length := List.length_pos_iff.2 (by simpa using ‹¬cs.isEmpty›)
    omega

theorem length_of_ident {size : Nat} {s rest : List Char} {n : String}
    (h : ident size s = .ok (n, rest)) : rest.length < s.length := by
  unfold ident at h
  split at h
  · obtain ⟨⟨n, r⟩, hr, h⟩ := exists_of_bind_eq_ok h
    dsimp only at h
    split at h
    · cases h
    · cases h
      exact length_of_name hr
  · cases h

theorem length_of_stringChars {quote : Char} {s value rest : List Char}
    (h : stringChars quote s = .ok (value, rest)) : rest.length < s.length := by
  fun_induction stringChars quote s generalizing value rest with
  | case1 => cases h
  | case2 => cases h
  | case3 c r ih =>
    obtain ⟨⟨value, rest⟩, hr, h⟩ := exists_of_bind_eq_ok h
    cases h
    have := ih hr
    simp only [List.length_cons]
    omega
  | case4 => cases h; simp
  | case5 c r _ _ _ ih =>
    obtain ⟨⟨value, rest⟩, hr, h⟩ := exists_of_bind_eq_ok h
    cases h
    have := ih hr
    simp only [List.length_cons]
    omega

theorem length_of_expect {size : Nat} {c : Char} {s rest : List Char}
    (h : expect size c s = .ok rest) : rest.length < s.length := by
  unfold expect at h
  split at h
  · split at h
    · cases h; simp
    · cases h
  · cases h

theorem length_of_operator {size : Nat} {s rest : List Char} {op : AttributeOperator}
    (h : operator size s = .ok (op, rest)) : rest.length ≤ s.length := by
  unfold operator at h
  split at h
  · cases h; exact Nat.le_refl _
  · cases h; simp
  all_goals
    first
      | cases h
      | (obtain ⟨r, hr, h⟩ := exists_of_bind_eq_ok h
         cases h
         have := length_of_expect hr
         simp only [List.length_cons]
         omega)

theorem length_of_attributeValue {size : Nat} {s rest : List Char} {value : String}
    (h : attributeValue size s = .ok (value, rest)) : rest.length < s.length := by
  unfold attributeValue at h
  split at h
  · split at h
    · obtain ⟨⟨value, rest⟩, hr, h⟩ := exists_of_bind_eq_ok h
      cases h
      have := length_of_stringChars hr
      simp only [List.length_cons]
      omega
    · exact length_of_ident h
  · exact length_of_ident h

theorem length_of_caseFlag {size : Nat} {s rest : List Char} {flag : Bool}
    (h : caseFlag size s = .ok (flag, rest)) : rest.length ≤ s.length := by
  unfold caseFlag at h
  split at h
  all_goals
    cases h
    try exact Nat.le_succ_of_le (length_skipSpace_le _)
    try exact Nat.le_refl _

theorem length_of_attributeTest {size : Nat} {s rest : List Char} {test : AttributeTest}
    (h : attributeTest size s = .ok (test, rest)) : rest.length < s.length := by
  obtain ⟨⟨n, r₁⟩, h₁, h⟩ := exists_of_bind_eq_ok h
  obtain ⟨⟨op, r₂⟩, h₂, h⟩ := exists_of_bind_eq_ok h
  have l₁ := length_of_ident h₁
  have l₂ := length_of_operator h₂
  have s₀ := length_skipSpace_le s
  have s₁ := length_skipSpace_le r₁
  dsimp only at h
  split at h
  · obtain ⟨r₃, h₃, h⟩ := exists_of_bind_eq_ok h
    cases h
    have l₃ := length_of_expect h₃
    omega
  · obtain ⟨⟨value, r₃⟩, h₃, h⟩ := exists_of_bind_eq_ok h
    obtain ⟨⟨flag, r₄⟩, h₄, h⟩ := exists_of_bind_eq_ok h
    obtain ⟨r₅, h₅, h⟩ := exists_of_bind_eq_ok h
    cases h
    have l₃ := length_of_attributeValue h₃
    have l₄ := length_of_caseFlag h₄
    have l₅ := length_of_expect h₅
    have s₂ := length_skipSpace_le r₂
    have s₃ := length_skipSpace_le r₃
    dsimp only at *
    omega

theorem length_of_pseudo {size : Nat} {s rest : List Char} {p : Piece}
    (h : pseudo size s = .ok (p, rest)) : rest.length < s.length := by
  unfold pseudo at h
  split at h
  · obtain ⟨_, _, h⟩ := exists_of_bind_eq_ok h
    cases h
  · obtain ⟨⟨n, r⟩, hr, h⟩ := exists_of_bind_eq_ok h
    have l := length_of_ident hr
    dsimp only at h
    split at h
    · simp only [List.length_cons] at l
      split at h
      · cases h; omega
      · cases h
    · obtain ⟨c, _, h⟩ := exists_of_bind_eq_ok h
      cases h
      exact l

theorem length_of_piece? {size : Nat} {s rest : List Char} {p : Piece}
    (h : piece? size s = .ok (some (p, rest))) : rest.length < s.length := by
  unfold piece? at h
  split at h
  · obtain ⟨⟨n, r⟩, hr, h⟩ := exists_of_bind_eq_ok h
    cases h
    exact Nat.lt_succ_of_lt (length_of_ident hr)
  · obtain ⟨⟨n, r⟩, hr, h⟩ := exists_of_bind_eq_ok h
    cases h
    exact Nat.lt_succ_of_lt (length_of_name hr)
  · obtain ⟨⟨n, r⟩, hr, h⟩ := exists_of_bind_eq_ok h
    cases h
    exact Nat.lt_succ_of_lt (length_of_attributeTest hr)
  · rename_i r
    cases hr : pseudo size r with
    | error e => rw [hr] at h; cases h
    | ok q =>
      rw [hr] at h
      cases h
      exact Nat.lt_succ_of_lt (length_of_pseudo hr)
  · cases h

theorem length_of_tagPart {size : Nat} {s rest : List Char} {xs : List Simple}
    (h : tagPart size s = .ok (xs, rest)) : xs.length + rest.length ≤ s.length := by
  unfold tagPart at h
  split at h
  · cases h; simp; omega
  · split at h
    · obtain ⟨⟨n, r⟩, hr, h⟩ := exists_of_bind_eq_ok h
      cases h
      have := length_of_ident hr
      simp only [List.length_singleton]
      omega
    · cases h; simp

/-! ## Compounds -/

/-- What a reader of conditions returns: each of them took a character at least. -/
abbrev Conditions (s : List Char) :=
  { p : List Simple × List Char // p.1.length + p.2.length ≤ s.length }

/-- What a reader returns that takes a character at least. -/
abbrev Shorter (α : Type) (s : List Char) :=
  { p : α × List Char // p.2.length < s.length }

mutual

/-- Reads the conditions that follow the tag of a compound. -/
def conditions (size : Nat) (s : List Char) : Except Error (Conditions s) :=
  match h : piece? size s with
  | .error e => .error e
  | .ok none => .ok ⟨([], s), by simp⟩
  | .ok (some (.simple x, r)) => do
    have hr := length_of_piece? h
    let ⟨(xs, rest), hrest⟩ ← conditions size r
    return ⟨(x :: xs, rest), by simp only [List.length_cons] at *; omega⟩
  | .ok (some (.negation, r)) => do
    have hr := length_of_piece? h
    let ⟨(compounds, r₁), h₁⟩ ← negation size r
    have : r₁.length < r.length := h₁
    let ⟨(xs, rest), hrest⟩ ← conditions size r₁
    return ⟨(.not compounds :: xs, rest), by simp only [List.length_cons] at *; omega⟩
termination_by 3 * s.length + 0

/-- Reads a compound, which has one condition at least. -/
def compound (size : Nat) (s : List Char) : Except Error (Shorter Compound s) :=
  match h : tagPart size s with
  | .error e => .error e
  | .ok (tags, r) => do
    have hr := length_of_tagPart h
    let ⟨(xs, rest), hrest⟩ ← conditions size r
    if hne : tags ++ xs = [] then .error (unexpected size rest)
    else return ⟨(tags ++ xs, rest), by
      have := List.length_pos_iff.2 hne
      simp only [List.length_append] at *
      omega⟩
termination_by 3 * s.length + 1

/-- Reads the compounds of a negation up to its closing parenthesis. -/
def negation (size : Nat) (s : List Char) : Except Error (Shorter (List Compound) s) := do
  have hs := length_skipSpace_le s
  let ⟨(c, r), hr⟩ ← compound size (skipSpace s)
  have hskip := length_skipSpace_le r
  match hnext : skipSpace r with
  | ',' :: r₁ =>
    have : r₁.length < s.length := by simp only [hnext, List.length_cons] at *; omega
    let ⟨(cs, rest), hrest⟩ ← negation size r₁
    return ⟨(c :: cs, rest), by simp only [hnext, List.length_cons] at *; omega⟩
  | ')' :: r₁ => return ⟨([c], r₁), by simp only [hnext, List.length_cons] at *; omega⟩
  | r₁ => .error (unexpected size r₁)
termination_by 3 * s.length + 2

end

/-! ## Complex selectors and lists -/

/-- The combinator at the front of a text, with the text after it. White space that was skipped
counts as a combinator if no other one is written. -/
def combinator? (isSpaced : Bool) (s : List Char) : Option (Combinator × List Char) :=
  match s with
  | '>' :: r => some (.child, skipSpace r)
  | '+' :: r => some (.nextSibling, skipSpace r)
  | '~' :: r => some (.subsequentSibling, skipSpace r)
  | s => if isSpaced then some (.descendant, s) else none

theorem length_of_combinator? {isSpaced : Bool} {s rest : List Char} {k : Combinator}
    (h : combinator? isSpaced s = some (k, rest)) : rest.length ≤ s.length := by
  unfold combinator? at h
  split at h
  · cases h; exact Nat.le_succ_of_le (length_skipSpace_le _)
  · cases h; exact Nat.le_succ_of_le (length_skipSpace_le _)
  · cases h; exact Nat.le_succ_of_le (length_skipSpace_le _)
  · split at h
    · cases h; exact Nat.le_refl _
    · cases h

/-- Reads what follows the compounds that `left` is made of. -/
def complexRest (size : Nat) (left : Complex) (s : List Char) : Except Error Complex :=
  have := length_skipSpace_le s
  if (skipSpace s).isEmpty then .ok left
  else
    match h : combinator? (skipSpace s != s) (skipSpace s) with
    | none => .error (unexpected size (skipSpace s))
    | some (k, r) => do
      have := length_of_combinator? h
      if r.isEmpty then .error .danglingCombinator
      else
        let ⟨(c, rest), hrest⟩ ← compound size r
        have : rest.length < r.length := hrest
        complexRest size (left.extend k c) rest
termination_by s.length

/-- Reads one entry of a list. -/
def complex (s : List Char) : Except Error Complex :=
  if (skipSpace s).isEmpty then .error .empty
  else do
    let ⟨(c, r), _⟩ ← compound (byteSize s) (skipSpace s)
    complexRest (byteSize s) ⟨c, []⟩ r

/-- Reads a list of selectors. The error is that of the first malformed entry. -/
def parse (s : String) : Except Error (List Complex) :=
  (entriesFrom .start s.toList).mapM complex

end Restyle.Selector
