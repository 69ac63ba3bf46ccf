import Restyle.Css.Group
import Restyle.Css.Lexer
import Restyle.Css.Sheet
import Restyle.Text.Blank

/-!
# Reading style sheets

`Stylesheet.parse` reads a text strictly: what has no place in the tree is a `ParseError`, so a
caller can leave the text alone instead of keeping a part of it. Blocks are cut at their braces
before their inside is read, and an error inside a block comes before the error that it is never
closed.
-/

namespace Restyle.Css

/-- The text of a run of lexemes, comments left out. -/
def joined (ls : List Lexeme) : String :=
  String.ofList (ls.flatMap fun l => l.raw.toList)

/-- The text of a run of lexemes with one space for each piece of white space, trimmed. -/
def collapsed (ls : List Lexeme) : String :=
  Text.trim (String.ofList
    (ls.flatMap fun l => if l.token = .whitespace then [' '] else l.raw.toList))

/-- Whether a lexeme is white space. -/
def Lexeme.isSpace (l : Lexeme) : Bool :=
  l.token = .whitespace

/-- A run of lexemes without the white space at its end. -/
def dropSpaceEnd (ls : List Lexeme) : List Lexeme :=
  (ls.reverse.dropWhile Lexeme.isSpace).reverse

/-- A run of lexemes without the white space at both ends. -/
def trimSpace (ls : List Lexeme) : List Lexeme :=
  dropSpaceEnd (ls.dropWhile Lexeme.isSpace)

/-! ## Values -/

namespace Value

/-- Puts source text in front of values, as one piece with source text that comes first. -/
def pushOther (text : String) : List Value → List Value
  | other t :: vs => other (text ++ t) :: vs
  | vs => other text :: vs

/-- The values that a run of lexemes with balanced groups writes. -/
def ofLexemes (ls : List Lexeme) : List Value :=
  match ls with
  | [] => []
  | l :: rest =>
    match l.token with
    | .ident _ => identifier l.raw :: ofLexemes rest
    | .hash _ _ =>
      let digits := String.ofList (l.raw.toList.drop 1)
      if isHexColor digits then hexColor digits :: ofLexemes rest
      else pushOther l.raw (ofLexemes rest)
    | .function _ =>
      have := length_arguments 0 rest
      let split := arguments 0 rest
      call (String.ofList l.raw.toList.dropLast) (ofLexemes split.1) :: ofLexemes split.2
    | _ => pushOther l.raw (ofLexemes rest)
termination_by ls.length
decreasing_by all_goals simp_all only [List.length_cons]; omega

end Value

/-! ## Declarations -/

namespace Declaration

/-- Splits `!important` off the end of a value. -/
def splitImportant (ls : List Lexeme) : List Lexeme × Bool :=
  match ls.reverse with
  | ⟨.ident name, _, _⟩ :: before =>
    match before.dropWhile Lexeme.isSpace with
    | ⟨.delim '!', _, _⟩ :: value =>
      if Text.sameLetters name "important" then (value.reverse, true) else (ls, false)
    | _ => (ls, false)
  | _ => (ls, false)

/-- The declaration of `name` whose value is written by these lexemes. The value of a custom
property is kept as one piece. -/
def ofLexemes (name : String) (ls : List Lexeme) : Declaration :=
  let (value, important) := splitImportant (trimSpace ls)
  let value := dropSpaceEnd value
  { name
    value :=
      if isCustomName name then
        if value.isEmpty then [] else [.other (joined value)]
      else Value.ofLexemes value
    important }

/-- Reads the declaration whose name is the lexeme `l`, up to its semicolon or the end of the
run. -/
def read (ending : Ending) (l : Lexeme) (ls : List Lexeme) :
    Except ParseError (Declaration × List Lexeme) :=
  match ls.dropWhile Lexeme.isSpace with
  | [] => .error (.invalidDeclaration ending.offset (.missingColon l.raw))
  | c :: rest =>
    if c.token = .colon then do
      let (value, rest) ← span (fun t => t = .semicolon || t = .rightBrace) [] rest
      return (ofLexemes l.raw value, rest)
    else .error (.invalidDeclaration c.start (.missingColon l.raw))

theorem length_of_read {ending : Ending} {l : Lexeme} {ls rest : List Lexeme} {d : Declaration}
    (h : read ending l ls = .ok (d, rest)) : rest.length ≤ ls.length := by
  have hdrop := (List.dropWhile_suffix (l := ls) Lexeme.isSpace).length_le
  unfold read at h
  split at h
  · simp at h
  · rename_i c r hr
    rw [hr, List.length_cons] at hdrop
    split at h
    · cases hs : span (fun t => t = .semicolon || t = .rightBrace) [] r with
      | error e => simp [hs, bind, Except.bind] at h
      | ok p =>
        obtain ⟨value, after⟩ := p
        simp only [hs, bind, Except.bind, pure, Except.pure, Except.ok.injEq, Prod.mk.injEq] at h
        have := span_length_le hs
        rw [← h.2]; omega
    · simp at h

/-- Reads the inside of a block of declarations. -/
def readAll (ending : Ending) (ls : List Lexeme) : Except ParseError (List Declaration) :=
  match ls with
  | [] => .ok []
  | l :: rest =>
    match l.token with
    | .whitespace | .semicolon => readAll ending rest
    | .ident _ =>
      match h : read ending l rest with
      | .error e => .error e
      | .ok (d, after) => do
        have := length_of_read h
        let ds ← readAll ending after
        return d :: ds
    | _ => .error (.invalidDeclaration l.start (.notAProperty l.raw))
termination_by ls.length
decreasing_by all_goals simp_all only [List.length_cons]; omega

end Declaration

/-! ## Rules -/

/-- The entries of a selector list, or `none` if one of them is empty. -/
def selectors? (ls : List Lexeme) : Option (List String) :=
  (commaPieces 0 ls).mapM fun piece =>
    let text := collapsed piece
    if text = "" then none else some text

/-- Whether a token ends the part of a rule before its block. -/
def endsSelectors (t : Token) : Bool :=
  t = .leftBrace || t = .rightBrace

/-- Whether a token ends the part of an at-rule before its block. -/
def endsAtHead (t : Token) : Bool :=
  t = .semicolon || endsSelectors t

/-- Reads the inside of an animation. The text has `size` bytes. -/
def Keyframe.readAll (size : Nat) (ls : List Lexeme) : Except ParseError (List Keyframe) :=
  match ls with
  | [] => .ok []
  | l :: rest =>
    if l.isSpace then readAll size rest
    else
      match h : span endsSelectors [] (l :: rest) with
      | .error e => .error e
      | .ok (_, []) => .error (.missingBlock l.start)
      | .ok (head, b :: after) =>
        have := span_length_le h
        have := Block.length_rest_take size 0 after
        if b.token = .leftBrace then do
          let block := Block.take size 0 after
          let ds ← block.finish b.start (Declaration.readAll block.ending block.body)
          let frames ← readAll size block.rest
          return ⟨collapsed head, ds⟩ :: frames
        else .error (.missingBlock l.start)
termination_by ls.length
decreasing_by all_goals simp_all only [List.length_cons]; omega

namespace Rule

/-- Reads the block of an at-rule that is no conditional group. Where the inside should be
declarations but is not, it is kept as text. -/
def readBlock (size offset : Nat) (head : AtHead) (block : Block) : Except ParseError Rule :=
  let asText := block.finish offset (.ok (raw head (Text.trim (joined block.body))))
  if AtHead.isKeyframesName head.name then
    block.finish offset ((Keyframe.readAll size block.body).map (keyframes head))
  else if AtHead.isDescriptorName head.name then
    match block.finish offset (Declaration.readAll block.ending block.body) with
    | .ok ds => .ok (descriptors head ds)
    | .error _ => asText
  else asText

/-- Reads the style rule whose selectors, starting at `offset`, are the lexemes `ls`, and whose
block was opened at `brace`. -/
def readStyle (offset brace : Nat) (ls : List Lexeme) (block : Block) : Except ParseError Rule :=
  match selectors? ls with
  | none => .error (.emptySelector offset)
  | some selectors => do
    let ds ← block.finish brace (Declaration.readAll block.ending block.body)
    return style ⟨selectors, ds⟩

/-- The name of an at-rule, from its at-keyword. -/
def atName (l : Lexeme) : String :=
  String.ofList (l.raw.toList.dropWhile (· == '@'))

/-- Reads a list of rules: a whole style sheet if `top` is set, the inside of a conditional group
otherwise. The marks `<!--` and `-->` are skipped in a whole style sheet only. -/
def readAll (size : Nat) (top : Bool) (ending : Ending) (ls : List Lexeme) :
    Except ParseError (List Rule) :=
  match ls with
  | [] => .ok []
  | l :: rest =>
    if l.isSpace || (top && (l.token = .cdo || l.token = .cdc)) then readAll size top ending rest
    else if l.token = .rightBrace then .error (.unexpectedCloseBrace l.start)
    else if let .atKeyword _ := l.token then
      match h : span endsAtHead [] rest with
      | .error e => .error e
      | .ok (head, []) => .ok [statement ⟨atName l, collapsed head⟩]
      | .ok (head, b :: after) => do
        have : after.length < rest.length := span_length_le h
        have := Block.length_body_take size 0 after
        have := Block.length_rest_take size 0 after
        let head : AtHead := ⟨atName l, collapsed head⟩
        if b.token = .leftBrace then
          let block := Block.take size 0 after
          let rule ←
            if AtHead.isGroupName head.name then
              block.finish b.start ((readAll size false block.ending block.body).map (group head))
            else readBlock size b.start head block
          let rules ← readAll size top ending block.rest
          return rule :: rules
        else if b.token = .semicolon then
          let rules ← readAll size top ending after
          return statement head :: rules
        else
          let rules ← readAll size top ending (b :: after)
          return statement head :: rules
    else
      match h : span endsSelectors [] (l :: rest) with
      | .error e => .error e
      | .ok (_, []) =>
        match ending with
        | .text _ => .error (.missingBlock l.start)
        | .brace o => .error (.unexpectedCloseBrace o)
      | .ok (head, b :: after) => do
        have : after.length ≤ rest.length := Nat.le_of_succ_le_succ (span_length_le h)
        have := Block.length_rest_take size 0 after
        if b.token = .leftBrace then
          let block := Block.take size 0 after
          let rule ← readStyle l.start b.start head block
          let rules ← readAll size top ending block.rest
          return rule :: rules
        else .error (.unexpectedCloseBrace b.start)
termination_by ls.length
decreasing_by all_goals simp only [List.length_cons]; omega

end Rule

/-- The first string or address that is broken, as a reason to refuse the text. -/
def brokenToken? (ls : List Lexeme) : Option ParseError :=
  ls.findSome? fun l =>
    match l.token with
    | .badString => some (.badString l.start)
    | .badUrl => some (.badUrl l.start)
    | _ => none

/-- Reads a style sheet. -/
def Stylesheet.parse (source : String) : Except ParseError Stylesheet := do
  let size := Text.bytes source
  let ls := Lexeme.scan source
  if let some e := brokenToken? ls then throw e
  return ⟨← Rule.readAll size true (.text size) ls⟩

/-- Reads a list of declarations without braces, as the block of a placeholder rule. A text that
closes the block early is refused. -/
def Stylesheet.parseInline (source : String) : Except ParseError Stylesheet := do
  let sheet ← parse ("x \x7b " ++ source ++ " \x7d ")
  match sheet.rules with
  | [.style _] => return sheet
  | _ => throw (.invalidDeclaration 0 .notOneList)

/-- The declarations of the placeholder rule of `parseInline`. -/
def Stylesheet.inlineDeclarations (s : Stylesheet) : List Declaration :=
  match s.rules with
  | .style r :: _ => r.declarations
  | _ => []

end Restyle.Css
