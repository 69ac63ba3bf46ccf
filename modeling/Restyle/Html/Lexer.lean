import Restyle.Html.Reference
import Restyle.Html.Token
import Restyle.Text.Blank

/-!
# Reading markup

`Html.tokens` reads a text with a machine whose state is a `Mode`. A step looks at one character and
either takes it or leaves it to the mode it goes to. `Mode.wait` counts how often a character can be
left in a row, at most twice, so the machine stops (`step_decreases`). Comments, document types
and the text of elements such as `style` are read in one step.
-/

namespace Restyle.Html

open Text

/-- Elements whose text is taken as it stands, up to their end tag. -/
def rawTextTags : List String :=
  ["style", "script", "xmp", "iframe", "noembed", "noframes"]

/-- Elements whose text is taken up to their end tag with character references resolved. -/
def escapableTextTags : List String :=
  ["title", "textarea"]

/-- A tag that is being read. -/
structure Draft where
  /-- Whether it is an end tag. -/
  isEnd : Bool
  /-- The name so far. -/
  name : String
  /-- Whether the tag closes itself. -/
  selfClosing : Bool
  /-- The attributes that are finished. -/
  attributes : List Attribute
  /-- The attribute that is being read. -/
  current : Option Attribute
deriving DecidableEq, Repr

namespace Draft

/-- A tag of which nothing has been read. -/
def empty (isEnd : Bool) : Draft :=
  ⟨isEnd, "", false, [], none⟩

/-- Finishes the current attribute, which is dropped if an earlier one has its name. -/
def finishAttribute (d : Draft) : Draft :=
  match d.current with
  | none => d
  | some a =>
    { d with
      attributes :=
        if d.attributes.any (·.name == a.name) then d.attributes else d.attributes ++ [a]
      current := none }

/-- Starts an attribute. -/
def startAttribute (d : Draft) : Draft :=
  { d.finishAttribute with current := some ⟨"", ""⟩ }

/-- Adds a character to the name of the tag. -/
def pushName (d : Draft) (c : Char) : Draft :=
  { d with name := d.name.push c.toLower }

/-- Adds a character to the name of the current attribute. -/
def pushAttributeName (d : Draft) (c : Char) : Draft :=
  { d with current := d.current.map fun a => { a with name := a.name.push c.toLower } }

/-- Adds a character to the value of the current attribute. -/
def pushAttributeValue (d : Draft) (c : Char) : Draft :=
  { d with current := d.current.map fun a => { a with value := a.value.push c } }

/-- The token of a finished tag. The attributes of an end tag are dropped. -/
def token (d : Draft) : Token :=
  if d.isEnd then .endTag d.name
  else .startTag d.name d.selfClosing d.finishAttribute.attributes

end Draft

/-- The states of the machine. -/
inductive Mode where
  /-- Between tags. -/
  | data
  /-- Inside an element whose text runs up to its end tag. -/
  | rawText (tag : String) (decodes : Bool)
  /-- After `<`. -/
  | tagOpen
  /-- After `</`. -/
  | endTagOpen
  /-- In the name of a tag. -/
  | tagName (d : Draft)
  /-- Before an attribute. -/
  | beforeAttributeName (d : Draft)
  /-- In the name of an attribute. -/
  | attributeName (d : Draft)
  /-- After the name of an attribute. -/
  | afterAttributeName (d : Draft)
  /-- After the `=` of an attribute. -/
  | beforeAttributeValue (d : Draft)
  /-- In a value between quotes. -/
  | quotedValue (d : Draft) (quote : Char)
  /-- In a value without quotes. -/
  | unquotedValue (d : Draft)
  /-- After the closing quote of a value. -/
  | afterQuotedValue (d : Draft)
  /-- After a `/` in a tag. -/
  | selfClosing (d : Draft)
deriving DecidableEq, Repr

/-- What a step gives: tokens, the next mode, and the text that it will see. -/
structure Step where
  /-- The tokens read. -/
  tokens : List Token
  /-- The next mode. -/
  mode : Mode
  /-- The text that remains. -/
  rest : List Char
deriving DecidableEq, Repr

/-- The mode after a start tag of this name. -/
def Mode.afterStartTag (name : String) : Mode :=
  if rawTextTags.contains name then .rawText name false
  else if escapableTextTags.contains name then .rawText name true
  else .data

/-- Gives out a finished tag. -/
def Draft.emit (d : Draft) (rest : List Char) : Step :=
  ⟨[d.token], if d.isEnd then .data else .afterStartTag d.name, rest⟩

/-- The inside of a comment up to `-->`, and what comes after that. -/
def commentData : List Char → List Char × List Char
  | '-' :: '-' :: '>' :: r => ([], r)
  | c :: r => let (data, rest) := commentData r; (c :: data, rest)
  | [] => ([], [])

/-- The text up to a `>`, and what comes after that. -/
def upToClose : List Char → List Char × List Char
  | [] => ([], [])
  | c :: r =>
    if c = '>' then ([], r) else let (data, rest) := upToClose r; (c :: data, rest)

/-- Reads the text up to a `>` as a comment. -/
def bogusComment (s : List Char) : Step :=
  let (data, rest) := upToClose s
  ⟨[.comment (String.ofList data)], .data, rest⟩

/-- Reads a document type after its keyword. The name is its first word. -/
def doctype (s : List Char) : Step :=
  let (body, rest) := upToClose s
  ⟨[.doctype (wordsBy isBlank (String.ofList body)).head?], .data, rest⟩

/-- Reads what comes after `<!`: a comment, a document type, or else anything as a comment. -/
def declaration (s : List Char) : Step :=
  match s with
  | '-' :: '-' :: r =>
    let (data, rest) := commentData r
    ⟨[.comment (String.ofList data)], .data, rest⟩
  | s =>
    if sameLetters (String.ofList (s.take 7)) "doctype" then doctype (s.drop 7) else bogusComment s

/-- Whether a text starts with the end tag of the given name. -/
def startsEndTag (name : List Char) : List Char → Bool
  | '<' :: '/' :: r =>
    (r.take name.length).map Char.toLower == name.map Char.toLower &&
      match r.drop name.length with
      | c :: _ => isSpace c || c == '/' || c == '>'
      | [] => true
  | _ => false

/-- The characters of an element up to its end tag, which is left in the text. -/
def rawText (name : List Char) (decodes : Bool) (s : List Char) : List Token × List Char :=
  match s with
  | [] => ([], [])
  | c :: r =>
    if startsEndTag name (c :: r) then ([], c :: r)
    else if decodes && c == '&' then
      have := (Reference.read_suffix false r).length_le
      let (tokens, rest) := rawText name decodes (Reference.read false r).2
      (.character (Reference.read false r).1 :: tokens, rest)
    else
      let (tokens, rest) := rawText name decodes r
      (.character c :: tokens, rest)
termination_by s.length
decreasing_by all_goals simp only [List.length_cons]; omega

namespace Mode

/-- Looks at the character `c`, with the text `r` after it. -/
def step (m : Mode) (c : Char) (r : List Char) : Step :=
  match m with
  | data =>
    if c = '&' then
      let (d, rest) := Reference.read false r
      ⟨[.character d], data, rest⟩
    else if c = '<' then ⟨[], tagOpen, r⟩
    else ⟨[.character c], data, r⟩
  | rawText tag decodes => ⟨[.character c], rawText tag decodes, r⟩
  | tagOpen =>
    if c = '!' then declaration r
    else if c = '/' then ⟨[], endTagOpen, r⟩
    else if c.isAlpha then ⟨[], tagName (.empty false), c :: r⟩
    else if c = '?' then bogusComment (c :: r)
    else ⟨[.character '<'], data, c :: r⟩
  | endTagOpen =>
    if c.isAlpha then ⟨[], tagName (.empty true), c :: r⟩
    else if c = '>' then ⟨[], data, r⟩
    else bogusComment (c :: r)
  | tagName d =>
    if isSpace c then ⟨[], beforeAttributeName d, r⟩
    else if c = '/' then ⟨[], selfClosing d, r⟩
    else if c = '>' then d.emit r
    else ⟨[], tagName (d.pushName c), r⟩
  | beforeAttributeName d =>
    if isSpace c then ⟨[], beforeAttributeName d, r⟩
    else if c = '/' ∨ c = '>' then ⟨[], afterAttributeName d, c :: r⟩
    else ⟨[], attributeName d.startAttribute, c :: r⟩
  | attributeName d =>
    if isSpace c then ⟨[], afterAttributeName d, r⟩
    else if c = '/' ∨ c = '>' then ⟨[], afterAttributeName d, c :: r⟩
    else if c = '=' then ⟨[], beforeAttributeValue d, r⟩
    else ⟨[], attributeName (d.pushAttributeName c), r⟩
  | afterAttributeName d =>
    if isSpace c then ⟨[], afterAttributeName d, r⟩
    else if c = '/' then ⟨[], selfClosing d, r⟩
    else if c = '=' then ⟨[], beforeAttributeValue d, r⟩
    else if c = '>' then d.emit r
    else ⟨[], attributeName d.startAttribute, c :: r⟩
  | beforeAttributeValue d =>
    if isSpace c then ⟨[], beforeAttributeValue d, r⟩
    else if c = '"' ∨ c = '\'' then ⟨[], quotedValue d c, r⟩
    else if c = '>' then d.emit r
    else ⟨[], unquotedValue d, c :: r⟩
  | quotedValue d quote =>
    if c = quote then ⟨[], afterQuotedValue d, r⟩
    else if c = '&' then
      let (e, rest) := Reference.read true r
      ⟨[], quotedValue (d.pushAttributeValue e) quote, rest⟩
    else ⟨[], quotedValue (d.pushAttributeValue c) quote, r⟩
  | unquotedValue d =>
    if isSpace c then ⟨[], beforeAttributeName d, r⟩
    else if c = '&' then
      let (e, rest) := Reference.read true r
      ⟨[], unquotedValue (d.pushAttributeValue e), rest⟩
    else if c = '>' then d.emit r
    else ⟨[], unquotedValue (d.pushAttributeValue c), r⟩
  | afterQuotedValue d =>
    if isSpace c then ⟨[], beforeAttributeName d, r⟩
    else if c = '/' then ⟨[], selfClosing d, r⟩
    else if c = '>' then d.emit r
    else ⟨[], beforeAttributeName d, c :: r⟩
  | selfClosing d =>
    if c = '>' then { d with selfClosing := true }.emit r
    else ⟨[], beforeAttributeName d, c :: r⟩

/-- The tokens at the end of the text. A tag that is not finished is dropped. -/
def finish : Mode → List Token
  | tagOpen => [.character '<', .endOfFile]
  | endTagOpen => [.character '<', .character '/', .endOfFile]
  | _ => [.endOfFile]

/-- How many modes in a row can leave the first character of the text to the next one. -/
def wait (m : Mode) (s : List Char) : Nat :=
  match m with
  | data | tagName _ | quotedValue _ _ | unquotedValue _ => 0
  | rawText _ _ | tagOpen | endTagOpen | beforeAttributeName _ | beforeAttributeValue _ => 1
  | afterQuotedValue _ | selfClosing _ => 2
  | attributeName _ =>
    match s with
    | c :: _ => if c = '/' ∨ c = '>' then 1 else 0
    | [] => 0
  | afterAttributeName _ =>
    match s with
    | c :: _ => if isSpace c ∨ c = '/' ∨ c = '=' ∨ c = '>' then 0 else 1
    | [] => 0

theorem wait_le_two (m : Mode) (s : List Char) : m.wait s ≤ 2 := by
  unfold wait
  repeat' split
  all_goals omega

end Mode

/-! ## Every step takes a character or leaves it to a mode that waits less -/

theorem commentData_suffix (s : List Char) : (commentData s).2 <:+ s := by
  fun_induction commentData s with
  | case1 r => exact ⟨['-', '-', '>'], rfl⟩
  | case2 c r _ data rest _ ih => simp_all only; exact ih.trans (List.suffix_cons _ _)
  | case3 => exact List.suffix_refl _

theorem upToClose_suffix (c : Char) (r : List Char) : (upToClose (c :: r)).2 <:+ r := by
  induction r generalizing c with
  | nil => rw [upToClose]; split <;> exact List.suffix_refl _
  | cons d r ih =>
    rw [upToClose]
    split
    · exact List.suffix_refl _
    · exact (ih d).trans (List.suffix_cons _ _)

theorem upToClose_suffix_self (s : List Char) : (upToClose s).2 <:+ s := by
  cases s with
  | nil => exact List.suffix_refl _
  | cons c r => exact (upToClose_suffix c r).trans (List.suffix_cons _ _)

theorem declaration_suffix (s : List Char) : (declaration s).rest <:+ s := by
  unfold declaration
  split
  · exact (commentData_suffix _).trans ⟨['-', '-'], rfl⟩
  · split
    · exact (upToClose_suffix_self _).trans (List.drop_suffix _ _)
    · exact upToClose_suffix_self _

theorem rawText_suffix (name : List Char) (decodes : Bool) (s : List Char) :
    (rawText name decodes s).2 <:+ s := by
  fun_induction rawText name decodes s with
  | case1 => exact List.suffix_refl _
  | case2 => exact List.suffix_refl _
  | case3 c r _ _ _ tokens rest _ ih =>
    simp_all only
    exact ih.trans ((Reference.read_suffix false r).trans (List.suffix_cons _ _))
  | case4 c r _ _ tokens rest _ ih => simp_all only; exact ih.trans (List.suffix_cons _ _)

/-- A step takes the character, or leaves it to a mode that can leave it less often. -/
theorem Mode.step_rest (m : Mode) (c : Char) (r : List Char) :
    (m.step c r).rest <:+ r ∨
      (m.step c r).rest = c :: r ∧ (m.step c r).mode.wait (c :: r) < m.wait (c :: r) := by
  cases m <;> simp only [step]
  case data =>
    split
    · exact .inl (Reference.read_suffix _ _)
    · split <;> exact .inl (List.suffix_refl _)
  case rawText => exact .inl (List.suffix_refl _)
  case tagOpen =>
    split
    · exact .inl (declaration_suffix r)
    · split
      · exact .inl (List.suffix_refl _)
      · split
        · exact .inr ⟨rfl, by simp [wait]⟩
        · split
          · exact .inl (upToClose_suffix c r)
          · exact .inr ⟨rfl, by simp [wait]⟩
  case endTagOpen =>
    split
    · exact .inr ⟨rfl, by simp [wait]⟩
    · split
      · exact .inl (List.suffix_refl _)
      · exact .inl (upToClose_suffix c r)
  case tagName =>
    repeat' split
    all_goals exact .inl (List.suffix_refl _)
  case beforeAttributeName d =>
    split
    · exact .inl (List.suffix_refl _)
    · split
      · rename_i h
        refine .inr ⟨rfl, ?_⟩
        rcases h with rfl | rfl <;> simp [wait]
      · rename_i h
        exact .inr ⟨rfl, by simp [wait, h]⟩
  case attributeName d =>
    split
    · exact .inl (List.suffix_refl _)
    · split
      · rename_i h
        refine .inr ⟨rfl, ?_⟩
        rcases h with rfl | rfl <;> simp [wait]
      · split <;> exact .inl (List.suffix_refl _)
  case afterAttributeName d =>
    split
    · exact .inl (List.suffix_refl _)
    · split
      · exact .inl (List.suffix_refl _)
      · split
        · exact .inl (List.suffix_refl _)
        · split
          · exact .inl (List.suffix_refl _)
          · exact .inr ⟨rfl, by simp [wait, *]⟩
  case beforeAttributeValue d =>
    split
    · exact .inl (List.suffix_refl _)
    · split
      · exact .inl (List.suffix_refl _)
      · split
        · exact .inl (List.suffix_refl _)
        · exact .inr ⟨rfl, by simp [wait]⟩
  case quotedValue d q =>
    split
    · exact .inl (List.suffix_refl _)
    · split
      · exact .inl (Reference.read_suffix _ _)
      · exact .inl (List.suffix_refl _)
  case unquotedValue d =>
    split
    · exact .inl (List.suffix_refl _)
    · split
      · exact .inl (Reference.read_suffix _ _)
      · split <;> exact .inl (List.suffix_refl _)
  case afterQuotedValue d =>
    split
    · exact .inl (List.suffix_refl _)
    · split
      · exact .inl (List.suffix_refl _)
      · split
        · exact .inl (List.suffix_refl _)
        · exact .inr ⟨rfl, by simp [wait]⟩
  case selfClosing d =>
    split
    · exact .inl (List.suffix_refl _)
    · exact .inr ⟨rfl, by simp [wait]⟩

/-- Three times the length of the text, plus what the mode can still wait, gets less in each
step. -/
theorem Mode.step_decreases (m : Mode) (c : Char) (r : List Char) :
    3 * (m.step c r).rest.length + (m.step c r).mode.wait (m.step c r).rest <
      3 * (c :: r).length + m.wait (c :: r) := by
  have hwait := (m.step c r).mode.wait_le_two (m.step c r).rest
  rcases m.step_rest c r with h | ⟨hrest, hlt⟩
  · have := h.length_le
    simp only [List.length_cons]
    omega
  · rw [hrest]; omega

/-- The tokens that the machine reads from a text, starting in the given mode. -/
def run (m : Mode) (s : List Char) : List Token :=
  match m, s with
  | .rawText tag decodes, s =>
    have := (rawText_suffix tag.toList decodes s).length_le
    (rawText tag.toList decodes s).1 ++ run .data (rawText tag.toList decodes s).2
  | m, [] => m.finish
  | m, c :: r =>
    have := m.step_decreases c r
    (m.step c r).tokens ++ run (m.step c r).mode (m.step c r).rest
termination_by 3 * s.length + m.wait s
decreasing_by
  · simp only [Mode.wait]; omega
  · assumption

/-- The tokens of an HTML text. -/
def tokens (s : String) : List Token :=
  run .data s.toList

end Restyle.Html
