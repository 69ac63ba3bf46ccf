import Restyle.Dom.Markup
import Restyle.Html.Lexer
import Restyle.Log

/-!
# Reading markup into a document tree

`Html.build` follows the tags as they are written: no element is added that has no tag. Elements
without content are not opened, some start tags close elements that are open (`closeImplied`), and
what cannot be followed is ignored and noted as an `Issue`.
-/

namespace Restyle.Html

/-- What is noted about a token that cannot be followed to the letter. -/
inductive Fault where
  /-- A document type inside an element. -/
  | doctypeInElement
  /-- A self-closing tag of an element that has content. -/
  | selfClosing
  /-- An end tag that closes elements inside its own. -/
  | closesUnclosed (tag : String)
  /-- The end tag of an element that has no content. -/
  | voidEndTag (tag : String)
  /-- An end tag of an element that is not open. -/
  | strayEndTag (tag : String)
deriving DecidableEq, Repr

/-- The description of a fault. -/
def Fault.message : Fault → String
  | doctypeInElement => "DOCTYPE inside an element, ignored"
  | selfClosing => "self-closing flag on a non-void element ignored"
  | closesUnclosed tag => "end tag </" ++ tag ++ "> closes unclosed elements"
  | voidEndTag tag => "end tag </" ++ tag ++ "> for a void element ignored"
  | strayEndTag tag => "stray end tag </" ++ tag ++ "> ignored"

/-- A fault and where it is. -/
structure Issue where
  /-- The position of the token among all tokens. -/
  position : Nat
  /-- What is wrong with it. -/
  fault : Fault
deriving DecidableEq, Repr

/-- An element that is open. -/
structure Frame where
  /-- The number of the element. -/
  id : NodeId
  /-- The tag of the element. -/
  tag : String
deriving DecidableEq, Repr

/-- Elements in which a self-closing tag closes its element. -/
def foreignTags : List String :=
  ["svg", "math"]

/-- Start tags that close an open paragraph. -/
def closesParagraph : List String :=
  ["address", "article", "aside", "blockquote", "details", "dialog", "div", "dl", "fieldset",
    "figcaption", "figure", "footer", "form", "h1", "h2", "h3", "h4", "h5", "h6", "header",
    "hgroup", "hr", "main", "menu", "nav", "ol", "p", "pre", "section", "summary", "table", "ul"]

/-- Elements that hide what is open around them. -/
def boundaryTags : List String :=
  ["html", "body", "table", "td", "th", "caption", "template", "button", "svg", "math"]

/-- Closes the innermost of the target elements with all inside it, unless a boundary is met
first. -/
def closeInScope (targets boundaries : List String) (frames : List Frame) : List Frame :=
  search frames
where
  /-- Looks for the target from the innermost frame on. -/
  search : List Frame → List Frame
    | [] => frames
    | f :: outer =>
      if targets.contains f.tag then outer
      else if boundaries.contains f.tag || boundaryTags.contains f.tag then frames
      else search outer

/-- Closes an `option` that is the innermost open element. -/
def closeOption : List Frame → List Frame
  | f :: outer => if f.tag == "option" then outer else f :: outer
  | [] => []

/-- Closes the elements that the start tag `tag` closes by itself. -/
def closeImplied (tag : String) (frames : List Frame) : List Frame :=
  let frames := if closesParagraph.contains tag then closeInScope ["p"] [] frames else frames
  match tag with
  | "li" => closeInScope ["li"] ["ul", "ol"] frames
  | "dt" | "dd" => closeInScope ["dt", "dd"] ["dl"] frames
  | "option" => closeOption frames
  | "tr" =>
    closeInScope ["tr"] ["tbody", "thead", "tfoot"] (closeInScope ["td", "th"] ["tr"] frames)
  | "td" | "th" => closeInScope ["td", "th"] ["tr"] frames
  | _ => frames

/-- A tree that is being built. -/
structure Builder where
  /-- The tree so far. -/
  dom : Dom
  /-- The open elements, the innermost first. -/
  frames : List Frame
  /-- The text that is not yet in the tree, last character first. -/
  pending : List Char
  /-- The issues, the first one first. -/
  issues : List Issue
deriving DecidableEq, Repr

namespace Builder

/-- Nothing but the document. -/
def empty : Builder :=
  ⟨.empty, [], [], []⟩

/-- The node that new nodes are put into. -/
def current (b : Builder) : NodeId :=
  match b.frames with
  | f :: _ => f.id
  | [] => Dom.root

/-- Adds a node to the current one. -/
def insert (b : Builder) (c : Content) : Builder :=
  { b with dom := b.dom.addChild b.current c }

/-- Puts the pending text into the tree. -/
def flush (b : Builder) : Builder :=
  if b.pending.isEmpty then b
  else { b.insert (.text (String.ofList b.pending.reverse)) with pending := [] }

/-- Notes a fault of the token at the given position. -/
def note (b : Builder) (position : Nat) (fault : Fault) : Builder :=
  { b with issues := b.issues ++ [⟨position, fault⟩] }

/-- Reads a start tag. -/
def startTag (b : Builder) (position : Nat) (tag : String) (selfClosing : Bool)
    (attributes : List Attribute) : Builder :=
  let b := { b with frames := closeImplied tag b.frames }
  let isForeign := foreignTags.contains tag || b.frames.any (foreignTags.contains ·.tag)
  let frame : Frame := ⟨b.dom.size, tag⟩
  let b := b.insert (.element ⟨tag, Attribute.firstWins attributes⟩)
  if isVoidTag tag || (selfClosing && isForeign) then b
  else
    let b := if selfClosing then b.note position .selfClosing else b
    { b with frames := frame :: b.frames }

/-- Reads an end tag. -/
def endTag (b : Builder) (position : Nat) (tag : String) : Builder :=
  match b.frames.dropWhile (·.tag != tag) with
  | _ :: outer =>
    let b := if outer.length + 1 = b.frames.length then b else b.note position (.closesUnclosed tag)
    { b with frames := outer }
  | [] => b.note position (if isVoidTag tag then .voidEndTag tag else .strayEndTag tag)

/-- Reads the token at the given position. -/
def step (b : Builder) (position : Nat) (t : Token) : Builder :=
  match t with
  | .character c => { b with pending := c :: b.pending }
  | .doctype name =>
    let b := b.flush
    if b.frames.isEmpty then b.insert (.doctype (name.getD ""))
    else b.note position .doctypeInElement
  | .comment data => b.flush.insert (.comment data)
  | .startTag tag selfClosing attributes => b.flush.startTag position tag selfClosing attributes
  | .endTag tag => b.flush.endTag position tag
  | .endOfFile => b.flush

/-- Reads tokens up to the end of the text, the first of them at the given position. -/
def run (b : Builder) (position : Nat) : List Token → Builder
  | [] => b.flush
  | .endOfFile :: _ => b.flush
  | t :: ts => (b.step position t).run (position + 1) ts

end Builder

/-- A document tree and what was noted while it was read. -/
structure Document where
  /-- The tree. -/
  dom : Dom
  /-- The issues, in order. -/
  issues : List Issue
deriving DecidableEq, Repr

/-- The document that the tokens describe. -/
def build (ts : List Token) : Document :=
  let b := Builder.empty.run 0 ts
  ⟨b.dom, b.issues⟩

/-- The document that a text describes. -/
def parse (s : String) : Document :=
  build (tokens s)

/-- Logs what was noted while the document was read. -/
def Document.report (doc : Document) (log : Log) : Log :=
  doc.issues.foldl (fun log i => log.notice "HTML Parser" i.fault.message) log

end Restyle.Html
