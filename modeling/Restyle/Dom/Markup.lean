import Restyle.Dom.Traversal

/-!
# Writing a document tree

`Dom.markup` writes a tree as HTML. A node is written after its parent, and the nesting is at most
as deep as there are nodes, which bounds the recursion.
-/

namespace Restyle

/-- Elements without content and without an end tag. -/
def voidTags : List String :=
  ["area", "base", "br", "col", "embed", "hr", "img", "input", "link", "meta", "source", "track",
    "wbr"]

/-- Elements whose texts are written as they stand. -/
def verbatimTags : List String :=
  ["style", "script", "xmp", "iframe", "noembed", "noframes", "plaintext"]

/-- Whether a tag is that of an element without content. -/
def isVoidTag (tag : String) : Bool :=
  voidTags.contains tag

namespace Text

/-- What stands for a character of a text. -/
def escapeChar (c : Char) : String :=
  match c with
  | '&' => "&amp;"
  | '\u00A0' => "&nbsp;"
  | '<' => "&lt;"
  | '>' => "&gt;"
  | c => c.toString

/-- What stands for a character of an attribute. -/
def escapeAttributeChar (c : Char) : String :=
  match c with
  | '&' => "&amp;"
  | '\u00A0' => "&nbsp;"
  | '"' => "&quot;"
  | c => c.toString

/-- The markup of a text. -/
def escape (s : String) : String :=
  String.join (s.toList.map escapeChar)

/-- The markup of the value of an attribute. -/
def escapeAttribute (s : String) : String :=
  String.join (s.toList.map escapeAttributeChar)

end Text

/-- The attribute as it stands in a start tag, after a space. -/
def Attribute.markup (a : Attribute) : String :=
  " " ++ a.name ++ "=\"" ++ Text.escapeAttribute a.value ++ "\""

/-- The start tag of an element. -/
def Element.startTag (e : Element) : String :=
  "<" ++ e.tag ++ String.join (e.attributes.map Attribute.markup) ++ ">"

/-- The end tag of an element. -/
def Element.endTag (e : Element) : String :=
  "</" ++ e.tag ++ ">"

namespace Dom

variable (d : Dom)

/-- Whether the texts below this parent are written as they stand. -/
def isVerbatim (parent : Option NodeId) : Bool :=
  ((parent.bind d.tag?).map verbatimTags.contains).getD false

/-- The markup of a node and of what is below it, down to the given depth. -/
def markupTo : Nat → NodeId → String
  | 0, _ => ""
  | depth + 1, id =>
    match d.node? id with
    | none => ""
    | some n =>
      match n.content with
      | .document => String.join (n.children.map (markupTo depth))
      | .doctype name => "<!DOCTYPE " ++ name ++ ">"
      | .comment data => "<!--" ++ data ++ "-->"
      | .text data => if d.isVerbatim n.parent then data else Text.escape data
      | .element e =>
        if isVoidTag e.tag then e.startTag
        else e.startTag ++ String.join (n.children.map (markupTo depth)) ++ e.endTag

/-- The markup of a node with what is below it. -/
def outerMarkup (id : NodeId) : String :=
  d.markupTo d.size id

/-- The markup of what is below a node. -/
def innerMarkup (id : NodeId) : String :=
  String.join ((d.children id).map d.outerMarkup)

/-- The markup of the document. -/
def markup : String :=
  d.innerMarkup root

end Dom

end Restyle
