import Restyle.Attribute
import Restyle.Text.Ascii

/-!
# Document trees

A `Dom` holds every node that was ever made, in the order of their numbers; the document is number
0. A node knows its parent and its children. Taking a node off its parent leaves it in the table,
so a number never comes to mean another node. Numbers without a node are harmless: queries find
nothing and changes do nothing.
-/

namespace Restyle

/-- The number of a node. -/
abbrev NodeId := Nat

/-- An element: its tag and its attributes in the order they were written. -/
structure Element where
  /-- The tag, in lower case where markup was read. -/
  tag : String
  /-- The attributes. -/
  attributes : List Attribute
deriving DecidableEq, Repr

namespace Element

/-- The value of an attribute. -/
def get? (e : Element) (name : String) : Option String :=
  Attribute.find? name e.attributes

/-- Whether the element has an attribute. -/
def has (e : Element) (name : String) : Bool :=
  Attribute.mem name e.attributes

/-- The words of the attribute `class`. -/
def classes (e : Element) : List String :=
  Text.words ((e.get? "class").getD "")

/-- Whether the attribute `class` has the given word. -/
def hasClass (e : Element) (name : String) : Bool :=
  e.classes.contains name

end Element

/-- What a node stands for. -/
inductive Content where
  /-- The document. -/
  | document
  /-- A document type with its name. -/
  | doctype (name : String)
  /-- An element. -/
  | element (e : Element)
  /-- A text. -/
  | text (data : String)
  /-- A comment. -/
  | comment (data : String)
deriving DecidableEq, Repr

namespace Content

/-- The element, if the node is one. -/
def element? : Content → Option Element
  | element e => some e
  | _ => none

/-- The text, if the node is one. -/
def text? : Content → Option String
  | text data => some data
  | _ => none

end Content

/-- A node with its place in the tree. -/
structure Node where
  /-- What the node stands for. -/
  content : Content
  /-- The parent, if the node has one. -/
  parent : Option NodeId
  /-- The children, in order. -/
  children : List NodeId
deriving DecidableEq, Repr

/-- A table of nodes, linked to a tree. -/
structure Dom where
  /-- The nodes in the order of their numbers. -/
  nodes : Array Node
deriving DecidableEq, Repr

namespace Dom

/-- The number of the document. -/
def root : NodeId := 0

/-- The tree that has only the document. -/
def empty : Dom :=
  ⟨#[⟨.document, none, []⟩]⟩

variable (d : Dom) (id : NodeId)

/-- How many nodes were made. -/
def size : Nat :=
  d.nodes.size

/-- The node with the given number. -/
def node? : Option Node :=
  d.nodes[id]?

/-- What the node stands for. -/
def content? : Option Content :=
  (d.node? id).map (·.content)

/-- The parent of a node. -/
def parent? : Option NodeId :=
  (d.node? id).bind (·.parent)

/-- The children of a node, in order. -/
def children : List NodeId :=
  ((d.node? id).map (·.children)).getD []

/-- The element with the given number. -/
def element? : Option Element :=
  (d.content? id).bind (·.element?)

/-- Whether the node is an element. -/
def isElement : Bool :=
  (d.element? id).isSome

/-- The text node with the given number. -/
def text? : Option String :=
  (d.content? id).bind (·.text?)

/-- The tag of an element. -/
def tag? : Option String :=
  (d.element? id).map (·.tag)

/-- The value of an attribute of an element. -/
def attributeValue? (name : String) : Option String :=
  (d.element? id).bind (·.get? name)

/-- Makes a node that has no place in the tree yet. Its number is the old `size`. -/
def add (c : Content) : Dom :=
  ⟨d.nodes.push ⟨c, none, []⟩⟩

/-- Changes one node. -/
def modify (f : Node → Node) : Dom :=
  ⟨d.nodes.modify id f⟩

/-- Takes a node off the given parent. Nothing happens if it is not a child of that parent. -/
def removeChild (parent child : NodeId) : Dom :=
  if child ∈ d.children parent then
    (d.modify parent fun n => { n with children := n.children.erase child }).modify child
      fun n => { n with parent := none }
  else d

/-- Takes a node off its parent. -/
def detach : Dom :=
  match d.parent? id with
  | some parent => d.removeChild parent id
  | none => d

/-- Makes a node the last child of another one; it is first taken off its old parent. -/
def append (parent child : NodeId) : Dom :=
  if parent < d.size ∧ child < d.size then
    ((d.detach child).modify parent fun n => { n with children := n.children ++ [child] }).modify
      child fun n => { n with parent := some parent }
  else d

/-- Makes a node and puts it last among the children of another one. -/
def addChild (parent : NodeId) (c : Content) : Dom :=
  (d.add c).append parent d.size

/-- Changes what a node stands for. -/
def modifyContent (f : Content → Content) : Dom :=
  d.modify id fun n => { n with content := f n.content }

/-- Changes an element; other nodes stay as they are. -/
def modifyElement (f : Element → Element) : Dom :=
  d.modifyContent id fun
    | .element e => .element (f e)
    | c => c

/-- Gives an attribute of an element a value. -/
def setAttribute (name value : String) : Dom :=
  d.modifyElement id fun e => { e with attributes := Attribute.set name value e.attributes }

/-- Drops an attribute of an element. -/
def removeAttribute (name : String) : Dom :=
  d.modifyElement id fun e => { e with attributes := Attribute.erase name e.attributes }

/-- Replaces all children of a node by one text, or by nothing if the text is empty. -/
def setText (text : String) : Dom :=
  let bare := (d.children id).foldl (fun d child => d.removeChild id child) d
  if text.isEmpty then bare else bare.addChild id (.text text)

/-- Changes the tag of an element. -/
def rename (tag : String) : Dom :=
  d.modifyElement id fun e => { e with tag }

/-- Changes the data of a text or a comment, or the name of a document type. -/
def setData (data : String) : Dom :=
  d.modifyContent id fun
    | .text _ => .text data
    | .comment _ => .comment data
    | .doctype _ => .doctype data
    | c => c

end Dom

end Restyle
