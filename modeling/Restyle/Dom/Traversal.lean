import Restyle.Dom.Basic

/-!
# Walking a document tree

`Dom.ancestors` follows the parents and `Dom.descendants` lists what is below a node in tree order.
Both take as many steps as there are nodes: in a tree without cycles a node is met only once.
-/

namespace Restyle

namespace Dom

variable (d : Dom)

/-- The nodes met by following the parents from `id` on, in at most the given number of steps. -/
def climb : Nat → Option NodeId → List NodeId
  | 0, _ => []
  | _, none => []
  | steps + 1, some id => id :: climb steps (d.parent? id)

/-- The ancestors of a node, its parent first. -/
def ancestors (id : NodeId) : List NodeId :=
  d.climb d.size (d.parent? id)

/-- The nodes met in tree order when those on the stack are left to visit, in at most the given
number of steps. -/
def traverse : Nat → List NodeId → List NodeId
  | 0, _ => []
  | _, [] => []
  | steps + 1, id :: stack => id :: traverse steps (d.children id ++ stack)

/-- The nodes below a node, in tree order. -/
def descendants (id : NodeId) : List NodeId :=
  d.traverse d.size (d.children id)

/-- Whether a node is below another one. -/
def isDescendantOf (id ancestor : NodeId) : Bool :=
  (d.ancestors id).contains ancestor

/-- Whether a node is the document or below it. -/
def isConnected (id : NodeId) : Bool :=
  id == root || d.isDescendantOf id root

/-- The siblings before a node, the nearest first, and those after it. -/
def siblings (id : NodeId) : List NodeId × List NodeId :=
  match d.parent? id with
  | none => ([], [])
  | some parent =>
    match (d.children parent).idxOf? id with
    | none => ([], [])
    | some i => (((d.children parent).take i).reverse, (d.children parent).drop (i + 1))

/-- The siblings before a node, the nearest first. -/
def precedingSiblings (id : NodeId) : List NodeId :=
  (d.siblings id).1

/-- The siblings after a node. -/
def followingSiblings (id : NodeId) : List NodeId :=
  (d.siblings id).2

/-- The sibling just before a node. -/
def previousSibling? (id : NodeId) : Option NodeId :=
  (d.precedingSiblings id).head?

/-- The sibling just after a node. -/
def nextSibling? (id : NodeId) : Option NodeId :=
  (d.followingSiblings id).head?

/-- The elements of the document, in tree order. -/
def elements : List NodeId :=
  (d.descendants root).filter d.isElement

/-- The first child of the document that is an element. -/
def documentElement? : Option NodeId :=
  (d.children root).find? d.isElement

/-- The first `body` or `frameset` among the children of the document element. -/
def body? : Option NodeId :=
  d.documentElement?.bind fun html =>
    (d.children html).find? fun id => d.tag? id == some "body" || d.tag? id == some "frameset"

/-- The text of a node and of everything below it. -/
def textContent (id : NodeId) : String :=
  match d.text? id with
  | some data => data
  | none => String.join ((d.descendants id).filterMap d.text?)

end Dom

end Restyle
