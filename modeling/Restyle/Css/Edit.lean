import Restyle.Css.Printer
import Restyle.Css.Walk

/-!
# Edits by text

A list of edits changes the nodes whose text it names while a walk goes over the sheet. The walk
reports the texts of all nodes it visits.
-/

namespace Restyle.Css

/-- What becomes of a node with a given text. -/
structure Edit (α : Type) where
  /-- The text of the nodes to change, or `none` for every node. -/
  target : Option String
  /-- The node to put in their place, or `none` to remove them. -/
  replacement : Option α

namespace Edit

variable {α : Type}

/-- The first edit that applies to a node with this text. -/
def find? (edits : List (Edit α)) (text : String) : Option (Edit α) :=
  edits.find? fun e => e.target.all (· == text)

/-- Applies the first edit that fits and notes the text of the node. -/
def visit (edits : List (Edit α)) (css : α → String) : Visit (List String) α := fun node => do
  let text := css node
  modify (text :: ·)
  return match find? edits text with
    | some e => e.replacement
    | none => some node

/-- The number of nodes that the edits can put below each other. -/
def growth [Walkable α] (edits : List (Edit α)) : Nat :=
  Walkable.sizeAll (edits.filterMap replacement)

end Edit

namespace Stylesheet

/-- Edits the rules of the given kinds; returns the texts visited and the sheet. -/
def editRules (kinds : List NodeKind) (edits : List (Edit Rule)) (s : Stylesheet) :
    List String × Stylesheet :=
  let (sheet, visited) := s.walkRules kinds (Edit.visit edits Rule.css) (Edit.growth edits) []
  (visited.reverse, sheet)

/-- Edits the declarations; returns the texts visited and the sheet. -/
def editDeclarations (edits : List (Edit Declaration)) (s : Stylesheet) :
    List String × Stylesheet :=
  let (sheet, visited) :=
    s.walkDeclarations (Edit.visit edits Declaration.css) (Edit.growth edits) []
  (visited.reverse, sheet)

/-- Edits the values of the given kinds; returns the texts visited and the sheet. -/
def editValues (kinds : List NodeKind) (edits : List (Edit Value)) (s : Stylesheet) :
    List String × Stylesheet :=
  let (sheet, visited) := s.walkValues kinds (Edit.visit edits Value.css) (Edit.growth edits) []
  (visited.reverse, sheet)

end Stylesheet

end Restyle.Css
