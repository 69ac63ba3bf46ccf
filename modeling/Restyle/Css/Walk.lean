import Restyle.Css.Sheet

/-!
# Walking a style sheet

A walk visits rules, declarations or values in order and may change, replace or remove each one it
visits. A node that comes out of a visit is not visited again, but its own children are walked next,
whichever node is now in the place. `walk` moves along one list and goes down through a function
that it is given, so it stops at the depth of its first argument; the depth of the tree is enough
when no visit makes a node larger.
-/

namespace Restyle.Css

/-- The kinds of nodes, by which a walk selects what it visits. -/
inductive NodeKind where
  /-- A style rule. -/
  | rule
  /-- An at-rule. -/
  | atRule
  /-- A declaration. -/
  | declaration
  /-- An identifier in a value. -/
  | identifier
  /-- A hex color in a value. -/
  | hexColor
  /-- A function call in a value. -/
  | functionCall
  /-- Any other source text in a value. -/
  | other
deriving DecidableEq, Repr

namespace NodeKind

/-- All kinds. -/
def all : List NodeKind :=
  [rule, atRule, declaration, identifier, hexColor, functionCall, other]

/-- The name of a kind. -/
def name : NodeKind → String
  | rule => "rule"
  | atRule => "at-rule"
  | declaration => "declaration"
  | identifier => "identifier"
  | hexColor => "hex-color"
  | functionCall => "function-call"
  | other => "other"

/-- The kind with this name. -/
def ofName? (s : String) : Option NodeKind :=
  all.find? fun k => k.name = s

end NodeKind

namespace Value

/-- The kind of a value. -/
def kind : Value → NodeKind
  | identifier _ => .identifier
  | hexColor _ => .hexColor
  | call _ _ => .functionCall
  | other _ => .other

mutual

/-- The number of nodes of a value. -/
def size : Value → Nat
  | call _ args => sizeAll args + 1
  | _ => 1

/-- The number of nodes of a list of values. -/
def sizeAll : List Value → Nat
  | [] => 0
  | v :: vs => size v + sizeAll vs

end

end Value

namespace Rule

/-- The kind of a rule. -/
def kind : Rule → NodeKind
  | style _ => .rule
  | _ => .atRule

mutual

/-- The number of rules in a rule, itself included. -/
def size : Rule → Nat
  | group _ rules => sizeAll rules + 1
  | _ => 1

/-- The number of rules in a list of rules, at any depth. -/
def sizeAll : List Rule → Nat
  | [] => 0
  | r :: rs => size r + sizeAll rs

end

end Rule

/-- Nodes that can be walked. A node may own a list of nodes of its own type. -/
class Walkable (α : Type) where
  /-- The kind of a node. -/
  kind : α → NodeKind
  /-- The list that a node owns. -/
  children : α → List α
  /-- The node with another list, where it owns one. -/
  withChildren : α → List α → α
  /-- The number of nodes in a list, at any depth. -/
  sizeAll : List α → Nat

instance : Walkable Rule where
  kind := Rule.kind
  children
    | .group _ rules => rules
    | _ => []
  withChildren
    | .group head _, rules => .group head rules
    | r, _ => r
  sizeAll := Rule.sizeAll

instance : Walkable Declaration where
  kind _ := .declaration
  children _ := []
  withChildren d _ := d
  sizeAll := List.length

instance : Walkable Value where
  kind := Value.kind
  children
    | .call _ args => args
    | _ => []
  withChildren
    | .call name _, args => .call name args
    | v, _ => v
  sizeAll := Value.sizeAll

section

variable {α σ : Type} [Walkable α]

/-- What a visit makes of a node: the node that takes its place, or `none` to remove it. -/
abbrev Visit (σ α : Type) := α → StateM σ (Option α)

/-- Moves along the list `todo`, with what is finished in `done`, last first. The children of each
node that stays are handed to `down`. -/
def walkList (kinds : List NodeKind) (visit : Visit σ α) (down : List α → StateM σ (List α)) :
    List α → List α → StateM σ (List α)
  | done, [] => return done.reverse
  | done, x :: todo => do
    let result ← if kinds.contains (Walkable.kind x) then visit x else pure (some x)
    match result with
    | none => walkList kinds visit down done todo
    | some y => do
      let children ← down (Walkable.children y)
      walkList kinds visit down (Walkable.withChildren y children :: done) todo

/-- Walks a list of nodes and the nodes below them, down to `depth` levels. -/
def walk (kinds : List NodeKind) (visit : Visit σ α) : Nat → List α → StateM σ (List α)
  | 0, nodes => return nodes
  | depth + 1, nodes => walkList kinds visit (walk kinds visit depth) [] nodes

/-- Walks a list of nodes with visits that add at most `growth` nodes on the way to any one node. -/
def walkAll (kinds : List NodeKind) (visit : Visit σ α) (growth : Nat) (nodes : List α) :
    StateM σ (List α) :=
  walk kinds visit (Walkable.sizeAll nodes + growth + 1) nodes

end

section

variable {σ : Type}

namespace Rule

/-- Applies `f` to the declarations of every step of an animation. -/
def forFrames (f : List Declaration → StateM σ (List Declaration)) :
    List Keyframe → StateM σ (List Keyframe)
  | [] => return []
  | frame :: frames => do
    let declarations ← f frame.declarations
    let frames ← forFrames f frames
    return { frame with declarations } :: frames

mutual

/-- Applies `f` to every list of declarations in a rule. -/
def forDeclarations (f : List Declaration → StateM σ (List Declaration)) : Rule → StateM σ Rule
  | style r => do return style { r with declarations := ← f r.declarations }
  | group head rules => do return group head (← forDeclarationsAll f rules)
  | descriptors head ds => do return descriptors head (← f ds)
  | keyframes head frames => do return keyframes head (← forFrames f frames)
  | statement head => return statement head
  | raw head text => return raw head text

/-- Applies `f` to every list of declarations in a list of rules, in order. -/
def forDeclarationsAll (f : List Declaration → StateM σ (List Declaration)) :
    List Rule → StateM σ (List Rule)
  | [] => return []
  | r :: rs => do
    let r ← forDeclarations f r
    let rs ← forDeclarationsAll f rs
    return r :: rs

end

end Rule

/-- Applies `f` to the value of each declaration, in order. -/
def Declaration.forValues (f : List Value → StateM σ (List Value)) :
    List Declaration → StateM σ (List Declaration)
  | [] => return []
  | d :: ds => do
    let value ← f d.value
    let ds ← forValues f ds
    return { d with value } :: ds

namespace Stylesheet

/-- Walks the rules of the given kinds, those of conditional groups included. -/
def walkRules (kinds : List NodeKind) (visit : Visit σ Rule) (growth : Nat) (s : Stylesheet) :
    StateM σ Stylesheet := do
  return ⟨← walkAll kinds visit growth s.rules⟩

/-- Walks the declarations of style rules, at-rules and animations. -/
def walkDeclarations (visit : Visit σ Declaration) (growth : Nat) (s : Stylesheet) :
    StateM σ Stylesheet := do
  return ⟨← Rule.forDeclarationsAll (walkAll [.declaration] visit growth) s.rules⟩

/-- Walks the values of the given kinds in every declaration, arguments of functions included. -/
def walkValues (kinds : List NodeKind) (visit : Visit σ Value) (growth : Nat) (s : Stylesheet) :
    StateM σ Stylesheet := do
  return ⟨← Rule.forDeclarationsAll (Declaration.forValues (walkAll kinds visit growth)) s.rules⟩

end Stylesheet

end

end Restyle.Css
