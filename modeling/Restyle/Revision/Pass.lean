import Restyle.Color.Function
import Restyle.Css.Walk
import Restyle.Revision.Hidden
import Restyle.Selector.Matching

/-!
# Passes over a style sheet

`grayed` replaces colors by grays, `withoutHidden` takes out the rules that hide content, and
`withoutDead` the selectors that match nothing. Each returns the sheet with what it has to say about
it. A pass is named by its `PassKind`.
-/

namespace Restyle

namespace Css

namespace Rule

mutual

/-- The rule without the conditional groups in it that hold no rules; `none` if it is one. -/
def pruned? : Rule → Option Rule
  | group head rules =>
    match prunedAll rules with
    | [] => none
    | r :: rs => some (group head (r :: rs))
  | r => some r

/-- The rules without the conditional groups that hold no rules, the innermost first. -/
def prunedAll : List Rule → List Rule
  | [] => []
  | r :: rs => (pruned? r).toList ++ prunedAll rs

end

end Rule

namespace Stylesheet

/-- The sheet without conditional groups that hold no rules. -/
def pruned (s : Stylesheet) : Stylesheet :=
  ⟨Rule.prunedAll s.rules⟩

/-- The visit that puts a gray in the place of a color and counts it. -/
def grayVisit : Visit Nat Value := fun v => do
  match v.grayed? with
  | none => return some v
  | some gray =>
    modify (· + 1)
    return some gray

/-- The sheet with grays for colors, and the number of values replaced. -/
def grayed (s : Stylesheet) : Stylesheet × Nat :=
  s.walkValues [.identifier, .hexColor, .functionCall] grayVisit 0 0

/-- The visit that removes the style rules with a declaration for the target and keeps them. -/
def hiddenVisit (t : Revision.HiddenTarget) : Visit (List StyleRule) Rule := fun r => do
  match r with
  | .style rule =>
    if rule.declarations.any t.matchesDeclaration then
      modify (· ++ [rule])
      return none
    else return some r
  | r => return some r

/-- The sheet without the rules that hide content, and the rules taken out. -/
def withoutHidden (s : Stylesheet) (t : Revision.HiddenTarget) : Stylesheet × List StyleRule :=
  let (sheet, removed) := s.walkRules [.rule] (hiddenVisit t) 0 []
  (sheet.pruned, removed)

/-- Whether a selector matches an element or cannot be evaluated. -/
def isAlive (d : Dom) (selector : String) : Bool :=
  match d.selectAny selector with
  | .ok found => found
  | .error _ => true

/-- The visit that drops the selectors that match nothing, and with the last one the rule, which it
counts. -/
def deadVisit (d : Dom) : Visit Nat Rule := fun r => do
  match r with
  | .style rule =>
    let selectors := rule.selectors.filter (isAlive d)
    if selectors.isEmpty then
      modify (· + 1)
      return none
    else return some (.style { rule with selectors })
  | r => return some r

/-- The sheet without the selectors that match nothing in a document, and the number of rules that
went with them. -/
def withoutDead (s : Stylesheet) (d : Dom) : Stylesheet × Nat :=
  let (sheet, removed) := s.walkRules [.rule] (deadVisit d) 0 0
  (sheet.pruned, removed)

end Stylesheet

end Css

namespace Revision

/-- The passes. -/
inductive PassKind where
  /-- Colors become grays. -/
  | grayscale
  /-- Rules that hide content go, with the elements they hide. -/
  | removeHidden
  /-- Selectors that match nothing go. -/
  | deadCode
deriving DecidableEq, Repr

namespace PassKind

/-- All passes. -/
def all : List PassKind :=
  [grayscale, removeHidden, deadCode]

/-- The name of a pass. -/
def name : PassKind → String
  | grayscale => "grayscale"
  | removeHidden => "remove-hidden"
  | deadCode => "dead-code"

/-- The pass with the given name, up to the case of letters. -/
def ofName? (s : String) : Option PassKind :=
  all.find? fun k => Text.sameLetters k.name s

/-- Whether the pass goes over the attributes `style` too. -/
def revisesInline : PassKind → Bool
  | grayscale => true
  | _ => false

end PassKind

/-- Passes in their order, and what they take for hidden. -/
structure Pipeline where
  /-- The passes, the first one first. -/
  passes : List PassKind
  /-- What hides content. -/
  hidden : HiddenTarget
deriving DecidableEq, Repr

end Revision

end Restyle
