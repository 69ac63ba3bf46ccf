import Restyle.Dom.Traversal
import Restyle.Log
import Restyle.Selector.Parser
import Restyle.Text.Search

/-!
# Matching selectors

`Complex.holds` says whether a selector matches a node, and `select`, `selectFirst?` and `selectAny`
look for the elements of a document that match a list. The functions on `Dom` do the same for a
selector text; `findAll`, `findFirst?` and `findAny` take a text that is an error for one that
matches nothing, and log the error.
-/

namespace Restyle.Selector

/-! ## Conditions on one element -/

/-- Whether the value of an attribute passes the comparison with `expected`. -/
def AttributeOperator.compare (op : AttributeOperator) (expected actual : String) : Bool :=
  let e := expected.toList
  let a := actual.toList
  match op with
  | present => true
  | equals => actual == expected
  | includes => (Text.words actual).contains expected
  | dashMatch => actual == expected || (e ++ ['-']).isPrefixOf a
  | startsWith => !e.isEmpty && e.isPrefixOf a
  | endsWith => !e.isEmpty && e.isSuffixOf a
  | contains => !e.isEmpty && Text.occursIn e a

/-- Whether an element passes the condition on an attribute. -/
def AttributeTest.holds (t : AttributeTest) (e : Element) : Bool :=
  match e.get? t.name with
  | none => false
  | some actual =>
    if t.ignoresCase then t.operator.compare (Text.lower t.value) (Text.lower actual)
    else t.operator.compare t.value actual

/-- The siblings before a node that are elements, the nearest first. -/
def precedingElements (d : Dom) (id : NodeId) : List NodeId :=
  (d.precedingSiblings id).filter d.isElement

/-- The siblings after a node that are elements. -/
def followingElements (d : Dom) (id : NodeId) : List NodeId :=
  (d.followingSiblings id).filter d.isElement

/-- Whether a node is an element with the same tag, up to the case of letters. -/
def hasTag (d : Dom) (tag : String) (id : NodeId) : Bool :=
  (d.tag? id).any (Text.sameLetters tag)

/-- Whether a node does not keep its parent from being empty. -/
def isNegligible (d : Dom) (id : NodeId) : Bool :=
  match d.content? id with
  | some (.text data) => data.toList.all Text.isSpace
  | some (.comment _) => true
  | _ => false

/-- Elements that can be disabled. -/
def formControls : List String :=
  ["button", "fieldset", "input", "optgroup", "option", "select", "textarea"]

/-- Whether a control is checked or an option selected. -/
def isChecked (e : Element) : Bool :=
  if e.tag == "input" then
    e.has "checked" &&
      (e.get? "type").any fun t => Text.sameLetters t "checkbox" || Text.sameLetters t "radio"
  else e.tag == "option" && e.has "selected"

/-- Whether the element `e`, which is the node `id`, satisfies a condition on its place or state. -/
def PseudoClass.holds (d : Dom) (id : NodeId) (e : Element) : PseudoClass → Bool
  | root => d.documentElement? == some id
  | firstChild => (precedingElements d id).isEmpty
  | lastChild => (followingElements d id).isEmpty
  | onlyChild => (precedingElements d id).isEmpty && (followingElements d id).isEmpty
  | firstOfType => !(precedingElements d id).any (hasTag d e.tag)
  | lastOfType => !(followingElements d id).any (hasTag d e.tag)
  | empty => (d.children id).all (isNegligible d)
  | link => ["a", "area"].contains e.tag && e.has "href"
  | enabled => formControls.contains e.tag && !e.has "disabled"
  | disabled => formControls.contains e.tag && e.has "disabled"
  | checked => isChecked e

mutual

/-- Whether the element `e`, which is the node `id`, satisfies a condition. -/
def Simple.holds (d : Dom) (id : NodeId) (e : Element) : Simple → Bool
  | .type tag => Text.sameLetters e.tag tag
  | .className name => e.hasClass name
  | .id name => e.get? "id" == some name
  | .universal => true
  | .attributeTest test => test.holds e
  | .pseudo p => p.holds d id e
  | .not compounds => !anyHolds d id e compounds

/-- Whether the element satisfies all conditions of a list. -/
def allHold (d : Dom) (id : NodeId) (e : Element) : List Simple → Bool
  | [] => true
  | x :: xs => Simple.holds d id e x && allHold d id e xs

/-- Whether the element satisfies all conditions of one of the lists. -/
def anyHolds (d : Dom) (id : NodeId) (e : Element) : List (List Simple) → Bool
  | [] => false
  | c :: cs => allHold d id e c || anyHolds d id e cs

end

/-- Whether a node is an element that satisfies a compound. -/
def Compound.holds (d : Dom) (c : Compound) (id : NodeId) : Bool :=
  (d.element? id).any fun e => allHold d id e c

/-! ## Conditions on what is around an element -/

/-- The nodes that a combinator leads to from a node. -/
def Combinator.reach (d : Dom) (k : Combinator) (id : NodeId) : List NodeId :=
  match k with
  | descendant => d.ancestors id
  | child => (d.parent? id).toList
  | nextSibling => (precedingElements d id).take 1
  | subsequentSibling => precedingElements d id

/-- Whether the compounds of a chain are satisfied, one after the other, on a way that starts at a
node. All ways are tried. -/
def chainHolds (d : Dom) : List (Combinator × Compound) → NodeId → Bool
  | [], _ => true
  | (k, c) :: chain, id =>
    (k.reach d id).any fun other => Compound.holds d c other && chainHolds d chain other

/-- Whether a selector matches a node. -/
def Complex.holds (d : Dom) (c : Complex) (id : NodeId) : Bool :=
  Compound.holds d c.subject id && chainHolds d c.chain id

/-! ## Looking for elements -/

/-- The elements that match a selector of the list, in tree order. -/
def select (d : Dom) (cs : List Complex) : List NodeId :=
  d.elements.filter fun id => cs.any fun c => c.holds d id

/-- The first element that matches a selector of the list. -/
def selectFirst? (d : Dom) (cs : List Complex) : Option NodeId :=
  d.elements.find? fun id => cs.any fun c => c.holds d id

/-- Whether an element matches a selector of the list. -/
def selectAny (d : Dom) (cs : List Complex) : Bool :=
  (selectFirst? d cs).isSome

/-- Logs why a selector text matches nothing. -/
def Error.report (e : Error) (text : String) (log : Log) : Log :=
  log.notice "Selector" ("'" ++ text ++ "': " ++ e.message)

/-- What a reading of a selector text gives, or `fallback` with the error logged. -/
def orReport {α : Type} (text : String) (fallback : α) (result : Except Error α) (log : Log) :
    α × Log :=
  match result with
  | .ok a => (a, log)
  | .error e => (fallback, e.report text log)

end Restyle.Selector

namespace Restyle.Dom

open Selector

variable (d : Dom) (selector : String)

/-- The elements that match a selector text. -/
def selectAll : Except Error (List NodeId) :=
  (parse selector).map (select d)

/-- The first element that matches a selector text. -/
def selectFirst : Except Error (Option NodeId) :=
  (parse selector).map (selectFirst? d)

/-- Whether an element matches a selector text. -/
def selectAny : Except Error Bool :=
  (parse selector).map (Selector.selectAny d)

/-- The elements that match a selector text; none if it is an error. -/
def findAll (log : Log) : List NodeId × Log :=
  orReport selector [] (d.selectAll selector) log

/-- The first element that matches a selector text; none if it is an error. -/
def findFirst? (log : Log) : Option NodeId × Log :=
  orReport selector none (d.selectFirst selector) log

/-- Whether an element matches a selector text; not so if it is an error. -/
def findAny (log : Log) : Bool × Log :=
  orReport selector false (d.selectAny selector) log

end Restyle.Dom
