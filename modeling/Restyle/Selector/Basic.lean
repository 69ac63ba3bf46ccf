import Restyle.Dom.Basic

/-!
# Selectors

A `Simple` selector is one condition on an element, a `Compound` several of them, and a `Complex`
selector a compound with the conditions on the elements around its subject. A selector text is a
list of complex selectors.
-/

namespace Restyle.Selector

/-- How an attribute is compared with a value. -/
inductive AttributeOperator where
  /-- The attribute is there. -/
  | present
  /-- It has this value. -/
  | equals
  /-- The value is one of its words. -/
  | includes
  /-- It is the value, or starts with the value and a hyphen. -/
  | dashMatch
  /-- It starts with the value. -/
  | startsWith
  /-- It ends with the value. -/
  | endsWith
  /-- The value occurs in it. -/
  | contains
deriving DecidableEq, Repr

/-- The sign of an operator; none for mere presence. -/
def AttributeOperator.sign : AttributeOperator → String
  | present => ""
  | equals => "="
  | includes => "~="
  | dashMatch => "|="
  | startsWith => "^="
  | endsWith => "$="
  | contains => "*="

/-- A condition on an attribute. -/
structure AttributeTest where
  /-- The name of the attribute, in lower case. -/
  name : String
  /-- The comparison. -/
  operator : AttributeOperator
  /-- The value to compare with. -/
  value : String
  /-- Whether the case of ASCII letters is ignored. -/
  ignoresCase : Bool
deriving DecidableEq, Repr

/-- Conditions on the place of an element or on its state as the document has it. -/
inductive PseudoClass where
  /-- The document element. -/
  | root
  /-- The first element of its parent. -/
  | firstChild
  /-- The last element of its parent. -/
  | lastChild
  /-- The first element of its parent with its tag. -/
  | firstOfType
  /-- The last element of its parent with its tag. -/
  | lastOfType
  /-- The only element of its parent. -/
  | onlyChild
  /-- An element that holds nothing but white space and comments. -/
  | empty
  /-- A link. -/
  | link
  /-- A form control that is not disabled. -/
  | enabled
  /-- A form control that is disabled. -/
  | disabled
  /-- A control that is checked or selected. -/
  | checked
deriving DecidableEq, Repr

/-- A condition on one element. -/
inductive Simple where
  /-- The tag, in lower case. -/
  | type (tag : String)
  /-- A word of the attribute `class`. -/
  | className (name : String)
  /-- The value of the attribute `id`. -/
  | id (name : String)
  /-- Every element. -/
  | universal
  /-- A condition on an attribute. -/
  | attributeTest (test : AttributeTest)
  /-- A condition on the place or the state. -/
  | pseudo (p : PseudoClass)
  /-- None of some compounds holds. -/
  | not (compounds : List (List Simple))
deriving Repr

/-- Conditions that hold together on one element. -/
abbrev Compound := List Simple

/-- How an element is reached from another one. -/
inductive Combinator where
  /-- An ancestor. -/
  | descendant
  /-- The parent. -/
  | child
  /-- The nearest element before it among its siblings. -/
  | nextSibling
  /-- Any element before it among its siblings. -/
  | subsequentSibling
deriving DecidableEq, Repr

/-- A compound and what has to be around its element. -/
structure Complex where
  /-- The rightmost compound. -/
  subject : Compound
  /-- The other compounds from right to left, each with the way to its element. -/
  chain : List (Combinator × Compound)
deriving Repr

/-- The selector with one more compound on its right. -/
def Complex.extend (c : Complex) (k : Combinator) (subject : Compound) : Complex :=
  ⟨subject, (k, c.subject) :: c.chain⟩

/-- Why a selector cannot be read or evaluated. -/
inductive Error where
  /-- Nothing is written. -/
  | empty
  /-- A character in the wrong place, with the bytes before it. -/
  | unexpectedChar (found : Char) (offset : Nat)
  /-- The text ends too early. -/
  | unexpectedEnd
  /-- A combinator with nothing on its right. -/
  | danglingCombinator
  /-- A hyphen that does not start an identifier. -/
  | invalidIdentifier (name : String)
  /-- A part of an element. -/
  | pseudoElement (name : String)
  /-- A condition that depends on what people do. -/
  | dynamicPseudoClass (name : String)
  /-- Any other condition after a colon. -/
  | unsupportedPseudoClass (name : String)
deriving DecidableEq, Repr

/-- The text of an error. -/
def Error.message : Error → String
  | empty => "empty selector"
  | unexpectedChar found offset =>
    "unexpected '" ++ found.toString ++ "' at offset " ++ offset.repr
  | unexpectedEnd => "unexpected end of selector"
  | danglingCombinator => "combinator without a right-hand selector"
  | invalidIdentifier name => "invalid identifier '" ++ name ++ "'"
  | pseudoElement name => "pseudo-element '::" ++ name ++ "' cannot be matched"
  | dynamicPseudoClass name =>
    "dynamic pseudo-class ':" ++ name ++ "' cannot be matched statically"
  | unsupportedPseudoClass name => "unsupported pseudo-class ':" ++ name ++ "'"

end Restyle.Selector
