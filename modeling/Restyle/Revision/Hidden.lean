import Restyle.Css.Sheet
import Restyle.Text.Search

/-!
# What hides content

A `HiddenTarget` is a property with the keyword that hides an element, such as `display: none`.
`matchesDeclaration` looks for it in a declaration, and `matchesInline` in the text of an attribute,
which need not be well-formed.
-/

namespace Restyle.Revision

open Text

/-- A property with the keyword that hides an element. -/
structure HiddenTarget where
  /-- The property; the case of its letters does not matter. -/
  property : String
  /-- The keyword; the case of its letters does not matter. -/
  value : String
deriving DecidableEq, Repr

namespace HiddenTarget

/-- The target `display: none`. -/
def standard : HiddenTarget :=
  ⟨"display", "none"⟩

/-- Whether a value is the keyword. -/
def matchesValue (t : HiddenTarget) : Css.Value → Bool
  | .identifier name => sameLetters name t.value
  | _ => false

/-- Whether a declaration sets the property to a value with the keyword in it. -/
def matchesDeclaration (t : HiddenTarget) (d : Css.Declaration) : Bool :=
  d.declares t.property && d.value.any t.matchesValue

/-- White space around a colon, vertical tabs included. -/
def isGap (c : Char) : Bool :=
  isSpace c || c == '\x0b'

/-- Letters, digits and the underscore. -/
def isWordChar (c : Char) : Bool :=
  c.isAlphanum || c == '_'

/-- Whether a word ends between two texts, or starts there. -/
def isBoundary (before after : List Char) : Bool :=
  before.getLast?.any isWordChar != after.head?.any isWordChar

/-- Whether a text goes on with a colon and the keyword. -/
def continues (value rest : List Char) : Bool :=
  match rest.dropWhile isGap with
  | ':' :: r => (strip? value (r.dropWhile isGap)).any (isBoundary value)
  | _ => false

/-- Whether an occurrence of the property in a text is followed by a colon and the keyword. -/
def matchesInline (t : HiddenTarget) (style : String) : Bool :=
  let property := (lower t.property).toList
  let value := (lower t.value).toList
  !property.isEmpty && !value.isEmpty &&
    (afterEach property (lower style).toList).any (continues value)

end HiddenTarget

end Restyle.Revision
