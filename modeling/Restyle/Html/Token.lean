import Restyle.Attribute
import Restyle.Text.Quoted

/-!
# Markup tokens

The tokens of an HTML text. Text comes as one token for each character.
-/

namespace Restyle.Html

/-- The tokens of an HTML text. -/
inductive Token where
  /-- A document type with its name, if it has one. -/
  | doctype (name : Option String)
  /-- A start tag. -/
  | startTag (name : String) (selfClosing : Bool) (attributes : List Attribute)
  /-- An end tag. -/
  | endTag (name : String)
  /-- A comment. -/
  | comment (data : String)
  /-- A character of text. -/
  | character (c : Char)
  /-- The end of the text. -/
  | endOfFile
deriving DecidableEq, Repr

/-- A name with its value in double quotes, after a space. -/
def describeAttribute (a : Attribute) : String :=
  " " ++ a.name ++ "=\"" ++ a.value ++ "\""

/-- A description of the token for people; values are not escaped. -/
def Token.describe : Token → String
  | doctype name => "<!DOCTYPE " ++ name.getD "" ++ ">"
  | startTag name selfClosing attributes =>
    "<" ++ name ++ String.join (attributes.map describeAttribute) ++
      (if selfClosing then " /" else "") ++ ">"
  | endTag name => "</" ++ name ++ ">"
  | comment data => "<!--" ++ data ++ "-->"
  | character c => Text.quoted c
  | endOfFile => "EOF"

end Restyle.Html
