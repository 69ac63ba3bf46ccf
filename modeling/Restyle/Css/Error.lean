/-!
# Why a style sheet is refused

Every reason names the byte offset that it is about; `ParseError.message` is its wording.
-/

namespace Restyle.Css

/-- What is wrong inside a block of declarations. -/
inductive DeclarationFault where
  /-- The text stands where a property name should. -/
  | notAProperty (found : String)
  /-- The name is not followed by a colon. -/
  | missingColon (name : String)
  /-- A block opens inside a value. -/
  | braceInValue
  /-- The text of an attribute is more or other than one list of declarations. -/
  | notOneList
deriving DecidableEq, Repr

/-- Why a style sheet is refused. -/
inductive ParseError where
  /-- A `}` that closes nothing. -/
  | unexpectedCloseBrace (offset : Nat)
  /-- A block that is still open at the end of the text. -/
  | unclosedBlock (offset : Nat)
  /-- A function, parenthesis or bracket that is still open where its surroundings end. -/
  | unclosedGroup (offset : Nat)
  /-- A `)` or `]` that closes nothing. -/
  | unbalancedGroup (found : Char) (offset : Nat)
  /-- A selector list with an empty entry. -/
  | emptySelector (offset : Nat)
  /-- A rule without a block. -/
  | missingBlock (offset : Nat)
  /-- Something other than a declaration in a block of declarations. -/
  | invalidDeclaration (offset : Nat) (fault : DeclarationFault)
  /-- A string that a line feed breaks off. -/
  | badString (offset : Nat)
  /-- A malformed address. -/
  | badUrl (offset : Nat)
deriving DecidableEq, Repr

/-- The wording of a fault. -/
def DeclarationFault.message : DeclarationFault → String
  | notAProperty found => "expected a property name, found `" ++ found ++ "`"
  | missingColon name => "expected `:` after `" ++ name ++ "`"
  | braceInValue => "unexpected `\x7b` in value"
  | notOneList => "style attribute is not a single declaration list"

namespace ParseError

/-- The byte offset that the reason is about. -/
def offset : ParseError → Nat
  | unexpectedCloseBrace o | unclosedBlock o | unclosedGroup o | unbalancedGroup _ o
  | emptySelector o | missingBlock o | invalidDeclaration o _ | badString o | badUrl o => o

/-- The wording of a reason. -/
def message : ParseError → String
  | unexpectedCloseBrace o => "unexpected `\x7d` at offset " ++ toString o
  | unclosedBlock o => "block opened at offset " ++ toString o ++ " is never closed"
  | unclosedGroup o => "group opened at offset " ++ toString o ++ " is never closed"
  | unbalancedGroup c o => "unbalanced `" ++ c.toString ++ "` at offset " ++ toString o
  | emptySelector o => "empty selector at offset " ++ toString o
  | missingBlock o => "rule at offset " ++ toString o ++ " has no block"
  | invalidDeclaration o fault =>
    "invalid declaration at offset " ++ toString o ++ ": " ++ fault.message
  | badString o => "unterminated string at offset " ++ toString o
  | badUrl o => "malformed url() at offset " ++ toString o

end ParseError

end Restyle.Css
