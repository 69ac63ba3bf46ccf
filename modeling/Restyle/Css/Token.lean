import Restyle.Decimal.Basic
import Restyle.Decimal.Shortest
import Restyle.Text.Ascii

/-!
# Style sheet tokens

`Token` is the vocabulary of a style sheet. A `Lexeme` is a token together with the source text it
was read from and the byte offset where that text starts.
-/

namespace Restyle.Css

/-- Whether what follows the `#` of a hash token is an identifier. -/
inductive HashKind where
  /-- An identifier follows. -/
  | id
  /-- Name characters follow, but not an identifier. -/
  | unrestricted
deriving DecidableEq, Repr

/-- The tokens of a style sheet. -/
inductive Token where
  /-- An identifier, with its escapes resolved. -/
  | ident (name : String)
  /-- A name with the opening parenthesis after it. -/
  | function (name : String)
  /-- A name with the `@` before it. -/
  | atKeyword (name : String)
  /-- Name characters with the `#` before them. -/
  | hash (name : String) (kind : HashKind)
  /-- A quoted string, with its escapes resolved. -/
  | string (value : String)
  /-- A string that a line feed breaks off. -/
  | badString
  /-- An unquoted address inside `url()`. -/
  | url (value : String)
  /-- An address that breaks the rules of an unquoted one. -/
  | badUrl
  /-- A character with no other meaning. -/
  | delim (c : Char)
  /-- A number; a whole one has neither a point nor an exponent. -/
  | number (value : Decimal) (whole : Bool)
  /-- A number with `%` after it. -/
  | percentage (value : Decimal)
  /-- A number with a unit after it. -/
  | dimension (value : Decimal) (unit : String)
  /-- A run of white space, or a comment between two words. -/
  | whitespace
  /-- The mark `<!--`. -/
  | cdo
  /-- The mark `-->`. -/
  | cdc
  /-- The character `:`. -/
  | colon
  /-- The character `;`. -/
  | semicolon
  /-- The character `,`. -/
  | comma
  /-- The character `[`. -/
  | leftBracket
  /-- The character `]`. -/
  | rightBracket
  /-- The character `(`. -/
  | leftParen
  /-- The character `)`. -/
  | rightParen
  /-- The character `{`. -/
  | leftBrace
  /-- The character `}`. -/
  | rightBrace
  /-- The end of the text. -/
  | eof
deriving DecidableEq, Repr

namespace HashKind

/-- The name of the kind. -/
def name : HashKind → String
  | id => "id"
  | unrestricted => "unrestricted"

end HashKind

namespace Token

/-- A description of the token for people, in angle brackets. -/
def describe : Token → String
  | ident v => "<ident:" ++ v ++ ">"
  | function v => "<function:" ++ v ++ "(>"
  | atKeyword v => "<at-keyword:@" ++ v ++ ">"
  | hash v kind => "<hash:#" ++ v ++ " (" ++ kind.name ++ ")>"
  | string v => "<string:\"" ++ v ++ "\">"
  | badString => "<bad-string>"
  | url v => "<url:" ++ v ++ ">"
  | badUrl => "<bad-url>"
  | delim c => "<delim:" ++ c.toString ++ ">"
  | number v _ => "<number:" ++ Shortest.text v.toFloat ++ ">"
  | percentage v => "<percentage:" ++ Shortest.text v.toFloat ++ "%>"
  | dimension v unit => "<dimension:" ++ Shortest.text v.toFloat ++ unit ++ ">"
  | whitespace => "<whitespace>"
  | cdo => "<CDO>"
  | cdc => "<CDC>"
  | colon => "<colon>"
  | semicolon => "<semicolon>"
  | comma => "<comma>"
  | leftBracket => "<[>"
  | rightBracket => "<]>"
  | leftParen => "<(>"
  | rightParen => "<)>"
  | leftBrace => "<\x7b>"
  | rightBrace => "<\x7d>"
  | eof => "<EOF>"

/-- Tokens that end in name characters or digits, so that more of those would extend them. -/
def isWord : Token → Bool
  | ident _ | atKeyword _ | hash _ _ | number _ _ | percentage _ | dimension _ _ => true
  | _ => false

/-- Tokens that open a group: a function, a parenthesis or a bracket. -/
def opensGroup : Token → Bool
  | function _ | leftParen | leftBracket => true
  | _ => false

/-- Tokens that close a group. -/
def closesGroup : Token → Bool
  | rightParen | rightBracket => true
  | _ => false

end Token

/-- A token and where it was read. -/
structure Lexeme where
  /-- The token. -/
  token : Token
  /-- The source text of the token; empty at the end, and for a comment read as white space. -/
  source : String
  /-- The byte offset where the source text starts. -/
  start : Nat
deriving DecidableEq, Repr

namespace Lexeme

/-- The byte offset just past the source text. -/
def stop (l : Lexeme) : Nat :=
  l.start + Text.bytes l.source

/-- The text that stands for the token: its source text, or one space where a comment stands for
white space. -/
def raw (l : Lexeme) : String :=
  if l.token = .whitespace ∧ l.source = "" then " " else l.source

end Lexeme

end Restyle.Css
