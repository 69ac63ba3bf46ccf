import Restyle.Text.Ascii
import Restyle.Text.Printable

/-!
# Quoted characters

A character between single quotes. The quote, the backslash and the common controls have short
escapes; other characters that do not show are written by their code point.
-/

namespace Restyle.Text

/-- The text that stands for a character between single quotes. -/
def escaped (c : Char) : String :=
  match c with
  | '\x00' => "\\0"
  | '\t' => "\\t"
  | '\n' => "\\n"
  | '\r' => "\\r"
  | '\'' => "\\'"
  | '\\' => "\\\\"
  | c => if isPrintable c then c.toString else "\\u\x7b" ++ hexDigits 1 c.toNat ++ "\x7d"

/-- A character between single quotes. -/
def quoted (c : Char) : String :=
  "'" ++ escaped c ++ "'"

end Restyle.Text
