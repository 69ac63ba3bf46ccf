import Restyle.Css.Sheet

/-!
# The text of a style sheet

The shortest layout: no white space but a space before a prelude, semicolons between declarations
only, and a semicolon after an at-rule without a block.
-/

namespace Restyle.Css

namespace Value

mutual

/-- The text of a value. -/
def css : Value → String
  | identifier text | other text => text
  | hexColor digits => "#" ++ digits
  | call name args => name ++ "(" ++ cssAll args ++ ")"

/-- The text of a list of values, as it stands after the colon of a declaration. -/
def cssAll : List Value → String
  | [] => ""
  | v :: vs => css v ++ cssAll vs

end

end Value

namespace Declaration

/-- The text of a declaration. -/
def css (d : Declaration) : String :=
  d.name ++ ":" ++ Value.cssAll d.value ++ if d.important then "!important" else ""

/-- The text of a list of declarations without its braces. -/
def cssAll : List Declaration → String
  | [] => ""
  | [d] => d.css
  | d :: ds => d.css ++ ";" ++ cssAll ds

end Declaration

/-- The text of a selector list. -/
def selectorsCss : List String → String
  | [] => ""
  | [s] => s
  | s :: ss => s ++ "," ++ selectorsCss ss

/-- A block around the text of its inside. -/
def braces (inside : String) : String :=
  "\x7b" ++ inside ++ "\x7d"

/-- The text of a style rule. -/
def StyleRule.css (r : StyleRule) : String :=
  selectorsCss r.selectors ++ braces (Declaration.cssAll r.declarations)

/-- The text of a step of an animation. -/
def Keyframe.css (f : Keyframe) : String :=
  f.selector ++ braces (Declaration.cssAll f.declarations)

/-- The text of a list of steps. -/
def Keyframe.cssAll : List Keyframe → String
  | [] => ""
  | f :: fs => f.css ++ cssAll fs

/-- The text of an at-rule before its block. -/
def AtHead.css (h : AtHead) : String :=
  "@" ++ h.name ++ if h.preludeText = "" then "" else " " ++ h.preludeText

namespace Rule

mutual

/-- The text of a rule. -/
def css : Rule → String
  | style r => r.css
  | statement h => h.css ++ ";"
  | group h rules => h.css ++ braces (cssAll rules)
  | descriptors h ds => h.css ++ braces (Declaration.cssAll ds)
  | keyframes h frames => h.css ++ braces (Keyframe.cssAll frames)
  | raw h text => h.css ++ braces text

/-- The text of a list of rules. -/
def cssAll : List Rule → String
  | [] => ""
  | r :: rs => css r ++ cssAll rs

end

end Rule

/-- The text of a style sheet. -/
def Stylesheet.css (s : Stylesheet) : String :=
  Rule.cssAll s.rules

end Restyle.Css
