/-!
# Searching in texts

Prefixes that are stripped off, and the places at which a text occurs in another one.
-/

namespace Restyle.Text

/-- What follows `word` at the front of a text. -/
def strip? (word s : List Char) : Option (List Char) :=
  if word.isPrefixOf s then some (s.drop word.length) else none

/-- Whether a text occurs in another one. -/
def occursIn (word : List Char) : List Char → Bool
  | [] => word.isEmpty
  | c :: r => word.isPrefixOf (c :: r) || occursIn word r

/-- What follows the occurrences of `word`, which is not empty, from left to right. The search goes
on after the end of each occurrence. -/
def afterEach (word : List Char) (s : List Char) : List (List Char) :=
  match s with
  | [] => []
  | c :: r =>
    if word.isEmpty then []
    else if word.isPrefixOf (c :: r) then
      (c :: r).drop word.length :: afterEach word (r.drop (word.length - 1))
    else afterEach word r
termination_by s.length
decreasing_by all_goals simp only [List.length_drop, List.length_cons]; omega

end Restyle.Text
