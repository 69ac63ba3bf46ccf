import Restyle.Text.Ascii

/-!
# Style sheets

The tree of a style sheet. Selectors and preludes stay text, and every piece of a value that cannot
be a color is kept verbatim in `Value.other`.
-/

namespace Restyle.Css

/-- A piece of a declaration value. -/
inductive Value where
  /-- An identifier as written, such as `red` or `none`. -/
  | identifier (text : String)
  /-- The digits of a hex color, without the `#`. -/
  | hexColor (digits : String)
  /-- A function call with the pieces between its parentheses. -/
  | call (name : String) (args : List Value)
  /-- Any other source text. -/
  | other (text : String)
deriving Repr

namespace Value

mutual

/-- Structural equality of values. -/
def same : Value → Value → Bool
  | identifier s, identifier t => s == t
  | hexColor s, hexColor t => s == t
  | call f as, call g bs => f == g && sameAll as bs
  | other s, other t => s == t
  | _, _ => false

/-- Structural equality of lists of values. -/
def sameAll : List Value → List Value → Bool
  | [], [] => true
  | a :: as, b :: bs => same a b && sameAll as bs
  | _, _ => false

end

mutual

theorem eq_of_same : ∀ {a b : Value}, same a b = true → a = b
  | identifier s, identifier t, h => by simpa [same] using h
  | hexColor s, hexColor t, h => by simpa [same] using h
  | other s, other t, h => by simpa [same] using h
  | call f as, call g bs, h => by
    simp only [same, Bool.and_eq_true, beq_iff_eq] at h
    rw [h.1, eq_of_sameAll h.2]
  | identifier _, hexColor _, h | identifier _, call _ _, h | identifier _, other _, h
  | hexColor _, identifier _, h | hexColor _, call _ _, h | hexColor _, other _, h
  | call _ _, identifier _, h | call _ _, hexColor _, h | call _ _, other _, h
  | other _, identifier _, h | other _, hexColor _, h | other _, call _ _, h => by simp [same] at h

theorem eq_of_sameAll : ∀ {as bs : List Value}, sameAll as bs = true → as = bs
  | [], [], _ => rfl
  | a :: as, b :: bs, h => by
    simp only [sameAll, Bool.and_eq_true] at h
    rw [eq_of_same h.1, eq_of_sameAll h.2]
  | [], _ :: _, h | _ :: _, [], h => by simp [sameAll] at h

end

mutual

theorem same_refl : ∀ a : Value, same a a = true
  | identifier _ | hexColor _ | other _ => by simp [same]
  | call _ as => by simp [same, sameAll_refl as]

theorem sameAll_refl : ∀ as : List Value, sameAll as as = true
  | [] => rfl
  | a :: as => by simp [sameAll, same_refl a, sameAll_refl as]

end

instance : DecidableEq Value := fun a b =>
  if h : same a b then isTrue (eq_of_same h) else isFalse fun e => h (e ▸ same_refl a)

end Value

/-- Whether a value is a function call. -/
def Value.isCall : Value → Bool
  | call _ _ => true
  | _ => false

/-- Hex colors have 3, 4, 6 or 8 hexadecimal digits. -/
def Value.isHexColor (digits : String) : Bool :=
  let cs := digits.toList
  (cs.length == 3 || cs.length == 4 || cs.length == 6 || cs.length == 8) && cs.all Text.isHexDigit

/-- A declaration such as `color: red`. -/
structure Declaration where
  /-- The property name as written. -/
  name : String
  /-- The value, without white space at its ends and without `!important`. -/
  value : List Value
  /-- Whether `!important` is written after the value. -/
  important : Bool
deriving DecidableEq, Repr

namespace Declaration

/-- Custom properties have names that start with two hyphens. -/
def isCustomName (name : String) : Bool :=
  ['-', '-'].isPrefixOf name.toList

/-- Whether this declares a custom property. -/
def isCustom (d : Declaration) : Bool :=
  isCustomName d.name

/-- Whether this declares the given property, up to the case of letters. -/
def declares (d : Declaration) (property : String) : Bool :=
  Text.sameLetters d.name property

end Declaration

/-- Selectors with the declarations that hold for them. -/
structure StyleRule where
  /-- The entries of the selector list, as text. -/
  selectors : List String
  /-- The declarations in the block. -/
  declarations : List Declaration
deriving DecidableEq, Repr

/-- A step of an animation. -/
structure Keyframe where
  /-- The text before the block, such as `from` or `0%,50%`. -/
  selector : String
  /-- The declarations in the block. -/
  declarations : List Declaration
deriving DecidableEq, Repr

/-- The part of an at-rule before its block. -/
structure AtHead where
  /-- The name as written, without the `@`. -/
  name : String
  /-- The text between the name and the block. -/
  preludeText : String
deriving DecidableEq, Repr

/-- A rule of a style sheet. -/
inductive Rule where
  /-- Selectors and their declarations. -/
  | style (rule : StyleRule)
  /-- An at-rule without a block. -/
  | statement (head : AtHead)
  /-- A conditional group: an at-rule whose block holds rules. -/
  | group (head : AtHead) (rules : List Rule)
  /-- An at-rule whose block holds declarations. -/
  | descriptors (head : AtHead) (declarations : List Declaration)
  /-- An at-rule whose block holds the steps of an animation. -/
  | keyframes (head : AtHead) (frames : List Keyframe)
  /-- An at-rule whose block is kept as text. -/
  | raw (head : AtHead) (text : String)
deriving Repr

namespace Rule

mutual

/-- Structural equality of rules. -/
def same : Rule → Rule → Bool
  | style r, style s => r == s
  | statement h, statement k => h == k
  | group h rs, group k ss => h == k && sameAll rs ss
  | descriptors h ds, descriptors k es => h == k && ds == es
  | keyframes h fs, keyframes k gs => h == k && fs == gs
  | raw h s, raw k t => h == k && s == t
  | _, _ => false

/-- Structural equality of lists of rules. -/
def sameAll : List Rule → List Rule → Bool
  | [], [] => true
  | r :: rs, s :: ss => same r s && sameAll rs ss
  | _, _ => false

end

mutual

theorem eq_of_same : ∀ {r s : Rule}, same r s = true → r = s
  | group h rs, s, hs => by
    cases s <;> simp only [same, Bool.false_eq_true, Bool.and_eq_true, beq_iff_eq] at hs
    rw [hs.1, eq_of_sameAll hs.2]
  | style _, s, hs | statement _, s, hs | descriptors _ _, s, hs | keyframes _ _, s, hs
  | raw _ _, s, hs => by cases s <;> simp_all [same]

theorem eq_of_sameAll : ∀ {rs ss : List Rule}, sameAll rs ss = true → rs = ss
  | [], [], _ => rfl
  | r :: rs, s :: ss, h => by
    simp only [sameAll, Bool.and_eq_true] at h
    rw [eq_of_same h.1, eq_of_sameAll h.2]
  | [], _ :: _, h | _ :: _, [], h => by simp [sameAll] at h

end

mutual

theorem same_refl : ∀ r : Rule, same r r = true
  | style _ | statement _ | descriptors _ _ | keyframes _ _ | raw _ _ => by simp [same]
  | group _ rs => by simp [same, sameAll_refl rs]

theorem sameAll_refl : ∀ rs : List Rule, sameAll rs rs = true
  | [] => rfl
  | r :: rs => by simp [sameAll, same_refl r, sameAll_refl rs]

end

instance : DecidableEq Rule := fun r s =>
  if h : same r s then isTrue (eq_of_same h) else isFalse fun e => h (e ▸ same_refl r)

mutual

/-- The number of style rules in a rule, those of its group included. -/
def styleCount : Rule → Nat
  | style _ => 1
  | group _ rules => styleCountAll rules
  | _ => 0

/-- The number of style rules in a list of rules, at any depth. -/
def styleCountAll : List Rule → Nat
  | [] => 0
  | r :: rs => styleCount r + styleCountAll rs

end

end Rule

/-- A style sheet. -/
structure Stylesheet where
  /-- The rules in their order. -/
  rules : List Rule
deriving DecidableEq, Repr

/-- The number of style rules at any depth. -/
def Stylesheet.styleCount (s : Stylesheet) : Nat :=
  Rule.styleCountAll s.rules

namespace AtHead

/-- The at-rules whose blocks hold rules. -/
def groupNames : List String :=
  ["-moz-document", "container", "document", "layer", "media", "scope", "starting-style",
    "supports"]

/-- The at-rules whose blocks hold declarations. -/
def descriptorNames : List String :=
  ["-ms-viewport", "counter-style", "font-face", "font-palette-values", "page", "property",
    "viewport"]

/-- Whether an at-rule of this name holds rules. -/
def isGroupName (name : String) : Bool :=
  groupNames.contains (Text.lower name)

/-- Whether an at-rule of this name holds declarations. -/
def isDescriptorName (name : String) : Bool :=
  descriptorNames.contains (Text.lower name)

/-- Whether an at-rule of this name is an animation: `keyframes`, perhaps after a vendor's mark. -/
def isKeyframesName (name : String) : Bool :=
  let cs := (Text.lower name).toList
  cs == "keyframes".toList || (['-'].isPrefixOf cs && "-keyframes".toList.isSuffixOf cs)

end AtHead

end Restyle.Css
