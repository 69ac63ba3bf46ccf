import Mathlib.Tactic.SplitIfs
import Restyle.Color.Function
import Restyle.Css.Parser
import Restyle.Proofs.Css.Delimiter
import Restyle.Proofs.Text.Letters

/-!
# Grays in the place of colors

`Value.gray` puts a gray hex color in the place of every color in a value. The digits of a gray that
replaces a function call may go on with what comes after the call, which `Value.callsApart`
excludes.
-/

namespace Restyle.Css

open Text

/-! ## Grays -/

namespace Value

mutual

/-- The value with grays for the colors in it. -/
def gray : Value → Value
  | call name args => (call name args).grayed?.getD (call name (grayAll args))
  | v => v.grayed?.getD v

/-- The values with grays for the colors in them. -/
def grayAll : List Value → List Value
  | [] => []
  | v :: vs => gray v :: grayAll vs

end

mutual

/-- Whether a gray in the place of a call, at any depth, ends where the call does: what comes after
it, with grays for colors, does not go on with a name. The text `after` comes after the value. -/
def callsApart (after : List Char) : Value → Bool
  | call name args =>
    if (call name args).grayed?.isSome then !Lexer.continuesName after
    else callsApartAll (')' :: after) args
  | _ => true

/-- Whether the grays in the place of calls end where these do, in a list of values. -/
def callsApartAll (after : List Char) : List Value → Bool
  | [] => true
  | v :: vs => callsApart ((cssAll (grayAll vs)).toList ++ after) v && callsApartAll after vs

end

end Value

namespace Declaration

/-- The declaration with grays for the colors in its value. -/
def gray (d : Declaration) : Declaration :=
  { d with value := Value.grayAll d.value }

/-- Whether the grays in the place of calls end where these do. -/
def callsApart (d : Declaration) : Bool :=
  Value.callsApartAll (if d.important then "!important".toList else []) d.value

end Declaration

end Restyle.Css

namespace Restyle

open Css Text

/-! ### Digits and names -/

theorem hexDigits_two (n : UInt8) :
    (hexDigits 2 n.toNat).toList.length = 2 ∧ (hexDigits 2 n.toNat).toList.all isHexDigit := by
  have h : ∀ k : Fin 256,
      (hexDigits 2 k).toList.length = 2 ∧ (hexDigits 2 k).toList.all isHexDigit := by
    decide +kernel
  exact h ⟨n.toNat, n.toNat_lt⟩

theorem Rgb.isHexColor_hex (c : Rgb) : Value.isHexColor c.hex := by
  obtain ⟨hr, hr'⟩ := hexDigits_two c.red
  obtain ⟨hg, hg'⟩ := hexDigits_two c.green
  obtain ⟨hb, hb'⟩ := hexDigits_two c.blue
  simp [Value.isHexColor, Rgb.hex, hr, hg, hb, hr', hg', hb']

/-- A text starts with a letter if it does so in lower case. -/
theorem exists_isAlpha_of_lower {name : String} (h : (lower name).toList.head?.any Char.isLower) :
    ∃ d p, name.toList = d :: p ∧ d.isAlpha := by
  rw [lower, String.toList_ofList] at h
  cases hname : name.toList with
  | nil => simp [hname] at h
  | cons d p =>
    rw [hname] at h
    have hlower : d.toLower.isLower := by simpa using h
    have halpha : d.toLower.isAlpha := Bool.or_eq_true_iff.2 (.inr hlower)
    exact ⟨d, p, rfl, (isAlpha_toLower d).symm.trans halpha⟩

theorem Rgb.exists_isAlpha_of_ofName? {name : String} {c : Rgb} (h : Rgb.ofName? name = some c) :
    ∃ d p, name.toList = d :: p ∧ d.isAlpha := by
  have hall : Rgb.named.all fun p => p.1.toList.head?.any Char.isLower := by decide +kernel
  obtain ⟨front, back, hnamed, -⟩ := List.lookup_eq_some_iff.1 h
  rw [hnamed, List.all_append, List.all_cons, Bool.and_eq_true, Bool.and_eq_true] at hall
  exact exists_isAlpha_of_lower hall.2.1

theorem Rgb.exists_isAlpha_of_isFunction {name : String} (h : Rgb.isFunction name) :
    ∃ d p, name.toList = d :: p ∧ d.isAlpha := by
  have hall : ∀ f ∈ Rgb.functionNames, f.toList.head?.any Char.isLower := by decide
  exact exists_isAlpha_of_lower (hall _ (List.contains_iff_mem.1 h))

/-- A gray is a hex color, and what it replaces starts with a letter or the mark of a hash. -/
theorem Css.Value.exists_of_grayed? {v g : Value} (h : v.grayed? = some g) :
    (∃ digits, g = .hexColor digits ∧ Value.isHexColor digits) ∧
      ∃ d p, v.css.toList = d :: p ∧ isFront d := by
  obtain ⟨c, hc, hg⟩ := Option.bind_eq_some_iff.1 h
  refine ⟨⟨c.gray.hex, ?_, c.gray.isHexColor_hex⟩, ?_⟩
  · dsimp only at hg
    split_ifs at hg
    exact (Option.some.inj hg).symm
  · cases v with
    | identifier text =>
      obtain ⟨d, p, htext, hd⟩ := Rgb.exists_isAlpha_of_ofName? hc
      exact ⟨d, p, htext, Lexer.isFront_of_isAlpha hd⟩
    | hexColor digits => exact ⟨'#', digits.toList, by simp [css], rfl⟩
    | call name args =>
      have hname : Rgb.isFunction name := by
        have hc : Rgb.ofCall? name args = some c := hc
        rw [Rgb.ofCall?] at hc
        split_ifs at hc with hcall
        simp only [Bool.or_eq_true, Bool.not_eq_true', not_or, Bool.not_eq_false] at hcall
        exact hcall.1
      obtain ⟨d, p, htext, hd⟩ := Rgb.exists_isAlpha_of_isFunction hname
      exact ⟨d, _, by simp [css, htext]; rfl, Lexer.isFront_of_isAlpha hd⟩
    | other text => cases hc

end Restyle

namespace Restyle.Css.Value

/-! ### Values with grays in them -/

theorem gray_of_grayed? {v g : Value} (h : v.grayed? = some g) : gray v = g := by
  cases v <;> simp [gray, h]

theorem gray_of_none {v : Value} (h : v.grayed? = none) (hcall : v.isCall = false) :
    gray v = v := by
  cases v <;> simp_all [gray, isCall]

theorem gray_call {name : String} {args : List Value} (h : (call name args).grayed? = none) :
    gray (call name args) = call name (grayAll args) := by
  rw [gray, h, Option.getD_none]

theorem gray_other (text : String) : gray (other text) = other text :=
  gray_of_none rfl rfl

/-- Only source text is left as source text. -/
theorem eq_of_gray_eq_other {v : Value} {text : String} (h : gray v = other text) :
    v = other text := by
  cases hgrayed : v.grayed? with
  | some g =>
    obtain ⟨⟨digits, rfl, -⟩, -⟩ := exists_of_grayed? hgrayed
    rw [gray_of_grayed? hgrayed] at h
    cases h
  | none =>
    cases v with
    | call name args =>
      rw [gray_call hgrayed] at h
      cases h
    | _ => rwa [gray_of_none hgrayed rfl] at h

theorem grayAll_pushOther (text : String) (vs : List Value) :
    grayAll (pushOther text vs) = pushOther text (grayAll vs) := by
  rw [pushOther.eq_def text vs]
  split
  · rw [grayAll, grayAll, gray_other, gray_other, pushOther]
  · rename_i hother
    rw [grayAll, gray_other, pushOther.eq_2]
    intro t ws heq
    cases vs with
    | nil => cases heq
    | cons v vs =>
      rw [grayAll] at heq
      exact hother t vs (by rw [eq_of_gray_eq_other (List.cons.inj heq).1])

theorem callsApart_other (after : List Char) (text : String) : callsApart after (other text) := by
  simp [callsApart]

theorem callsApartAll_pushOther (after : List Char) (text : String) (vs : List Value) :
    callsApartAll after (pushOther text vs) = callsApartAll after vs := by
  unfold pushOther
  split
  · rw [callsApartAll, callsApartAll, callsApart_other, callsApart_other]
  · rw [callsApartAll, callsApart_other, Bool.true_and]

/-! ### Texts with grays in them -/

/-- Whether a property of a text is kept when a hash takes the place of a piece of it. -/
def KeptByHash (P : List Char → Prop) : Prop :=
  ∀ (front piece back : List Char) (digits : String), isHexColor digits →
    P (front ++ (piece ++ back)) → P (front ++ ('#' :: digits.toList ++ back))

variable {P : List Char → Prop}

theorem KeptByHash.of_grayed? (hP : KeptByHash P) {v g : Value} (hgrayed : v.grayed? = some g)
    {front back : List Char} (h : P (front ++ (v.css.toList ++ back))) :
    P (front ++ ((gray v).css.toList ++ back)) := by
  obtain ⟨⟨digits, rfl, hdigits⟩, -⟩ := exists_of_grayed? hgrayed
  have hcss : (hexColor digits).css.toList = '#' :: digits.toList := by simp [css]
  rw [gray_of_grayed? hgrayed, hcss]
  exact hP front _ back digits hdigits h

mutual

theorem KeptByHash.of_gray (hP : KeptByHash P) : ∀ {v : Value} {front back : List Char},
    P (front ++ (v.css.toList ++ back)) → P (front ++ ((gray v).css.toList ++ back))
  | call name args, front, back, h => by
    cases hgrayed : (call name args).grayed? with
    | some g => exact hP.of_grayed? hgrayed h
    | none =>
      have hcss : ∀ vs, front ++ ((call name vs).css.toList ++ back) =
          front ++ (name.toList ++ ['(']) ++ ((cssAll vs).toList ++ (')' :: back)) := by
        intro vs
        simp [css]
      rw [gray_call hgrayed, hcss]
      rw [hcss] at h
      exact hP.of_grayAll h
  | identifier text, front, back, h => by
    cases hgrayed : (identifier text).grayed? with
    | some g => exact hP.of_grayed? hgrayed h
    | none => rwa [gray_of_none hgrayed rfl]
  | hexColor digits, front, back, h => by
    cases hgrayed : (hexColor digits).grayed? with
    | some g => exact hP.of_grayed? hgrayed h
    | none => rwa [gray_of_none hgrayed rfl]
  | other text, front, back, h => by rwa [gray_other]

/-- What is kept by a hash is kept by grays in the places of colors. -/
theorem KeptByHash.of_grayAll (hP : KeptByHash P) : ∀ {vs : List Value} {front back : List Char},
    P (front ++ ((cssAll vs).toList ++ back)) → P (front ++ ((cssAll (grayAll vs)).toList ++ back))
  | [], front, back, h => by rwa [grayAll]
  | v :: vs, front, back, h => by
    rw [cssAll, String.toList_append, List.append_assoc] at h
    have hgray := hP.of_gray h
    rw [← List.append_assoc] at hgray
    have hall := hP.of_grayAll hgray
    rwa [grayAll, cssAll, String.toList_append, List.append_assoc, ← List.append_assoc]

end

/-! ### Colors that end where their digits do -/

mutual

/-- Whether the hex colors in a value, at any depth, end where their digits do. The text `after`
comes after the value. -/
def colorsApart (after : List Char) : Value → Bool
  | hexColor _ => !Lexer.continuesName after
  | call _ args => colorsApartAll (')' :: after) args
  | _ => true

/-- Whether the hex colors in a list of values end where their digits do. -/
def colorsApartAll (after : List Char) : List Value → Bool
  | [] => true
  | v :: vs => colorsApart ((cssAll vs).toList ++ after) v && colorsApartAll after vs

end

mutual

theorem callsApart_of_gray {after : List Char} :
    ∀ {v : Value}, colorsApart after (gray v) → callsApart after v
  | call name args, h => by
    rw [callsApart]
    cases hgrayed : (call name args).grayed? with
    | some g =>
      obtain ⟨⟨digits, rfl, -⟩, -⟩ := exists_of_grayed? hgrayed
      rw [gray_of_grayed? hgrayed, colorsApart] at h
      exact h
    | none =>
      rw [gray_call hgrayed, colorsApart] at h
      exact callsApartAll_of_grayAll h
  | identifier _, _ | hexColor _, _ | other _, _ => by simp [callsApart]

/-- Where all colors are apart once grays are in place, those in the place of calls are. -/
theorem callsApartAll_of_grayAll {after : List Char} :
    ∀ {vs : List Value}, colorsApartAll after (grayAll vs) → callsApartAll after vs
  | [], _ => rfl
  | v :: vs, h => by
    rw [grayAll, colorsApartAll, Bool.and_eq_true] at h
    rw [callsApartAll, Bool.and_eq_true]
    exact ⟨callsApart_of_gray h.1, callsApartAll_of_grayAll h.2⟩

end

theorem colorsApart_of_not_call {after : List Char} {v : Value} (hcall : v.isCall = false)
    (h : Lexer.continuesName after = false) : colorsApart after v := by
  cases v <;> simp_all [colorsApart, isCall]

theorem colorsApartAll_pushOther (after : List Char) (text : String) (vs : List Value) :
    colorsApartAll after (pushOther text vs) = colorsApartAll after vs := by
  have hother : ∀ after text, colorsApart after (other text) := by simp [colorsApart]
  unfold pushOther
  split
  · rw [colorsApartAll, colorsApartAll, hother, hother]
  · rw [colorsApartAll, hother, Bool.true_and]

end Restyle.Css.Value
