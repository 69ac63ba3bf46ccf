import Restyle.Proofs.Css.ColorArguments
import Restyle.Proofs.Revision.Grayscale

/-!
# Grays in a sheet that has grays

A second walk over a sheet finds a color only where the first one has put grays among the arguments
of a call. Main statement: the second walk changes and counts nothing if and only if each call
settles (`Value.settles`: what it writes with grays among its arguments is no color), and each call
does where no comment starts in the text of a declaration (`grayed_grayed`). Where the text of the
arguments joins a slash and an asterisk, the grays after them are lost in a comment, and the call is
a color the second time (`grayed_again`).
-/

namespace Restyle

open Css

/-! ## Grays -/

theorem numberOf_hexDigits (n : UInt8) :
    Text.numberOf 16 (Text.hexDigits 2 n.toNat).toList = n.toNat := by
  have hall : ∀ k : Fin 256, Text.numberOf 16 (Text.hexDigits 2 k).toList = k := by decide +kernel
  exact hall ⟨n.toNat, n.toNat_lt⟩

/-- Two digits are read as the channel that they are written from. -/
theorem exists_hexDigits_eq (n : UInt8) :
    ∃ a b, (Text.hexDigits 2 n.toNat).toList = [a, b] ∧ a ≠ '#' ∧ Rgb.channel a b = n := by
  obtain ⟨hlength, hdigits⟩ := hexDigits_two n
  have hnumber := numberOf_hexDigits n
  obtain ⟨a, b, heq⟩ := List.length_eq_two.1 hlength
  rw [heq] at hdigits hnumber
  have hvalue : 16 * Text.hexValue a + Text.hexValue b = n.toNat := by
    rw [← hnumber, Text.numberOf]
    simp only [List.foldl_cons, List.foldl_nil]
    omega
  refine ⟨a, b, heq, ?_, ?_⟩
  · rintro rfl
    exact absurd hdigits (by simp [Text.isHexDigit])
  · rw [Rgb.channel, hvalue, UInt8.ofNat_toNat]

theorem Rgb.ofHex?_hex (c : Rgb) : ofHex? c.hex = some c := by
  obtain ⟨a, a', ha, hne, hred⟩ := exists_hexDigits_eq c.red
  obtain ⟨b, b', hb, -, hgreen⟩ := exists_hexDigits_eq c.green
  obtain ⟨e, e', he, -, hblue⟩ := exists_hexDigits_eq c.blue
  have hhex : c.hex.toList = [a, a', b, b', e, e'] := by
    rw [hex, String.toList_append, String.toList_append, ha, hb, he]
    rfl
  have hdigits : ofHex? c.hex = ofDigits? c.hex := by
    unfold ofHex?
    split
    · rename_i heq
      rw [hhex] at heq
      exact absurd (List.cons.inj heq).1 hne
    · rfl
  rw [hdigits, ofDigits?, if_pos c.isHexColor_hex, hhex]
  dsimp only
  rw [hred, hgreen, hblue]

namespace Css.Value

/-- A gray in the place of a color stays. -/
theorem grayed?_of_grayed? {v g : Value} (h : v.grayed? = some g) : g.grayed? = none := by
  obtain ⟨c, -, hg⟩ := Option.bind_eq_some_iff.1 h
  dsimp only at hg
  split_ifs at hg
  rw [← Option.some.inj hg, grayed?, Rgb.ofValue?, Rgb.ofHex?_hex, Option.bind_eq_bind,
    Option.bind_some, Rgb.gray_gray, if_pos rfl]

/-! ## Values at any depth -/

mutual

/-- A value and the values in it. -/
def subvalues : Value → List Value
  | call name args => call name args :: subvaluesAll args
  | v => [v]

/-- Some values and the values in them. -/
def subvaluesAll : List Value → List Value
  | [] => []
  | v :: vs => subvalues v ++ subvaluesAll vs

end

mutual

theorem colorCount_eq_zero_iff :
    ∀ v : Value, colorCount v = 0 ↔ ∀ w ∈ subvalues v, w.grayed? = none
  | call name args => by
    have ih := colorCountAll_eq_zero_iff args
    rw [colorCount, subvalues, List.forall_mem_cons, ← ih]
    cases hgrayed : (call name args).grayed? <;> simp
  | identifier _ | hexColor _ | other _ => by
    rw [colorCount, subvalues, List.forall_mem_singleton] <;> simp

/-- A walk counts nothing if no value at any depth is a color. -/
theorem colorCountAll_eq_zero_iff :
    ∀ vs : List Value, colorCountAll vs = 0 ↔ ∀ w ∈ subvaluesAll vs, w.grayed? = none
  | [] => by simp [colorCountAll, subvaluesAll]
  | v :: vs => by
    rw [colorCountAll, subvaluesAll, List.forall_mem_append, Nat.add_eq_zero_iff,
      colorCount_eq_zero_iff v, colorCountAll_eq_zero_iff vs]

end

mutual

theorem gray_eq_self : ∀ {v : Value}, colorCount v = 0 → gray v = v
  | call name args, h => by
    rw [colorCount] at h
    split_ifs at h with hgrayed
    rw [gray_call (Option.not_isSome_iff_eq_none.1 hgrayed), grayAll_eq_self h]
  | identifier _, h | hexColor _, h | other _, h =>
    gray_of_none ((colorCount_eq_zero_iff _).1 h _ List.mem_cons_self) rfl

/-- A walk that counts nothing changes nothing. -/
theorem grayAll_eq_self : ∀ {vs : List Value}, colorCountAll vs = 0 → grayAll vs = vs
  | [], _ => rfl
  | v :: vs, h => by
    rw [colorCountAll, Nat.add_eq_zero_iff] at h
    rw [grayAll, gray_eq_self h.1, grayAll_eq_self h.2]

end

/-! ## Calls that settle -/

mutual

/-- Whether no call, at any depth, is a color only once grays are among its arguments. -/
def settles : Value → Bool
  | call name args =>
    (call name args).grayed?.isSome ||
      ((call name (grayAll args)).grayed?.isNone && settlesAll args)
  | _ => true

/-- Whether no call in a list of values is a color only once grays are among its arguments. -/
def settlesAll : List Value → Bool
  | [] => true
  | v :: vs => settles v && settlesAll vs

end

theorem colorCount_of_grayed? {v g : Value} (h : v.grayed? = some g) : colorCount g = 0 := by
  have hnone := grayed?_of_grayed? h
  obtain ⟨⟨digits, rfl, -⟩, -⟩ := exists_of_grayed? h
  rw [colorCount, hnone]
  · rfl
  · simp

theorem colorCount_gray_word {v : Value} (hcall : v.isCall = false) : colorCount (gray v) = 0 := by
  cases hgrayed : v.grayed? with
  | some g => rw [gray_of_grayed? hgrayed, colorCount_of_grayed? hgrayed]
  | none =>
    rw [gray_of_none hgrayed hcall]
    cases v with
    | call name args => cases hcall
    | _ => rw [colorCount, hgrayed] <;> simp

mutual

theorem colorCount_gray_eq_zero_iff : ∀ v : Value, colorCount (gray v) = 0 ↔ settles v
  | call name args => by
    have ih := colorCountAll_grayAll_eq_zero_iff args
    cases hgrayed : (call name args).grayed? with
    | some g =>
      rw [gray_of_grayed? hgrayed, colorCount_of_grayed? hgrayed, settles, hgrayed]
      simp
    | none =>
      rw [gray_call hgrayed, colorCount, settles, hgrayed, ← Option.not_isSome]
      cases hagain : (call name (grayAll args)).grayed?.isSome <;> simp [ih]
  | identifier text => iff_of_true (colorCount_gray_word rfl) rfl
  | hexColor digits => iff_of_true (colorCount_gray_word rfl) rfl
  | other text => iff_of_true (colorCount_gray_word rfl) rfl

/-- The second walk over some values counts nothing if and only if all calls settle. -/
theorem colorCountAll_grayAll_eq_zero_iff :
    ∀ vs : List Value, colorCountAll (grayAll vs) = 0 ↔ settlesAll vs
  | [] => by simp [grayAll, colorCountAll, settlesAll]
  | v :: vs => by
    rw [grayAll, colorCountAll, settlesAll, Nat.add_eq_zero_iff, Bool.and_eq_true,
      colorCount_gray_eq_zero_iff v, colorCountAll_grayAll_eq_zero_iff vs]

end

/-! ## Texts without comments -/

theorem hash_mem_of_grayed? {v g : Value} (h : v.grayed? = some g) :
    '#' ∈ (gray v).css.toList := by
  rw [gray_of_grayed? h]
  obtain ⟨⟨digits, rfl, -⟩, -⟩ := exists_of_grayed? h
  simp [css]

theorem gray_word_eq_or_hash_mem {v : Value} (hcall : v.isCall = false) :
    gray v = v ∨ '#' ∈ (gray v).css.toList := by
  cases hgrayed : v.grayed? with
  | some g => exact .inr (hash_mem_of_grayed? hgrayed)
  | none => exact .inl (gray_of_none hgrayed hcall)

mutual

theorem gray_eq_or_hash_mem : ∀ v : Value, gray v = v ∨ '#' ∈ (gray v).css.toList
  | call name args => by
    cases hgrayed : (call name args).grayed? with
    | some g => exact .inr (hash_mem_of_grayed? hgrayed)
    | none =>
      rw [gray_call hgrayed]
      refine (grayAll_eq_or_hash_mem args).imp (fun h => by rw [h]) fun h => ?_
      simp [css, h]
  | identifier text => gray_word_eq_or_hash_mem rfl
  | hexColor digits => gray_word_eq_or_hash_mem rfl
  | other text => gray_word_eq_or_hash_mem rfl

/-- Values in which a color gives way to a gray show a hash. -/
theorem grayAll_eq_or_hash_mem : ∀ vs : List Value,
    grayAll vs = vs ∨ '#' ∈ (cssAll (grayAll vs)).toList
  | [] => .inl rfl
  | v :: vs => by
    rw [grayAll, cssAll, String.toList_append, List.mem_append]
    rcases gray_eq_or_hash_mem v with hv | hv
    · rw [hv]
      exact (grayAll_eq_or_hash_mem vs).imp (fun h => by rw [h]) .inr
    · exact .inr (.inl hv)

end

/-- A call in whose arguments a color has given way to a gray is no color. -/
theorem grayed?_call_grayAll {name : String} {args : List Value}
    (hnone : (call name args).grayed? = none)
    (hlacks : LacksComment (cssAll (grayAll args)).toList) :
    (call name (grayAll args)).grayed? = none := by
  rcases grayAll_eq_or_hash_mem args with heq | hash
  · rw [heq]
    exact hnone
  · have hlexemes : ColorArg.ofLexemes? (Lexeme.scan (cssAll (grayAll args))) = none :=
      Option.not_isSome_iff_eq_none.1 fun h => ColorArg.hash_notMem_of_ofLexemes? h hlacks hash
    have hcall : Rgb.ofCall? name (grayAll args) = none := by
      rw [Rgb.ofCall?]
      split_ifs
      · rfl
      · rw [hlexemes]
        rfl
    rw [grayed?, Rgb.ofValue?, hcall]
    rfl

mutual

theorem settles_of_lacksComment : ∀ {v : Value}, LacksComment v.css.toList → settles v
  | call name args, h => by
    have hargs : LacksComment (cssAll args).toList := h.of_isInfix
      ⟨name.toList ++ ['('], [')'], by simp [css]⟩
    have hgray : LacksComment ([] ++ ((cssAll (grayAll args)).toList ++ [])) :=
      LacksComment.keptByHash.of_grayAll (by rwa [List.nil_append, List.append_nil])
    rw [List.nil_append, List.append_nil] at hgray
    rw [settles]
    cases hgrayed : (call name args).grayed? with
    | some g => rfl
    | none =>
      rw [grayed?_call_grayAll hgrayed hgray, settlesAll_of_lacksComment hargs]
      rfl
  | identifier _, _ | hexColor _, _ | other _, _ => rfl

/-- All calls settle in a text without comments. -/
theorem settlesAll_of_lacksComment :
    ∀ {vs : List Value}, LacksComment (cssAll vs).toList → settlesAll vs
  | [], _ => rfl
  | v :: vs, h => by
    rw [cssAll, String.toList_append] at h
    rw [settlesAll, settles_of_lacksComment (h.of_isInfix (List.prefix_append _ _).isInfix),
      settlesAll_of_lacksComment (h.of_isInfix (List.suffix_append _ _).isInfix)]
    rfl

end

end Css.Value

/-! ## Sheets -/

namespace Css

namespace Rule

variable {f : Declaration → Declaration}

mutual

theorem declarations_mapDeclarations :
    ∀ r : Rule, declarations (mapDeclarations f r) = (declarations r).map f
  | style r => by simp [mapDeclarations, declarations]
  | group head rules => by
    rw [mapDeclarations, declarations, declarations, declarationsAll_mapDeclarationsAll rules]
  | descriptors head ds => by simp [mapDeclarations, declarations]
  | keyframes head frames => by
    simp [mapDeclarations, declarations, List.flatMap_map, List.map_flatMap]
  | statement _ | raw _ _ => by simp [mapDeclarations, declarations]

theorem declarationsAll_mapDeclarationsAll :
    ∀ rules : List Rule,
      declarationsAll (mapDeclarationsAll f rules) = (declarationsAll rules).map f
  | [] => rfl
  | r :: rs => by
    rw [mapDeclarationsAll, declarationsAll, declarationsAll, List.map_append,
      declarations_mapDeclarations r, declarationsAll_mapDeclarationsAll rs]

end

mutual

theorem mapDeclarations_eq_self :
    ∀ {r : Rule}, (∀ d ∈ declarations r, f d = d) → mapDeclarations f r = r
  | style r, h => by
    have hds : r.declarations.map f = r.declarations := map_eq_self_of_forall h
    rw [mapDeclarations, hds]
  | group head rules, h => by rw [mapDeclarations, mapDeclarationsAll_eq_self h]
  | descriptors head ds, h => by
    have hds : ds.map f = ds := map_eq_self_of_forall h
    rw [mapDeclarations, hds]
  | keyframes head frames, h => by
    have hframes : ∀ k ∈ frames, { k with declarations := k.declarations.map f } = k := by
      intro k hk
      rw [map_eq_self_of_forall fun d hd => h d (List.mem_flatMap.2 ⟨k, hk, hd⟩)]
    rw [mapDeclarations, map_eq_self_of_forall hframes]
  | statement _, _ | raw _ _, _ => rfl

theorem mapDeclarationsAll_eq_self :
    ∀ {rules : List Rule}, (∀ d ∈ declarationsAll rules, f d = d) →
      mapDeclarationsAll f rules = rules
  | [], _ => rfl
  | r :: rs, h => by
    rw [declarationsAll, List.forall_mem_append] at h
    rw [mapDeclarationsAll, mapDeclarations_eq_self h.1, mapDeclarationsAll_eq_self h.2]

end

end Rule

namespace Stylesheet

/-- A walk over a sheet changes and counts nothing if and only if it counts nothing. -/
theorem grayed_eq_self_iff (sheet : Stylesheet) :
    sheet.grayed = (sheet, 0) ↔ ∀ d ∈ sheet.declarations, d.colorCount = 0 := by
  have hsum : (sheet.declarations.map Declaration.colorCount).sum = 0 ↔
      ∀ d ∈ sheet.declarations, d.colorCount = 0 := by
    rw [List.sum_eq_zero_iff_forall_eq_nat, List.forall_mem_map]
  rw [grayed_eq, Prod.mk.injEq, hsum, and_iff_right_iff_imp]
  intro hcount
  have hrules : Rule.mapDeclarationsAll Declaration.gray sheet.rules = sheet.rules := by
    apply Rule.mapDeclarationsAll_eq_self
    intro d hd
    rw [Declaration.gray, Value.grayAll_eq_self (hcount d hd)]
  rw [hrules]

/-- The second walk over a sheet changes and counts nothing if and only if no value at any depth is
a color any more, and if and only if all calls settle. They do where no comment starts in the text
of a declaration. -/
theorem grayed_grayed (sheet : Stylesheet) :
    let once := sheet.grayed.1
    (once.grayed = (once, 0) ↔
        ∀ d ∈ once.declarations, ∀ v ∈ Value.subvaluesAll d.value, v.grayed? = none) ∧
      (once.grayed = (once, 0) ↔ ∀ d ∈ sheet.declarations, Value.settlesAll d.value) ∧
      ((∀ d ∈ sheet.declarations, LacksComment (Value.cssAll d.value).toList) →
        once.grayed = (once, 0)) := by
  intro once
  have hdeclarations : once.declarations = sheet.declarations.map Declaration.gray := by
    rw [show once = sheet.grayed.1 from rfl, grayed_eq, declarations, declarations,
      Rule.declarationsAll_mapDeclarationsAll]
  have hsettles : once.grayed = (once, 0) ↔ ∀ d ∈ sheet.declarations, Value.settlesAll d.value := by
    rw [grayed_eq_self_iff, hdeclarations, List.forall_mem_map]
    exact forall₂_congr fun d _ => Value.colorCountAll_grayAll_eq_zero_iff d.value
  refine ⟨?_, hsettles, fun hlacks => hsettles.2 fun d hd => ?_⟩
  · rw [grayed_eq_self_iff]
    exact forall₂_congr fun d _ => Value.colorCountAll_eq_zero_iff d.value
  · exact Value.settlesAll_of_lacksComment (hlacks d hd)

/-- A color among the arguments of a call that is none settles in the first walk. -/
theorem grayed_grayed_nested :
    let sheet : Stylesheet := ⟨[.style ⟨["a"],
      [⟨"color", [.call "light-dark" [.call "rgb" [.other "1,2,3"], .identifier "red"]], false⟩]⟩]⟩
    sheet.grayed.1.css = "a\x7bcolor:light-dark(#020202#4c4c4c)\x7d" ∧ sheet.grayed.2 = 2 ∧
      sheet.grayed.1.grayed = (sheet.grayed.1, 0) :=
  ⟨by decide +kernel, by decide +kernel, (grayed_grayed _).2.1.2 (by decide +kernel)⟩

/-- Two arguments of a call that is no color join to the start of a comment, which ends after a
color. The gray in the place of that color is inside the comment, so the call is a color then. -/
theorem grayed_again :
    ∃ sheet : Stylesheet,
      let once := sheet.grayed.1
      parse "a\x7bcolor:rgb(1 2 3//**/*rgb(1,2,3)*/)\x7d" = .ok sheet ∧
        once.css = "a\x7bcolor:rgb(1 2 3/*#020202*/)\x7d" ∧
        once.grayed.1.css = "a\x7bcolor:#020202\x7d" ∧ once.grayed.2 = 1 := by
  let args : List Value := [.other "1 2 3/*", .call "rgb" [.other "1,2,3"], .other "*/"]
  refine ⟨⟨[.style ⟨["a"], [⟨"color", [.call "rgb" args], false⟩]⟩]⟩, ?_, ?_, ?_, ?_⟩ <;>
    decide +kernel

end Stylesheet

end Css

end Restyle
