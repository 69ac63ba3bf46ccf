import Restyle.Proofs.Revision.DeadCode
import Restyle.Proofs.Revision.Grayscale

/-!
# Grays and dead selectors in either order

One pass edits the declarations of a sheet and keeps its selectors, the other one takes out
selectors and the rules left without any, and reads no declaration. Such edits commute on the rules
(`Rule.siftedAll_mapDeclarationsAll`). Main statement: the two passes leave the same sheet and count
the same rules in either order, and only the number of colors depends on the order, by those in the
rules that go (`reviseSheet_grayscale_deadCode`).
-/

namespace Restyle

namespace Css

/-- The style rule with `f` applied to its declarations. -/
def StyleRule.mapDeclarations (f : Declaration → Declaration) (r : StyleRule) : StyleRule :=
  { r with declarations := r.declarations.map f }

namespace Rule

variable {edit : StyleRule → Option StyleRule} {f : Declaration → Declaration}

/-! ## Edits that do not look at declarations -/

/-- Whether an edit of style rules neither reads nor writes declarations. -/
structure SparesDeclarations (edit : StyleRule → Option StyleRule) : Prop where
  /-- What it does to a rule does not depend on the declarations. -/
  commutes : ∀ (f : Declaration → Declaration) (r : StyleRule),
    edit (r.mapDeclarations f) = (edit r).map (·.mapDeclarations f)
  /-- A rule that stays keeps its declarations. -/
  keeps : ∀ r r' : StyleRule, edit r = some r' → r'.declarations = r.declarations

theorem sparesDeclarations_keepSelectors (keep : String → Bool) :
    SparesDeclarations (keepSelectors keep) where
  commutes f r := by
    have hselectors : (r.mapDeclarations f).selectors = r.selectors := rfl
    rw [keepSelectors, keepSelectors, hselectors]
    split_ifs <;> rfl
  keeps r r' h := by
    rw [keepSelectors] at h
    split_ifs at h
    cases h
    rfl

theorem mapDeclarationsAll_append (rs ss : List Rule) :
    mapDeclarationsAll f (rs ++ ss) = mapDeclarationsAll f rs ++ mapDeclarationsAll f ss := by
  induction rs with
  | nil => rfl
  | cons r rs ih => rw [List.cons_append, mapDeclarationsAll, mapDeclarationsAll, ih,
      List.cons_append]

theorem isEmpty_mapDeclarationsAll (rules : List Rule) :
    (mapDeclarationsAll f rules).isEmpty = rules.isEmpty := by
  cases rules <;> rfl

mutual

theorem sifted_mapDeclarations (h : SparesDeclarations edit) :
    ∀ r : Rule, (sifted edit (mapDeclarations f r)).toList =
      mapDeclarationsAll f (sifted edit r).toList
  | style r => by
    have hedit : edit { r with declarations := r.declarations.map f } =
        (edit r).map (·.mapDeclarations f) := h.commutes f r
    rw [mapDeclarations, sifted, sifted, hedit]
    cases edit r <;> rfl
  | group head rules => by
    rw [mapDeclarations, sifted, sifted, siftedAll_mapDeclarationsAll h rules,
      isEmpty_mapDeclarationsAll]
    split_ifs <;> rfl
  | statement _ | descriptors _ _ | keyframes _ _ | raw _ _ => rfl

/-- Rules can be taken out before or after a change of the declarations. -/
theorem siftedAll_mapDeclarationsAll (h : SparesDeclarations edit) :
    ∀ rules : List Rule,
      siftedAll edit (mapDeclarationsAll f rules) = mapDeclarationsAll f (siftedAll edit rules)
  | [] => rfl
  | r :: rs => by
    rw [mapDeclarationsAll, siftedAll, siftedAll, mapDeclarationsAll_append,
      sifted_mapDeclarations h r, siftedAll_mapDeclarationsAll h rs]

end

mutual

theorem styleCount_mapDeclarations : ∀ r : Rule, styleCount (mapDeclarations f r) = styleCount r
  | group _ rules => by
    rw [mapDeclarations, styleCount, styleCount, styleCountAll_mapDeclarationsAll rules]
  | style _ | statement _ | descriptors _ _ | keyframes _ _ | raw _ _ => rfl

theorem styleCountAll_mapDeclarationsAll :
    ∀ rules : List Rule, styleCountAll (mapDeclarationsAll f rules) = styleCountAll rules
  | [] => rfl
  | r :: rs => by
    rw [mapDeclarationsAll, styleCountAll, styleCountAll, styleCount_mapDeclarations r,
      styleCountAll_mapDeclarationsAll rs]

end

/-! ## Declarations of the rules that go -/

theorem declarationsAll_append (rs ss : List Rule) :
    declarationsAll (rs ++ ss) = declarationsAll rs ++ declarationsAll ss := by
  induction rs with
  | nil => rfl
  | cons r rs ih => rw [List.cons_append, declarationsAll, declarationsAll, ih, List.append_assoc]

/-- The declarations of the style rules among `rules` that an edit removes. -/
def declarationsGone (edit : StyleRule → Option StyleRule) (rules : List StyleRule) :
    List Declaration :=
  (rules.filter fun r => (edit r).isNone).flatMap StyleRule.declarations

theorem declarationsGone_append (rs ss : List StyleRule) :
    declarationsGone edit (rs ++ ss) = declarationsGone edit rs ++ declarationsGone edit ss := by
  rw [declarationsGone, List.filter_append, List.flatMap_append]
  rfl

mutual

theorem declarations_perm_sifted (h : SparesDeclarations edit) :
    ∀ r : Rule, (declarations r).Perm
      (declarationsAll (sifted edit r).toList ++ declarationsGone edit (styles r))
  | style r => by
    cases hr : edit r with
    | none => simp [declarations, sifted, styles, declarationsGone, declarationsAll, hr]
    | some r' =>
      simp [declarations, sifted, styles, declarationsGone, declarationsAll, hr, h.keeps r r' hr]
  | group head rules => by
    have hrules : declarationsAll (sifted edit (group head rules)).toList =
        declarationsAll (siftedAll edit rules) := by
      rw [sifted]
      split_ifs with hempty
      · rw [List.isEmpty_iff.1 hempty]
        rfl
      · rw [Option.toList_some, declarationsAll, declarations, declarationsAll, List.append_nil]
    rw [hrules, declarations, styles]
    exact declarationsAll_perm_siftedAll h rules
  | statement _ | descriptors _ _ | keyframes _ _ | raw _ _ => by
    simp [declarations, sifted, styles, declarationsGone, declarationsAll]

/-- The declarations that stay and those of the rules that go are all the declarations. -/
theorem declarationsAll_perm_siftedAll (h : SparesDeclarations edit) :
    ∀ rules : List Rule, (declarationsAll rules).Perm
      (declarationsAll (siftedAll edit rules) ++ declarationsGone edit (stylesAll rules))
  | [] => .nil
  | r :: rs => by
    rw [declarationsAll, siftedAll, stylesAll, declarationsAll_append, declarationsGone_append]
    have hboth := (declarations_perm_sifted h r).append (declarationsAll_perm_siftedAll h rs)
    refine hboth.trans ?_
    simp only [List.append_assoc]
    exact (List.perm_append_comm_assoc _ _ _).append_left _

end

end Rule

/-! ## Sheets -/

namespace Stylesheet

variable (d : Dom) (sheet : Stylesheet)

theorem styleCount_grayed : sheet.grayed.1.styleCount = sheet.styleCount := by
  rw [grayed_eq]
  exact Rule.styleCountAll_mapDeclarationsAll sheet.rules

/-- Dead selectors are the same whether colors are gray or not. -/
theorem withoutDead_grayed :
    (sheet.grayed.1.withoutDead d).1 = (sheet.withoutDead d).1.grayed.1 := by
  rw [withoutDead_rules, withoutDead_rules, grayed_eq, grayed_eq]
  exact congrArg mk (Rule.siftedAll_mapDeclarationsAll
    (Rule.sparesDeclarations_keepSelectors (isAlive d)) sheet.rules)

theorem withoutDead_grayed_count :
    (sheet.grayed.1.withoutDead d).2 = (sheet.withoutDead d).2 := by
  have hgray := withoutDead_count d sheet.grayed.1
  have hplain := withoutDead_count d sheet
  rw [withoutDead_grayed, styleCount_grayed, styleCount_grayed] at hgray
  omega

/-- The colors of a sheet are those that are left without dead selectors and those in the rules that
go. -/
theorem grayed_withoutDead_count :
    sheet.grayed.2 = (sheet.withoutDead d).1.grayed.2 +
      ((Rule.declarationsGone (Rule.keepSelectors (isAlive d)) (Rule.stylesAll sheet.rules)).map
        Declaration.colorCount).sum := by
  have hperm := Rule.declarationsAll_perm_siftedAll
    (Rule.sparesDeclarations_keepSelectors (isAlive d)) sheet.rules
  rw [grayed_eq, grayed_eq, withoutDead_rules, declarations, declarations,
    (hperm.map Declaration.colorCount).sum_nat, List.map_append, List.sum_append]

end Stylesheet

end Css

namespace Revision.Session

open Css

/-- Grays can be put in before or after dead selectors are taken out: the sheet, the document and
the number of rules that go are the same. The second order counts fewer colors, namely not those in
the rules that go, and is no different otherwise. -/
theorem reviseSheet_grayscale_deadCode (t : HiddenTarget) (sheet : Stylesheet) (s : Session) :
    let edit := Rule.keepSelectors (Stylesheet.isAlive s.dom)
    let gray := s.reviseSheet .grayscale t sheet
    let dead := s.reviseSheet .deadCode t sheet
    let grayDead := gray.2.reviseSheet .deadCode t gray.1
    let deadGray := dead.2.reviseSheet .grayscale t dead.1
    grayDead.1 = deadGray.1 ∧
      grayDead.1.rules =
        Rule.mapDeclarationsAll Declaration.gray (Rule.siftedAll edit sheet.rules) ∧
      grayDead.2.dom = s.dom ∧ deadGray.2.dom = s.dom ∧
      grayDead.2.report.rulesRemoved = deadGray.2.report.rulesRemoved ∧
      grayDead.2 = deadGray.2.countColors
        ((Rule.declarationsGone edit (Rule.stylesAll sheet.rules)).map
          Declaration.colorCount).sum := by
  intro edit gray dead grayDead deadGray
  have hsheet : grayDead.1 = deadGray.1 := Stylesheet.withoutDead_grayed s.dom sheet
  have hrules : deadGray.1.rules =
      Rule.mapDeclarationsAll Declaration.gray (Rule.siftedAll edit sheet.rules) := by
    change (sheet.withoutDead s.dom).1.grayed.1.rules = _
    rw [Stylesheet.grayed_eq, Stylesheet.withoutDead_rules]
  have hcount : (sheet.grayed.1.withoutDead s.dom).2 = (sheet.withoutDead s.dom).2 :=
    Stylesheet.withoutDead_grayed_count s.dom sheet
  refine ⟨hsheet, hsheet ▸ hrules, rfl, rfl, congrArg (s.report.rulesRemoved + ·) hcount, ?_⟩
  change (s.countColors sheet.grayed.2).countRules (sheet.grayed.1.withoutDead s.dom).2 =
    ((s.countRules (sheet.withoutDead s.dom).2).countColors
      (sheet.withoutDead s.dom).1.grayed.2).countColors _
  rw [hcount, Stylesheet.grayed_withoutDead_count s.dom sheet]
  simp only [countColors, countRules, ← Nat.add_assoc, edit]

end Revision.Session

end Restyle
