import Restyle.Proofs.Css.Recoloring
import Restyle.Proofs.Css.SelectorLists
import Restyle.Proofs.Revision.DeadCode
import Restyle.Proofs.Revision.Grayscale

/-!
# Revised style sheets that are read back

Where a style sheet is read back from its text, what a pass leaves of it may not be. A gray in the
place of a function call goes on with the name characters after the call, and a selector that comes
first once those before it are gone may start with an at-keyword or with a mark that is skipped.
Main statement: nothing else goes wrong (`reviseSheet_parse_css_iff`).
-/

namespace Restyle

namespace Css

/-! ## Other declarations -/

theorem Keyframe.all_readsBack_map {f : Declaration → Declaration} {frames : List Keyframe}
    (h : frames.all readsBack) :
    (frames.map fun k => { k with declarations := k.declarations.map f }).all readsBack ↔
      ∀ d ∈ frames.flatMap declarations, (f d).readsBack := by
  induction frames with
  | nil => simp
  | cons k frames ih =>
    rw [List.all_cons, Bool.and_eq_true, readsBack, Bool.and_eq_true] at h
    rw [List.map_cons, List.all_cons, Bool.and_eq_true, ih h.2, readsBack, Bool.and_eq_true,
      and_iff_right h.1.1, List.flatMap_cons]
    simp [or_imp, forall_and]

namespace Rule

mutual

theorem readsBack_mapDeclarations {f : Declaration → Declaration} :
    ∀ {top : Bool} {r : Rule}, readsBack top r →
      (readsBack top (mapDeclarations f r) ↔ ∀ d ∈ declarations r, (f d).readsBack)
  | _, style r, h => by
    rw [readsBack, Bool.and_eq_true] at h
    simp [mapDeclarations, readsBack, declarations, h.1]
  | _, group head rules, h => by
    rw [readsBack, Bool.and_eq_true] at h
    rw [mapDeclarations, readsBack, Bool.and_eq_true, declarations,
      allReadBack_mapDeclarationsAll h.2, and_iff_right h.1]
  | _, descriptors head ds, h => by
    rw [readsBack, Bool.and_eq_true] at h
    simp [mapDeclarations, readsBack, declarations, h.1]
  | _, keyframes head frames, h => by
    rw [readsBack, Bool.and_eq_true] at h
    rw [mapDeclarations, readsBack, Bool.and_eq_true, declarations, and_iff_right h.1]
    exact Keyframe.all_readsBack_map h.2
  | _, statement head, h | _, raw head text, h => by
    simp [mapDeclarations, declarations, h]

/-- Where the rest stays, the declarations that are put in place need to be read back. -/
theorem allReadBack_mapDeclarationsAll {f : Declaration → Declaration} :
    ∀ {top : Bool} {rules : List Rule}, allReadBack top rules →
      (allReadBack top (mapDeclarationsAll f rules) ↔ ∀ d ∈ declarationsAll rules, (f d).readsBack)
  | _, [], _ => by simp [mapDeclarationsAll, allReadBack, declarationsAll]
  | _, r :: rs, h => by
    rw [allReadBack, Bool.and_eq_true] at h
    rw [mapDeclarationsAll, allReadBack, Bool.and_eq_true, readsBack_mapDeclarations h.1,
      allReadBack_mapDeclarationsAll h.2, declarationsAll]
    simp [or_imp, forall_and]

end

mutual

theorem declaration_readsBack :
    ∀ {top : Bool} {r : Rule}, readsBack top r → ∀ d ∈ declarations r, d.readsBack
  | _, style r, h => by
    rw [readsBack, Bool.and_eq_true] at h
    exact List.all_eq_true.1 h.2
  | _, group head rules, h => by
    rw [readsBack, Bool.and_eq_true] at h
    exact declarationsAll_readsBack h.2
  | _, descriptors head ds, h => by
    rw [readsBack, Bool.and_eq_true] at h
    exact List.all_eq_true.1 h.2
  | _, keyframes head frames, h => by
    rw [readsBack, Bool.and_eq_true, List.all_eq_true] at h
    intro d hd
    obtain ⟨k, hk, hd⟩ := List.mem_flatMap.1 hd
    have hk := h.2 k hk
    rw [Keyframe.readsBack, Bool.and_eq_true] at hk
    exact List.all_eq_true.1 hk.2 d hd
  | _, statement head, h | _, raw head text, h => by
    simp [declarations]

theorem declarationsAll_readsBack :
    ∀ {top : Bool} {rules : List Rule}, allReadBack top rules →
      ∀ d ∈ declarationsAll rules, d.readsBack
  | _, [], _ => by simp [declarationsAll]
  | _, r :: rs, h => by
    rw [allReadBack, Bool.and_eq_true] at h
    rw [declarationsAll, List.forall_mem_append]
    exact ⟨declaration_readsBack h.1, declarationsAll_readsBack h.2⟩

end

/-! ## Fewer selectors -/

mutual

/-- The style rules in a rule, each with whether it stands outside of all groups. -/
def placed (top : Bool) : Rule → List (Bool × StyleRule)
  | style r => [(top, r)]
  | group _ rules => placedAll false rules
  | _ => []

/-- The style rules in a list of rules, each with whether it stands outside of all groups. -/
def placedAll (top : Bool) : List Rule → List (Bool × StyleRule)
  | [] => []
  | r :: rs => placed top r ++ placedAll top rs

end

theorem allReadBack_append {top : Bool} {rs ss : List Rule} :
    allReadBack top (rs ++ ss) ↔ allReadBack top rs ∧ allReadBack top ss := by
  induction rs with
  | nil => simp [allReadBack]
  | cons r rs ih =>
    rw [List.cons_append, allReadBack, allReadBack, Bool.and_eq_true, Bool.and_eq_true, ih,
      and_assoc]

variable {edit : StyleRule → Option StyleRule}

mutual

theorem allReadBack_sifted :
    ∀ {top : Bool} {r : Rule}, readsBack top r →
      (allReadBack top (sifted edit r).toList ↔
        ∀ p ∈ placed top r, ∀ r' ∈ edit p.2, readsBack p.1 (style r'))
  | top, style r, h => by
    rw [sifted]
    cases hedit : edit r <;> simp [placed, allReadBack, hedit]
  | top, group head rules, h => by
    rw [readsBack, Bool.and_eq_true] at h
    have ih : allReadBack false (siftedAll edit rules) ↔ _ := allReadBack_siftedAll h.2
    rw [sifted, placed, ← ih]
    split_ifs with hempty
    · rw [List.isEmpty_iff.1 hempty]
      simp [allReadBack]
    · rw [Option.toList_some, allReadBack, readsBack, h.1]
      simp [allReadBack]
  | top, statement _, h | top, descriptors _ _, h | top, keyframes _ _, h | top, raw _ _, h => by
    simpa [sifted, placed, allReadBack] using h

/-- Where the rest stays, the style rules that an edit leaves need to be read back. -/
theorem allReadBack_siftedAll :
    ∀ {top : Bool} {rules : List Rule}, allReadBack top rules →
      (allReadBack top (siftedAll edit rules) ↔
        ∀ p ∈ placedAll top rules, ∀ r' ∈ edit p.2, readsBack p.1 (style r'))
  | _, [], _ => by simp [siftedAll, allReadBack, placedAll]
  | _, r :: rs, h => by
    rw [allReadBack, Bool.and_eq_true] at h
    rw [siftedAll, allReadBack_append, allReadBack_sifted h.1, allReadBack_siftedAll h.2, placedAll,
      List.forall_mem_append]

end

mutual

theorem placed_readsBack :
    ∀ {top : Bool} {r : Rule}, readsBack top r → ∀ p ∈ placed top r, readsBack p.1 (style p.2)
  | _, style r, h => by simpa [placed] using h
  | _, group head rules, h => by
    rw [readsBack, Bool.and_eq_true] at h
    exact placedAll_readsBack h.2
  | _, statement _, _ | _, descriptors _ _, _ | _, keyframes _ _, _ | _, raw _ _, _ => by
    simp [placed]

theorem placedAll_readsBack :
    ∀ {top : Bool} {rules : List Rule}, allReadBack top rules →
      ∀ p ∈ placedAll top rules, readsBack p.1 (style p.2)
  | _, [], _ => by simp [placedAll]
  | _, r :: rs, h => by
    rw [allReadBack, Bool.and_eq_true] at h
    rw [placedAll, List.forall_mem_append]
    exact ⟨placed_readsBack h.1, placedAll_readsBack h.2⟩

end

/-- A style rule with fewer selectors is read back if and only if the first of them starts one. -/
theorem readsBack_keepSelectors {top : Bool} {keep : String → Bool} {r : StyleRule}
    (h : readsBack top (style r)) :
    (∀ r' ∈ keepSelectors keep r, readsBack top (style r')) ↔
      ∀ s ∈ (r.selectors.filter keep).head?, startsStyle top s.toList := by
  rw [readsBack, Bool.and_eq_true, selectorsReadBack_iff_entries] at h
  obtain ⟨⟨hentries, -⟩, hdeclarations⟩ := h
  have hentries : ∀ s ∈ r.selectors.filter keep, IsEntry s := fun s hs =>
    hentries s (List.mem_of_mem_filter hs)
  rw [keepSelectors]
  generalize r.selectors.filter keep = ss at hentries
  cases ss with
  | nil => simp
  | cons s ss =>
    simp only [List.isEmpty_cons, Bool.false_eq_true, if_false, Option.mem_def, Option.some.injEq,
      forall_eq', readsBack, hdeclarations, Bool.and_true, selectorsReadBack_iff_entries,
      List.head?_cons, exists_eq_left']
    exact and_iff_right hentries

end Rule

namespace Stylesheet

/-- The style rules of a sheet, each with whether it stands outside of all groups. -/
def placed (s : Stylesheet) : List (Bool × StyleRule) :=
  Rule.placedAll true s.rules

variable {sheet : Stylesheet}

theorem readsBack_grayed (h : sheet.readsBack) :
    sheet.grayed.1.readsBack ↔ ∀ d ∈ sheet.declarations, d.callsApart := by
  rw [grayed_eq, readsBack, Rule.allReadBack_mapDeclarationsAll h]
  exact forall₂_congr fun d hd =>
    Declaration.readsBack_gray_iff (Rule.declarationsAll_readsBack h d hd)

theorem readsBack_withoutDead (h : sheet.readsBack) (d : Dom) :
    (sheet.withoutDead d).1.readsBack ↔
      ∀ p ∈ sheet.placed, ∀ s ∈ (p.2.selectors.filter (isAlive d)).head?,
        startsStyle p.1 s.toList := by
  rw [withoutDead_rules, readsBack, Rule.allReadBack_siftedAll h]
  exact forall₂_congr fun p hp => Rule.readsBack_keepSelectors (Rule.placedAll_readsBack h p hp)

/-- The edit that removes the style rules with a declaration for the target. -/
def visible? (t : Revision.HiddenTarget) (r : StyleRule) : Option StyleRule :=
  if r.declarations.any t.matchesDeclaration then none else some r

theorem hiddenVisit_eq (t : Revision.HiddenTarget) :
    hiddenVisit t = styleVisit (visible? t)
      (fun r removed => if r.declarations.any t.matchesDeclaration then removed ++ [r]
        else removed) := by
  funext r removed
  cases r with
  | style r =>
    by_cases h : r.declarations.any t.matchesDeclaration
    · simp only [hiddenVisit, styleVisit, visible?, if_pos h]
      rfl
    · simp only [hiddenVisit, styleVisit, visible?, if_neg h]
      rfl
  | statement _ | group _ _ | descriptors _ _ | keyframes _ _ | raw _ _ => rfl

theorem withoutHidden_eq (t : Revision.HiddenTarget) (sheet : Stylesheet) :
    sheet.withoutHidden t =
      (⟨Rule.siftedAll (visible? t) sheet.rules⟩,
        noted (fun r removed => if r.declarations.any t.matchesDeclaration then removed ++ [r]
          else removed) (Rule.stylesAll sheet.rules) []) := by
  have h := walkRules_styleVisit (visible? t)
    (fun r removed => if r.declarations.any t.matchesDeclaration then removed ++ [r] else removed)
    sheet []
  rw [← hiddenVisit_eq] at h
  simp only [withoutHidden]
  rw [show sheet.walkRules [.rule] (hiddenVisit t) 0 [] = _ from h, ← Rule.prunedAll_editedAll]
  rfl

theorem withoutHidden_rules (t : Revision.HiddenTarget) (sheet : Stylesheet) :
    (sheet.withoutHidden t).1 = ⟨Rule.siftedAll (visible? t) sheet.rules⟩ :=
  congrArg Prod.fst (withoutHidden_eq t sheet)

theorem readsBack_withoutHidden (h : sheet.readsBack) (t : Revision.HiddenTarget) :
    (sheet.withoutHidden t).1.readsBack := by
  rw [withoutHidden_rules, readsBack, Rule.allReadBack_siftedAll h]
  intro p hp r' hr'
  obtain rfl : p.2 = r' := by
    rw [visible?] at hr'
    split_ifs at hr'
    · cases hr'
    · exact Option.some.inj hr'
  exact Rule.placedAll_readsBack h p hp

end Stylesheet

end Css

namespace Revision.Session

open Css

/-- A sheet that is read back from its text is read back after a pass if and only if each gray in
the place of a call ends where the call did, and the first selector that is left of each style rule
starts one. Rules that hide content can always go. -/
theorem reviseSheet_parse_css_iff (k : PassKind) (t : HiddenTarget) (sheet : Stylesheet)
    (s : Session) (h : Stylesheet.parse sheet.css = .ok sheet) :
    Stylesheet.parse (s.reviseSheet k t sheet).1.css = .ok (s.reviseSheet k t sheet).1 ↔
      match k with
      | .grayscale => ∀ d ∈ sheet.declarations, d.callsApart
      | .removeHidden => True
      | .deadCode =>
        ∀ p ∈ sheet.placed, ∀ selector ∈ (p.2.selectors.filter (Stylesheet.isAlive s.dom)).head?,
          startsStyle p.1 selector.toList := by
  rw [Stylesheet.parse_css_eq_ok_iff] at h ⊢
  cases k with
  | grayscale => exact Stylesheet.readsBack_grayed h
  | removeHidden => exact iff_true_intro (Stylesheet.readsBack_withoutHidden h t)
  | deadCode => exact Stylesheet.readsBack_withoutDead h s.dom

/-- A gray in the place of a call that is followed by white space. -/
theorem reviseSheet_parse_css_spaced :
    ∃ sheet, Stylesheet.parse "a\x7bcolor:rgb(1,2,3) x\x7d" = .ok sheet ∧
      let revised := ((start .empty .empty).reviseSheet .grayscale .standard sheet).1
      Stylesheet.parse revised.css = .ok revised :=
  let value : List Value := [.call "rgb" [.other "1,2,3"], .other " ", .identifier "x"]
  ⟨⟨[.style ⟨["a"], [⟨"color", value, false⟩]⟩]⟩, by decide +kernel,
    (reviseSheet_parse_css_iff .grayscale .standard _ _ (by decide +kernel)).2 (by decide +kernel)⟩

/-- A gray runs into a name after the call, and an at-keyword comes first once the selector before
it is gone. -/
theorem reviseSheet_runs_together :
    (∃ sheet, Stylesheet.parse "a\x7bcolor:rgb(255,0,0)ab\x7d" = .ok sheet ∧
      Stylesheet.parse sheet.css = .ok sheet ∧
      let revised := ((start .empty .empty).reviseSheet .grayscale .standard sheet).1
      revised.css = "a\x7bcolor:#4c4c4cab\x7d" ∧ Stylesheet.parse revised.css ≠ .ok revised) ∧
    ∃ sheet, Stylesheet.parse "c,@media x\x7bd:e\x7d" = .ok sheet ∧
      Stylesheet.parse sheet.css = .ok sheet ∧
      let revised := ((start .empty .empty).reviseSheet .deadCode .standard sheet).1
      revised.css = "@media x\x7bd:e\x7d" ∧ Stylesheet.parse revised.css ≠ .ok revised := by
  let value : List Value := [.call "rgb" [.other "255,0,0"], .identifier "ab"]
  refine ⟨⟨⟨[.style ⟨["a"], [⟨"color", value, false⟩]⟩]⟩, ?_⟩,
    ⟨⟨[.style ⟨["c", "@media x"], [⟨"d", [.identifier "e"], false⟩]⟩]⟩, ?_⟩⟩ <;> decide +kernel

end Revision.Session

end Restyle
