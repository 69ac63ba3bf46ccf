import Restyle.Proofs.Css.StyleRules
import Restyle.Revision.Session

/-!
# Taking out dead selectors

`Stylesheet.withoutDead` keeps of every style rule the selectors that match an element of the
document or cannot be evaluated. Main statement: what is left is exactly what `Rule.siftedAll`
describes, the report grows by the number of style rules that went, the document stays, and each
element of the document gets the same declarations under the same conditions as before
(`reviseSheet_deadCode`).
-/

namespace Restyle

namespace Css

open Revision

/-! ## Declarations that an element gets -/

namespace Rule

mutual

/-- The declarations of the style rules with a selector that `hits` selects, each with the heads of
the conditional groups around it, outermost first. -/
def applied (hits : String → Bool) (heads : List AtHead) :
    Rule → List (List AtHead × List Declaration)
  | style r => if r.selectors.any hits then [(heads, r.declarations)] else []
  | group head rules => appliedAll hits (heads ++ [head]) rules
  | _ => []

/-- The declarations that a list of rules applies, in order. -/
def appliedAll (hits : String → Bool) (heads : List AtHead) :
    List Rule → List (List AtHead × List Declaration)
  | [] => []
  | r :: rs => applied hits heads r ++ appliedAll hits heads rs

end

/-- A style rule with the selectors that `keep` selects; `none` if there are none. -/
def keepSelectors (keep : String → Bool) (r : StyleRule) : Option StyleRule :=
  if (r.selectors.filter keep).isEmpty then none
  else some { r with selectors := r.selectors.filter keep }

variable {keep hits : String → Bool}

theorem any_filter_of_imp (h : ∀ x, hits x → keep x) (xs : List String) :
    (xs.filter keep).any hits = xs.any hits := by
  rw [Bool.eq_iff_iff, List.any_eq_true, List.any_eq_true]
  constructor
  · rintro ⟨x, hx, hit⟩
    exact ⟨x, (List.mem_filter.1 hx).1, hit⟩
  · rintro ⟨x, hx, hit⟩
    exact ⟨x, List.mem_filter.2 ⟨hx, h x hit⟩, hit⟩

theorem appliedAll_append (heads : List AtHead) (rs ss : List Rule) :
    appliedAll hits heads (rs ++ ss) = appliedAll hits heads rs ++ appliedAll hits heads ss := by
  induction rs with
  | nil => rfl
  | cons r rs ih => rw [List.cons_append, appliedAll, appliedAll, ih, List.append_assoc]

mutual

theorem appliedAll_sifted (h : ∀ x, hits x → keep x) (heads : List AtHead) :
    ∀ r : Rule, appliedAll hits heads (sifted (keepSelectors keep) r).toList = applied hits heads r
  | style r => by
    rw [sifted, applied, ← any_filter_of_imp h r.selectors, keepSelectors]
    by_cases hnone : (r.selectors.filter keep).isEmpty
    · rw [if_pos hnone, List.isEmpty_iff.1 hnone]
      rfl
    · rw [if_neg hnone, Option.map_some, Option.toList_some, appliedAll, applied, appliedAll,
        List.append_nil]
  | group head rules => by
    have ih := appliedAll_siftedAll h (heads ++ [head]) rules
    rw [sifted, applied, ← ih]
    by_cases hnone : (siftedAll (keepSelectors keep) rules).isEmpty
    · rw [if_pos hnone, List.isEmpty_iff.1 hnone]
      rfl
    · rw [if_neg hnone, Option.toList_some, appliedAll, applied, appliedAll, List.append_nil]
  | statement _ | descriptors _ _ | keyframes _ _ | raw _ _ => rfl

/-- Selectors that hit nothing can go without a change of what the rules apply. -/
theorem appliedAll_siftedAll (h : ∀ x, hits x → keep x) (heads : List AtHead) :
    ∀ rules : List Rule,
      appliedAll hits heads (siftedAll (keepSelectors keep) rules) = appliedAll hits heads rules
  | [] => rfl
  | r :: rs => by
    rw [siftedAll, appliedAll, appliedAll_append, appliedAll_sifted h heads r,
      appliedAll_siftedAll h heads rs]

end

end Rule

/-! ## Selectors that are alive -/

/-- Whether a selector can be evaluated and matches the given node. -/
def hitsNode (d : Dom) (id : NodeId) (selector : String) : Bool :=
  match Selector.parse selector with
  | .ok cs => cs.any fun c => c.holds d id
  | .error _ => false

namespace Stylesheet

theorem isAlive_iff (d : Dom) (selector : String) :
    isAlive d selector ↔
      (∃ e, d.selectAny selector = .error e) ∨ d.selectAny selector = .ok true := by
  unfold isAlive
  cases d.selectAny selector with
  | error e => simp
  | ok found => simp

theorem isAlive_of_hitsNode {d : Dom} {id : NodeId} (hid : id ∈ d.elements) {selector : String}
    (h : hitsNode d id selector) : isAlive d selector := by
  rw [isAlive_iff, Dom.selectAny]
  unfold hitsNode at h
  cases hparse : Selector.parse selector with
  | error e => exact .inl ⟨e, rfl⟩
  | ok cs =>
    rw [hparse] at h
    refine .inr (congrArg Except.ok ?_)
    rw [Selector.selectAny, Selector.selectFirst?, List.find?_isSome]
    exact ⟨id, hid, h⟩

/-! ## The pass -/

variable (d : Dom)

theorem deadVisit_eq :
    deadVisit d = styleVisit (Rule.keepSelectors (isAlive d))
      (fun r n => if (Rule.keepSelectors (isAlive d) r).isNone then n + 1 else n) := by
  funext r n
  cases r with
  | style r =>
    by_cases h : (r.selectors.filter (isAlive d)).isEmpty
    · simp only [deadVisit, styleVisit, Rule.keepSelectors, if_pos h]
      rfl
    · simp only [deadVisit, styleVisit, Rule.keepSelectors, if_neg h]
      rfl
  | statement _ | group _ _ | descriptors _ _ | keyframes _ _ | raw _ _ => rfl

/-- Counting on from `n` the rules that an edit removes. -/
theorem noted_isNone (edit : StyleRule → Option StyleRule) (rules : List StyleRule) (n : Nat) :
    noted (fun r n => if (edit r).isNone then n + 1 else n) rules n +
        (rules.filterMap edit).length =
      n + rules.length := by
  induction rules generalizing n with
  | nil => rfl
  | cons r rules ih =>
    rw [noted, List.foldl_cons, ← noted, List.filterMap_cons, List.length_cons]
    cases edit r with
    | none =>
      rw [ih, Option.isNone_none, if_pos rfl]
      omega
    | some r' =>
      have := ih n
      simp only [Option.isNone_some, Bool.false_eq_true, if_false, List.length_cons]
      omega

theorem withoutDead_eq (sheet : Stylesheet) :
    sheet.withoutDead d =
      (⟨Rule.siftedAll (Rule.keepSelectors (isAlive d)) sheet.rules⟩,
        noted (fun r n => if (Rule.keepSelectors (isAlive d) r).isNone then n + 1 else n)
          (Rule.stylesAll sheet.rules) 0) := by
  have h := walkRules_styleVisit (Rule.keepSelectors (isAlive d))
    (fun r n => if (Rule.keepSelectors (isAlive d) r).isNone then n + 1 else n) sheet 0
  rw [← deadVisit_eq] at h
  simp only [withoutDead]
  rw [show sheet.walkRules [.rule] (deadVisit d) 0 0 = _ from h, ← Rule.prunedAll_editedAll]
  rfl

theorem withoutDead_rules (sheet : Stylesheet) :
    (sheet.withoutDead d).1 = ⟨Rule.siftedAll (Rule.keepSelectors (isAlive d)) sheet.rules⟩ :=
  congrArg Prod.fst (withoutDead_eq d sheet)

/-- The rules that go and the rules that stay are all the rules. -/
theorem withoutDead_count (sheet : Stylesheet) :
    (sheet.withoutDead d).2 + (sheet.withoutDead d).1.styleCount = sheet.styleCount := by
  rw [withoutDead_eq, styleCount, styleCount, ← Rule.length_stylesAll, ← Rule.length_stylesAll,
    Rule.stylesAll_siftedAll, noted_isNone, Nat.zero_add]

end Stylesheet

end Css

namespace Revision.Session

open Css

/-- Dead code goes and nothing else: the document, the warnings and the other counts stay, the
report grows by the number of style rules that went, of every style rule exactly the selectors that
match or cannot be evaluated stay, rules and groups left empty go, and every element of the document
gets the same declarations under the same conditions. -/
theorem reviseSheet_deadCode (t : HiddenTarget) (sheet : Stylesheet) (s : Session) :
    ∃ sheet' : Stylesheet,
      s.reviseSheet .deadCode t sheet =
        (sheet', { s with report := { s.report with
          rulesRemoved := s.report.rulesRemoved + (sheet.styleCount - sheet'.styleCount) } }) ∧
      sheet'.styleCount ≤ sheet.styleCount ∧
      sheet'.rules =
        Rule.siftedAll (Rule.keepSelectors (Stylesheet.isAlive s.dom)) sheet.rules ∧
      (∀ selector, Stylesheet.isAlive s.dom selector ↔
        (∃ e, s.dom.selectAny selector = .error e) ∨ s.dom.selectAny selector = .ok true) ∧
      ∀ id ∈ s.dom.elements,
        Rule.appliedAll (hitsNode s.dom id) [] sheet'.rules =
          Rule.appliedAll (hitsNode s.dom id) [] sheet.rules := by
  have hcount := Stylesheet.withoutDead_count s.dom sheet
  have hrules := Stylesheet.withoutDead_rules s.dom sheet
  refine ⟨(sheet.withoutDead s.dom).1, ?_, by omega, by rw [hrules], Stylesheet.isAlive_iff s.dom,
    fun id hid => ?_⟩
  · simp only [reviseSheet, countRules]
    rw [← hcount, Nat.add_sub_cancel]
  · rw [hrules]
    exact Rule.appliedAll_siftedAll (fun _ => Stylesheet.isAlive_of_hitsNode hid) [] sheet.rules

end Revision.Session

end Restyle
