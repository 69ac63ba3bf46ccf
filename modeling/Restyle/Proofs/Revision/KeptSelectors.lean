import Mathlib.Data.List.TakeWhile
import Restyle.Proofs.Css.Scan
import Restyle.Proofs.Revision.Containment
import Restyle.Proofs.Revision.DeadCode

/-!
# Style sheets without dead selectors

What is left of a sheet once the dead selectors are gone stays as it is if its selectors are alive
in another document too (`withoutDead_withoutDead`); otherwise its text gets shorter
(`length_css_withoutDead_le`). A text of white space has no rules (`parse_blank`).
-/

namespace Restyle.Css

namespace Rule

/-! ## Two edits -/

section

variable {edit edit' : StyleRule → Option StyleRule}

theorem siftedAll_append (rs ss : List Rule) :
    siftedAll edit (rs ++ ss) = siftedAll edit rs ++ siftedAll edit ss := by
  induction rs with
  | nil => rfl
  | cons r rs ih => rw [List.cons_append, siftedAll, siftedAll, ih, List.append_assoc]

mutual

theorem siftedAll_sifted : ∀ r : Rule,
    siftedAll edit' (sifted edit r).toList = (sifted (fun r => (edit r).bind edit') r).toList
  | style r => by
    rw [sifted, sifted]
    cases edit r with
    | none => rfl
    | some r' => rw [Option.map_some, Option.toList_some, siftedAll, siftedAll, sifted,
        List.append_nil, Option.bind_some]
  | group head rules => by
    have ih := siftedAll_siftedAll rules
    rw [sifted, sifted, ← ih]
    by_cases hnone : (siftedAll edit rules).isEmpty
    · rw [if_pos hnone, List.isEmpty_iff.1 hnone]
      rfl
    · rw [if_neg hnone, Option.toList_some, siftedAll, siftedAll, sifted, List.append_nil]
  | statement _ | descriptors _ _ | keyframes _ _ | raw _ _ => rfl

/-- Two edits one after the other are one edit. -/
theorem siftedAll_siftedAll : ∀ rules : List Rule,
    siftedAll edit' (siftedAll edit rules) = siftedAll (fun r => (edit r).bind edit') rules
  | [] => rfl
  | r :: rs => by
    rw [siftedAll, siftedAll, siftedAll_append, siftedAll_sifted r, siftedAll_siftedAll rs]

end

mutual

theorem sifted_congr : ∀ {r : Rule}, (∀ s ∈ styles r, edit s = edit' s) →
    sifted edit r = sifted edit' r
  | style r, h => by rw [sifted, sifted, h r List.mem_cons_self]
  | group head rules, h => by rw [sifted, sifted, siftedAll_congr h]
  | statement _, _ | descriptors _ _, _ | keyframes _ _, _ | raw _ _, _ => rfl

theorem siftedAll_congr : ∀ {rules : List Rule}, (∀ s ∈ stylesAll rules, edit s = edit' s) →
    siftedAll edit rules = siftedAll edit' rules
  | [], _ => rfl
  | r :: rs, h => by
    rw [stylesAll, List.forall_mem_append] at h
    rw [siftedAll, siftedAll, sifted_congr h.1, siftedAll_congr h.2]

end

end

/-! ## Selectors -/

/-- The selectors of some style rules. -/
def selectorsOf (rules : List StyleRule) : List String :=
  rules.flatMap (·.selectors)

variable {keep keep' : String → Bool}

theorem keepSelectors_eq_some_iff {r r' : StyleRule} :
    keepSelectors keep r = some r' ↔
      r.selectors.filter keep ≠ [] ∧ r' = { r with selectors := r.selectors.filter keep } := by
  rw [keepSelectors]
  split_ifs with h
  · simp [List.isEmpty_iff.1 h]
  · rw [List.isEmpty_iff] at h
    simp [h, eq_comm]

/-- The rules that are left stay as they are if their selectors are kept again. -/
theorem siftedAll_eq_self {rules : List Rule}
    (h : ∀ s ∈ selectorsOf (stylesAll (siftedAll (keepSelectors keep) rules)), keep' s) :
    siftedAll (keepSelectors keep') (siftedAll (keepSelectors keep) rules) =
      siftedAll (keepSelectors keep) rules := by
  rw [siftedAll_siftedAll]
  refine siftedAll_congr fun r hr => ?_
  cases hkept : keepSelectors keep r with
  | none => rfl
  | some r' =>
    have hmem : r' ∈ stylesAll (siftedAll (keepSelectors keep) rules) := by
      rw [stylesAll_siftedAll]
      exact List.mem_filterMap.2 ⟨r, hr, hkept⟩
    have hall : r'.selectors.filter keep' = r'.selectors :=
      List.filter_eq_self.2 fun s hs => h s (List.mem_flatMap.2 ⟨r', hmem, hs⟩)
    obtain ⟨hne, rfl⟩ := keepSelectors_eq_some_iff.1 hkept
    rw [Option.bind_some, keepSelectors_eq_some_iff, hall]
    exact ⟨hne, rfl⟩

theorem keep_of_mem_selectorsOf {rules : List Rule} {s : String}
    (h : s ∈ selectorsOf (stylesAll (siftedAll (keepSelectors keep) rules))) : keep s := by
  obtain ⟨r', hr', hs⟩ := List.mem_flatMap.1 h
  rw [stylesAll_siftedAll] at hr'
  obtain ⟨r, -, hkept⟩ := List.mem_filterMap.1 hr'
  obtain ⟨-, rfl⟩ := keepSelectors_eq_some_iff.1 hkept
  exact (List.mem_filter.1 hs).2

/-! ## The length of the text -/

theorem sum_filter_le {α : Type} (weight : α → Nat) (hpos : ∀ x, 0 < weight x) (keep : α → Bool)
    (xs : List α) :
    ((xs.filter keep).map weight).sum ≤ (xs.map weight).sum ∧
      (((xs.filter keep).map weight).sum = (xs.map weight).sum → ∀ x ∈ xs, keep x) := by
  induction xs with
  | nil => simp
  | cons x xs ih =>
    have hx := hpos x
    rw [List.filter_cons, List.forall_mem_cons]
    cases hkeep : keep x with
    | true =>
      rw [if_pos rfl, List.map_cons, List.map_cons, List.sum_cons, List.sum_cons]
      exact ⟨by omega, fun h => ⟨rfl, ih.2 (by omega)⟩⟩
    | false =>
      rw [if_neg (by simp), List.map_cons, List.sum_cons]
      exact ⟨by omega, fun h => absurd h (by omega)⟩

theorem length_selectorsCss {ss : List String} (h : ss ≠ []) :
    (selectorsCss ss).length + 1 = (ss.map fun s => s.length + 1).sum := by
  induction ss with
  | nil => exact absurd rfl h
  | cons s ss ih =>
    cases ss with
    | nil => simp [selectorsCss]
    | cons s' ss =>
      rw [List.map_cons, List.sum_cons, ← ih (by simp), selectorsCss]
      · simp only [String.length_append]
        have hcomma : ",".length = 1 := by decide
        omega
      · simp

theorem length_keepSelectors_le {r r' : StyleRule} (h : keepSelectors keep r = some r') :
    r'.css.length ≤ r.css.length ∧
      (r'.css.length = r.css.length → ∀ s ∈ r.selectors, keep s) := by
  obtain ⟨hne, rfl⟩ := keepSelectors_eq_some_iff.1 h
  have hkept := length_selectorsCss hne
  have hne' : r.selectors ≠ [] := fun hnil => hne (by rw [hnil, List.filter_nil])
  have hall := length_selectorsCss hne'
  have hsum := sum_filter_le (fun s : String => s.length + 1) (fun s => Nat.succ_pos s.length) keep
    r.selectors
  rw [StyleRule.css, StyleRule.css, String.length_append, String.length_append]
  dsimp only
  exact ⟨by omega, fun heq => hsum.2 (by omega)⟩

theorem length_braces (inside : String) : (braces inside).length = inside.length + 2 := by
  have hopen : "\x7b".length = 1 := by decide
  have hclose : "\x7d".length = 1 := by decide
  rw [braces, String.length_append, String.length_append]
  omega

mutual

theorem length_cssAll_sifted_le : ∀ r : Rule,
    (cssAll (sifted (keepSelectors keep) r).toList).length ≤ (css r).length ∧
      ((cssAll (sifted (keepSelectors keep) r).toList).length = (css r).length →
        ∀ s ∈ selectorsOf (styles r), keep s)
  | style r => by
    have hlength := length_braces (Declaration.cssAll r.declarations)
    rw [sifted, css, styles, selectorsOf, List.flatMap_singleton]
    cases hkept : keepSelectors keep r with
    | none =>
      rw [StyleRule.css, String.length_append]
      exact ⟨Nat.zero_le _, fun h => absurd h (by simp [cssAll]; omega)⟩
    | some r' =>
      rw [Option.map_some, Option.toList_some, cssAll, css, cssAll, String.append_empty]
      exact length_keepSelectors_le hkept
  | group head rules => by
    have ih : (cssAll (siftedAll (keepSelectors keep) rules)).length ≤ _ ∧ _ :=
      length_cssAll_siftedAll_le rules
    have hlength := length_braces (cssAll rules)
    rw [sifted, css, styles]
    split_ifs with hnone
    · rw [String.length_append]
      exact ⟨Nat.zero_le _, fun h => absurd h (by simp [cssAll]; omega)⟩
    · have hlength' := length_braces (cssAll (siftedAll (keepSelectors keep) rules))
      rw [Option.toList_some, cssAll, css, cssAll, String.append_empty, String.length_append,
        String.length_append]
      exact ⟨by omega, fun h => ih.2 (by omega)⟩
  | statement _ | descriptors _ _ | keyframes _ _ | raw _ _ => by
    simp [sifted, cssAll, styles, selectorsOf]

/-- The text gets shorter unless all selectors are kept. -/
theorem length_cssAll_siftedAll_le : ∀ rules : List Rule,
    (cssAll (siftedAll (keepSelectors keep) rules)).length ≤ (cssAll rules).length ∧
      ((cssAll (siftedAll (keepSelectors keep) rules)).length = (cssAll rules).length →
        ∀ s ∈ selectorsOf (stylesAll rules), keep s)
  | [] => by simp [siftedAll, stylesAll, selectorsOf]
  | r :: rs => by
    have hr : (cssAll (sifted (keepSelectors keep) r).toList).length ≤ _ ∧ _ :=
      length_cssAll_sifted_le r
    have hrs : (cssAll (siftedAll (keepSelectors keep) rs)).length ≤ _ ∧ _ :=
      length_cssAll_siftedAll_le rs
    rw [siftedAll, cssAll_append, cssAll, String.length_append, String.length_append, stylesAll,
      selectorsOf, List.flatMap_append, List.forall_mem_append]
    exact ⟨by omega, fun h => ⟨hr.2 (by omega), hrs.2 (by omega)⟩⟩

end

end Rule

/-! ## Sheets -/

/-- A text of white space is one lexeme, if it is not empty. -/
theorem Lexeme.token_eq_whitespace_of_blank {source : String}
    (h : source.toList.all Text.isSpace) : ∀ l ∈ scan source, l.token = .whitespace := by
  have hnil : Lexer.skipComments [] = [] := by simp [Lexer.skipComments]
  rw [scan]
  generalize source.toList = s at h
  cases s with
  | nil => simp [scanFrom_of_skipComments_eq_nil hnil]
  | cons c r =>
    rw [List.all_cons, Bool.and_eq_true] at h
    have hskip : Lexer.skipComments (c :: r) = c :: r := by
      refine Lexer.skipComments_cons ?_ r
      rintro rfl
      exact absurd h.1 (by decide)
    have htoken : Lexer.token c r = (.whitespace, []) := by
      unfold Lexer.token
      rw [if_pos h.1, List.dropWhile_eq_nil_iff.2 (List.all_eq_true.1 h.2)]
    obtain ⟨start₁, start₂, hscan⟩ : ∃ start₁ start₂, scanFrom false 0 (c :: r) = _ ++ _ :: _ :=
      scanFrom_of_skipComments_eq_cons hskip
    rw [htoken, scanFrom_of_skipComments_eq_nil hnil, Nat.sub_self, List.take_zero] at hscan
    simp [hscan, gap]

namespace Stylesheet

/-- The selectors of a sheet. -/
def selectors (s : Stylesheet) : List String :=
  Rule.selectorsOf (Rule.stylesAll s.rules)

variable {d d' : Dom}

theorem isAlive_of_mem_selectors {sheet : Stylesheet} {s : String}
    (h : s ∈ (sheet.withoutDead d).1.selectors) : isAlive d s := by
  rw [withoutDead_rules] at h
  exact Rule.keep_of_mem_selectorsOf h

/-- What is left of a sheet stays as it is if its selectors are alive. -/
theorem withoutDead_withoutDead {sheet : Stylesheet}
    (h : ∀ s ∈ (sheet.withoutDead d).1.selectors, isAlive d' s) :
    (sheet.withoutDead d).1.withoutDead d' = ((sheet.withoutDead d).1, 0) := by
  have hrules : ((sheet.withoutDead d).1.withoutDead d').1 = (sheet.withoutDead d).1 := by
    rw [withoutDead_rules] at h
    rw [withoutDead_rules, withoutDead_rules]
    exact congrArg Stylesheet.mk (Rule.siftedAll_eq_self h)
  have hcount := withoutDead_count d' (sheet.withoutDead d).1
  rw [hrules] at hcount
  exact Prod.ext hrules (by dsimp only; omega)

/-- The text of a sheet gets shorter unless all its selectors are alive. -/
theorem length_css_withoutDead_le (sheet : Stylesheet) :
    (sheet.withoutDead d).1.css.length ≤ sheet.css.length ∧
      ((sheet.withoutDead d).1.css.length = sheet.css.length →
        ∀ s ∈ sheet.selectors, isAlive d s) := by
  rw [withoutDead_rules]
  exact Rule.length_cssAll_siftedAll_le sheet.rules

/-- What is left of a sheet stays as it is if its selectors are alive, and otherwise its text gets
shorter. -/
theorem withoutDead_cases (d d' : Dom) (sheet : Stylesheet) :
    let kept := (sheet.withoutDead d).1
    ((∀ s ∈ kept.selectors, isAlive d' s) ∧ kept.withoutDead d' = (kept, 0)) ∨
      (kept.withoutDead d').1.css.length < kept.css.length := by
  intro kept
  obtain ⟨hle, halive⟩ := length_css_withoutDead_le (d := d') kept
  rcases Nat.lt_or_ge (kept.withoutDead d').1.css.length kept.css.length with hlt | hge
  · exact .inr hlt
  · have halive := halive (Nat.le_antisymm hle hge)
    exact .inl ⟨halive, withoutDead_withoutDead halive⟩

/-- A text of white space is a sheet without rules. -/
theorem parse_blank {source : String} (h : source.toList.all Text.isSpace) :
    parse source = .ok ⟨[]⟩ := by
  have hscan := Lexeme.token_eq_whitespace_of_blank h
  refine parse_eq_ok_iff.2 ⟨fun l hl => ?_, ?_⟩
  · rw [Lexeme.isBroken, hscan l hl]
    rfl
  · generalize Lexeme.scan source = ls at hscan
    induction ls with
    | nil => exact .nil
    | cons l ls ih =>
      rw [List.forall_mem_cons] at hscan
      exact .skip (by simp [Rule.isSkipped, Lexeme.isSpace, hscan.1]) (ih hscan.2)

end Stylesheet

end Restyle.Css
