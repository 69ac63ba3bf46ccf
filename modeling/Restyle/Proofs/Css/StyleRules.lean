import Restyle.Revision.Pass

/-!
# Walks over style rules

`Stylesheet.withoutDead` and `Stylesheet.withoutHidden` walk the style rules of a sheet, at any
depth of conditional groups, with a visit of one shape: it edits or removes the rule and notes it.
`walkRules_styleVisit` says what such a walk does, in terms of the recursion `editedAll` and of the
list `stylesAll` of all style rules. `siftedAll` is what is left once the groups without rules are
gone too (`prunedAll_editedAll`).
-/

namespace Restyle.Css

variable {σ : Type}

namespace Rule

mutual

/-- The style rules in a rule, those of its group included. -/
def styles : Rule → List StyleRule
  | style r => [r]
  | group _ rules => stylesAll rules
  | _ => []

/-- The style rules in a list of rules, at any depth and in order. -/
def stylesAll : List Rule → List StyleRule
  | [] => []
  | r :: rs => styles r ++ stylesAll rs

end

variable (edit : StyleRule → Option StyleRule)

mutual

/-- The rule with its style rules edited; `none` if it is a style rule that goes. -/
def edited : Rule → Option Rule
  | style r => (edit r).map style
  | group head rules => some (group head (editedAll rules))
  | r => some r

/-- The rules with the style rules among them edited, at any depth. -/
def editedAll : List Rule → List Rule
  | [] => []
  | r :: rs => (edited r).toList ++ editedAll rs

end

mutual

/-- The rule with its style rules edited; `none` if it is a style rule that goes, or a conditional
group in which no rule is left. -/
def sifted : Rule → Option Rule
  | style r => (edit r).map style
  | group head rules =>
    if (siftedAll rules).isEmpty then none else some (group head (siftedAll rules))
  | r => some r

/-- The rules with the style rules among them edited, without the conditional groups in which no
rule is left. -/
def siftedAll : List Rule → List Rule
  | [] => []
  | r :: rs => (sifted r).toList ++ siftedAll rs

end

/-! ## Counting -/

mutual

theorem length_styles : ∀ r : Rule, (styles r).length = styleCount r
  | style _ => rfl
  | group _ rules => by
    rw [styles, styleCount]
    exact length_stylesAll rules
  | statement _ | descriptors _ _ | keyframes _ _ | raw _ _ => rfl

theorem length_stylesAll : ∀ rules : List Rule, (stylesAll rules).length = styleCountAll rules
  | [] => rfl
  | r :: rs => by
    rw [stylesAll, styleCountAll, List.length_append, length_styles r, length_stylesAll rs]

end

theorem stylesAll_append (rs ss : List Rule) :
    stylesAll (rs ++ ss) = stylesAll rs ++ stylesAll ss := by
  induction rs with
  | nil => rfl
  | cons r rs ih => rw [List.cons_append, stylesAll, stylesAll, ih, List.append_assoc]

mutual

theorem stylesAll_sifted :
    ∀ r : Rule, stylesAll (sifted edit r).toList = (styles r).filterMap edit
  | style r => by
    rw [sifted, styles, List.filterMap_cons, List.filterMap_nil]
    cases edit r <;> rfl
  | group head rules => by
    have ih := stylesAll_siftedAll rules
    rw [sifted, styles, ← ih]
    by_cases h : siftedAll edit rules = []
    · rw [h]
      rfl
    · rw [if_neg (by simpa using h), Option.toList_some, stylesAll, styles, stylesAll,
        List.append_nil]
  | statement _ | descriptors _ _ | keyframes _ _ | raw _ _ => rfl

/-- The style rules that are left are those that the edit leaves, in order. -/
theorem stylesAll_siftedAll :
    ∀ rules : List Rule, stylesAll (siftedAll edit rules) = (stylesAll rules).filterMap edit
  | [] => rfl
  | r :: rs => by
    rw [siftedAll, stylesAll, stylesAll_append, List.filterMap_append, stylesAll_sifted r,
      stylesAll_siftedAll rs]

end

/-! ## Groups without rules -/

theorem prunedAll_append (rs ss : List Rule) :
    prunedAll (rs ++ ss) = prunedAll rs ++ prunedAll ss := by
  induction rs with
  | nil => rfl
  | cons r rs ih => rw [List.cons_append, prunedAll, prunedAll, ih, List.append_assoc]

mutual

theorem prunedAll_edited : ∀ r : Rule, prunedAll (edited edit r).toList = (sifted edit r).toList
  | style r => by
    rw [edited, sifted]
    cases edit r <;> rfl
  | group head rules => by
    have ih := prunedAll_editedAll rules
    rw [edited, sifted, Option.toList_some, prunedAll, pruned?, ih]
    cases siftedAll edit rules <;> rfl
  | statement _ | descriptors _ _ | keyframes _ _ | raw _ _ => rfl

/-- Taking out the groups without rules after the edit is the same as doing both at once. -/
theorem prunedAll_editedAll :
    ∀ rules : List Rule, prunedAll (editedAll edit rules) = siftedAll edit rules
  | [] => rfl
  | r :: rs => by
    rw [editedAll, siftedAll, prunedAll_append, prunedAll_edited r, prunedAll_editedAll rs]

end

end Rule

/-! ## The walk -/

/-- The visit that edits style rules, or removes them, and notes each one in the state. -/
def styleVisit (edit : StyleRule → Option StyleRule) (note : StyleRule → σ → σ) : Visit σ Rule :=
  fun r => do
    match r with
    | .style rule =>
      modify (note rule)
      return (edit rule).map Rule.style
    | r => return some r

variable (edit : StyleRule → Option StyleRule) (note : StyleRule → σ → σ)

/-- The state after the style rules of a list were noted one after the other. -/
def noted (rules : List StyleRule) (s : σ) : σ :=
  rules.foldl (fun s r => note r s) s

theorem noted_append (rs ss : List StyleRule) (s : σ) :
    noted note (rs ++ ss) s = noted note ss (noted note rs s) :=
  List.foldl_append

theorem Rule.size_pos (r : Rule) : 0 < r.size := by
  cases r <;> simp [Rule.size]

section

variable {edit note} {down : List Rule → StateM σ (List Rule)} {bound : Nat}
  (hdown : ∀ rules s, Rule.sizeAll rules < bound →
    (down rules).run s = (Rule.editedAll edit rules, noted note (Rule.stylesAll rules) s))

include hdown

/-- One step of the walk, where `down` walks what is smaller than `bound`. -/
theorem walkList_cons_styleVisit (done todo : List Rule) (r : Rule) (s : σ)
    (hsize : r.size ≤ bound) :
    (walkList [.rule] (styleVisit edit note) down done (r :: todo)).run s =
      (walkList [.rule] (styleVisit edit note) down ((Rule.edited edit r).toList ++ done) todo).run
        (noted note r.styles s) := by
  have hpos := r.size_pos
  have hnil : ∀ s, (down []).run s = ([], s) := fun s => hdown [] s (by rw [Rule.sizeAll]; omega)
  cases r with
  | style rule =>
    rw [walkList, Rule.edited, Rule.styles]
    cases h : edit rule with
    | none => simp [styleVisit, Walkable.kind, Rule.kind, noted, h]
    | some rule' =>
      simp [styleVisit, Walkable.kind, Walkable.children, Walkable.withChildren, Rule.kind, noted,
        h, hnil]
      rfl
  | group head rules =>
    rw [Rule.size] at hsize
    have hrules := fun s => hdown rules s (by omega)
    simp [walkList, Walkable.kind, Walkable.children, Walkable.withChildren, Rule.kind,
      Rule.edited, Rule.styles, hrules]
    rfl
  | statement _ | descriptors _ _ | keyframes _ _ | raw _ _ =>
    simp [walkList, Walkable.kind, Walkable.children, Walkable.withChildren, Rule.kind,
      Rule.edited, Rule.styles, noted, hnil]
    rfl

theorem walkList_styleVisit (todo done : List Rule) (s : σ) (hsize : Rule.sizeAll todo ≤ bound) :
    (walkList [.rule] (styleVisit edit note) down done todo).run s =
      (done.reverse ++ Rule.editedAll edit todo, noted note (Rule.stylesAll todo) s) := by
  induction todo generalizing done s with
  | nil =>
    simp [walkList, Rule.editedAll, Rule.stylesAll, noted]
    rfl
  | cons r todo ih =>
    rw [Rule.sizeAll] at hsize
    rw [walkList_cons_styleVisit hdown done todo r s (by omega), ih _ _ (by omega),
      Rule.editedAll, Rule.stylesAll, noted_append, List.reverse_append, List.append_assoc]
    cases Rule.edited edit r <;> rfl

end

/-- A walk that goes deeper than the rules are nested edits all style rules. -/
theorem walk_styleVisit (depth : Nat) (rules : List Rule) (s : σ)
    (hdepth : Rule.sizeAll rules < depth) :
    (walk [.rule] (styleVisit edit note) depth rules).run s =
      (Rule.editedAll edit rules, noted note (Rule.stylesAll rules) s) := by
  induction depth generalizing rules s with
  | zero => omega
  | succ depth ih =>
    rw [walk, walkList_styleVisit ih rules [] s (by omega)]
    rfl

/-- A walk over the style rules of a sheet edits all of them and notes them in order. -/
theorem walkRules_styleVisit (sheet : Stylesheet) (s : σ) :
    (sheet.walkRules [.rule] (styleVisit edit note) 0).run s =
      (⟨Rule.editedAll edit sheet.rules⟩, noted note (Rule.stylesAll sheet.rules) s) := by
  have h := walk_styleVisit edit note (Rule.sizeAll sheet.rules + 0 + 1) sheet.rules s (by omega)
  simp only [Stylesheet.walkRules, walkAll, Walkable.sizeAll, StateT.run_bind, h]
  rfl

end Restyle.Css
