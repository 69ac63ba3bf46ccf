import Mathlib.Algebra.GroupWithZero.Nat
import Restyle.Proofs.Css.Gray
import Restyle.Proofs.Css.Walking
import Restyle.Revision.Pass

/-!
# The walk that puts grays in the place of colors

`Stylesheet.grayed` walks all values of a sheet. Main statement: it leaves everything but the values
of the declarations, those are what `Value.grayAll` makes of them, and `Value.colorCount` counts
what is replaced (`grayed_eq`).
-/

namespace Restyle.Css

theorem map_eq_self_of_forall {α : Type} {f : α → α} {xs : List α} (h : ∀ x ∈ xs, f x = x) :
    xs.map f = xs :=
  (List.map_congr_left h).trans (List.map_id' xs)

namespace Value

mutual

/-- The number of colors in a value that a walk replaces by grays. What is inside such a color does
not count. -/
def colorCount : Value → Nat
  | call name args =>
    if (call name args).grayed?.isSome then 1 else colorCountAll args
  | v => v.grayed?.toList.length

/-- The number of colors in a list of values. -/
def colorCountAll : List Value → Nat
  | [] => 0
  | v :: vs => colorCount v + colorCountAll vs

end

end Value

/-- The number of colors in the value of a declaration. -/
def Declaration.colorCount (d : Declaration) : Nat :=
  Value.colorCountAll d.value

namespace Rule

mutual

/-- The declarations in a rule, at any depth and in order. -/
def declarations : Rule → List Declaration
  | style r => r.declarations
  | group _ rules => declarationsAll rules
  | descriptors _ ds => ds
  | keyframes _ frames => frames.flatMap Keyframe.declarations
  | statement _ | raw _ _ => []

/-- The declarations in a list of rules, at any depth and in order. -/
def declarationsAll : List Rule → List Declaration
  | [] => []
  | r :: rs => declarations r ++ declarationsAll rs

end

mutual

/-- The rule with `f` applied to the declarations in it, at any depth. -/
def mapDeclarations (f : Declaration → Declaration) : Rule → Rule
  | style r => style { r with declarations := r.declarations.map f }
  | group head rules => group head (mapDeclarationsAll f rules)
  | descriptors head ds => descriptors head (ds.map f)
  | keyframes head frames =>
    keyframes head (frames.map fun k => { k with declarations := k.declarations.map f })
  | statement head => statement head
  | raw head text => raw head text

/-- The rules with `f` applied to the declarations in them, at any depth. -/
def mapDeclarationsAll (f : Declaration → Declaration) : List Rule → List Rule
  | [] => []
  | r :: rs => mapDeclarations f r :: mapDeclarationsAll f rs

end

end Rule

/-- The declarations of a sheet. -/
def Stylesheet.declarations (s : Stylesheet) : List Declaration :=
  Rule.declarationsAll s.rules

/-! ## Values -/

/-- The kinds of values that may be colors. -/
def colorKinds : List NodeKind :=
  [.identifier, .hexColor, .functionCall]

theorem Value.size_pos (v : Value) : 0 < v.size := by
  cases v <;> simp [Value.size]

/-- A visit puts a gray in the place of a color and counts it. -/
theorem run_grayVisit (v : Value) (n : Nat) :
    (if colorKinds.contains (Walkable.kind v) then Stylesheet.grayVisit v
        else pure (some v)).run n =
      (some (v.grayed?.getD v), n + v.grayed?.toList.length) := by
  cases v with
  | other text => rfl
  | identifier _ | hexColor _ | call _ _ =>
    rw [if_pos (by rfl), Stylesheet.grayVisit]
    split <;> rename_i hgrayed <;> rw [hgrayed] <;> rfl

/-- What a visit makes of a value becomes the gray value once grays are among its arguments. -/
theorem Value.withChildren_grayAll (v : Value) :
    Walkable.withChildren (v.grayed?.getD v) (grayAll (Walkable.children (v.grayed?.getD v))) =
      v.gray := by
  cases hgrayed : v.grayed? with
  | some g =>
    obtain ⟨⟨digits, rfl, -⟩, -⟩ := exists_of_grayed? hgrayed
    rw [gray_of_grayed? hgrayed]
    rfl
  | none =>
    cases v with
    | call name args => exact (gray_call hgrayed).symm
    | _ => exact (gray_of_none hgrayed rfl).symm

/-- The colors in a value are what the visit replaces and those among the arguments that stay. -/
theorem Value.colorCount_eq (v : Value) :
    v.colorCount =
      v.grayed?.toList.length + colorCountAll (Walkable.children (v.grayed?.getD v)) := by
  cases hgrayed : v.grayed? with
  | some g =>
    obtain ⟨⟨digits, rfl, -⟩, -⟩ := exists_of_grayed? hgrayed
    cases v <;> simp [colorCount, colorCountAll, Walkable.children, hgrayed]
  | none => cases v <;> simp [colorCount, colorCountAll, Walkable.children, hgrayed]

theorem Value.sizeAll_children_lt (v : Value) :
    sizeAll (Walkable.children (v.grayed?.getD v)) < v.size := by
  cases hgrayed : v.grayed? with
  | some g =>
    obtain ⟨⟨digits, rfl, -⟩, -⟩ := exists_of_grayed? hgrayed
    exact v.size_pos
  | none => cases v <;> simp [Walkable.children, sizeAll, size]

section

variable {down : List Value → StateM Nat (List Value)} {bound : Nat}
  (hdown : ∀ vs n, Value.sizeAll vs < bound →
    (down vs).run n = (Value.grayAll vs, n + Value.colorCountAll vs))

include hdown

theorem walkList_grayVisit (todo done : List Value) (n : Nat) (hsize : Value.sizeAll todo ≤ bound) :
    (walkList colorKinds Stylesheet.grayVisit down done todo).run n =
      (done.reverse ++ Value.grayAll todo, n + Value.colorCountAll todo) := by
  induction todo generalizing done n with
  | nil =>
    rw [Value.grayAll, List.append_nil]
    rfl
  | cons v todo ih =>
    rw [Value.sizeAll] at hsize
    have hchildren := v.sizeAll_children_lt
    have hargs := hdown (Walkable.children (v.grayed?.getD v)) (n + v.grayed?.toList.length)
      (by omega)
    rw [walkList_cons_of_some (run_grayVisit v n) hargs, Value.withChildren_grayAll,
      ih (v.gray :: done) _ (by omega), Value.grayAll, Value.colorCountAll, v.colorCount_eq]
    simp [Nat.add_assoc]

end

/-- A walk that goes deeper than the values are nested puts a gray in the place of every color. -/
theorem walk_grayVisit (depth : Nat) (vs : List Value) (n : Nat)
    (hdepth : Value.sizeAll vs < depth) :
    (walk colorKinds Stylesheet.grayVisit depth vs).run n =
      (Value.grayAll vs, n + Value.colorCountAll vs) := by
  induction depth generalizing vs n with
  | zero => omega
  | succ depth ih => exact walkList_grayVisit ih vs [] n (by omega)

/-! ## Declarations -/

theorem Declaration.run_forValues {f : List Value → StateM Nat (List Value)}
    {g : List Value → List Value} {count : List Value → Nat}
    (hf : ∀ vs n, (f vs).run n = (g vs, n + count vs)) (ds : List Declaration) (n : Nat) :
    (forValues f ds).run n = (ds.map fun d => { d with value := g d.value },
      n + (ds.map fun d => count d.value).sum) := by
  induction ds generalizing n with
  | nil => rfl
  | cons d ds ih =>
    rw [forValues, run_bind_of_eq (hf d.value n), run_bind_of_eq (ih _), List.map_cons,
      List.map_cons, List.sum_cons, ← Nat.add_assoc]
    rfl

namespace Rule

section

variable {f : List Declaration → StateM Nat (List Declaration)} {g : Declaration → Declaration}
  {count : Declaration → Nat}

theorem run_forFrames (hf : ∀ ds n, (f ds).run n = (ds.map g, n + (ds.map count).sum))
    (frames : List Keyframe) (n : Nat) :
    (forFrames f frames).run n =
      (frames.map fun k => { k with declarations := k.declarations.map g },
        n + ((frames.flatMap Keyframe.declarations).map count).sum) := by
  induction frames generalizing n with
  | nil => rfl
  | cons k frames ih =>
    rw [forFrames, run_bind_of_eq (hf k.declarations n), run_bind_of_eq (ih _), List.flatMap_cons,
      List.map_append, List.sum_append, ← Nat.add_assoc]
    rfl

mutual

theorem run_forDeclarations (hf : ∀ ds n, (f ds).run n = (ds.map g, n + (ds.map count).sum)) :
    ∀ (r : Rule) (n : Nat), (forDeclarations f r).run n =
      (mapDeclarations g r, n + ((declarations r).map count).sum)
  | style r, n => by
    rw [forDeclarations, run_bind_of_eq (hf r.declarations n)]
    rfl
  | group head rules, n => by
    rw [forDeclarations, run_bind_of_eq (run_forDeclarationsAll hf rules n)]
    rfl
  | descriptors head ds, n => by
    rw [forDeclarations, run_bind_of_eq (hf ds n)]
    rfl
  | keyframes head frames, n => by
    rw [forDeclarations, run_bind_of_eq (run_forFrames hf frames n)]
    rfl
  | statement head, n | raw head text, n => rfl

theorem run_forDeclarationsAll (hf : ∀ ds n, (f ds).run n = (ds.map g, n + (ds.map count).sum)) :
    ∀ (rules : List Rule) (n : Nat), (forDeclarationsAll f rules).run n =
      (mapDeclarationsAll g rules, n + ((declarationsAll rules).map count).sum)
  | [], n => rfl
  | r :: rs, n => by
    rw [forDeclarationsAll, run_bind_of_eq (run_forDeclarations hf r n),
      run_bind_of_eq (run_forDeclarationsAll hf rs _), declarationsAll, List.map_append,
      List.sum_append, ← Nat.add_assoc]
    rfl

end

end

end Rule

/-- The pass puts grays in the place of the colors in every declaration, leaves the rest, and counts
the colors. -/
theorem Stylesheet.grayed_eq (sheet : Stylesheet) :
    sheet.grayed = (⟨Rule.mapDeclarationsAll Declaration.gray sheet.rules⟩,
      (sheet.declarations.map Declaration.colorCount).sum) := by
  have hvalues := fun vs n => walk_grayVisit (Value.sizeAll vs + 0 + 1) vs n (by omega)
  have h := Rule.run_forDeclarationsAll (Declaration.run_forValues hvalues) sheet.rules 0
  rw [Nat.zero_add] at h
  exact run_bind_of_eq h _

end Restyle.Css
