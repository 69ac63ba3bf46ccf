import Mathlib.Tactic.SplitIfs
import Restyle.Css.Walk

/-!
# What a walk visits

`Walked` is a walk as a recursion: the nodes of a list are taken in turn, and what is below the node
that is now in the place comes before the next one. `Looped` is the walk as a loop over the places
of a list that changes under it. Main statement: with visits that make no node larger, `walkAll`
ends with the list and the state of both, after the same visits (`walkAll_walked`).
-/

namespace Restyle.Css

variable {σ α : Type}

theorem run_bind_of_eq {β γ : Type} {m : StateM σ β} {s t : σ} {a : β} (h : m.run s = (a, t))
    (k : β → StateM σ γ) : (m >>= k).run s = (k a).run t := by
  rw [StateT.run_bind, h]
  rfl

theorem exists_cons_of_getElem? {done todo : List α} {x : α}
    (h : (done ++ todo)[done.length]? = some x) : ∃ rest, todo = x :: rest := by
  rw [List.getElem?_append_right (Nat.le_refl _), Nat.sub_self] at h
  cases todo with
  | nil => cases h
  | cons y rest =>
    obtain rfl := Option.some.inj h
    exact ⟨rest, rfl⟩

theorem set_append_cons (done rest : List α) (x y : α) :
    (done ++ x :: rest).set done.length y = done ++ [y] ++ rest := by
  rw [List.set_append_right _ _ (Nat.le_refl _), Nat.sub_self, List.set_cons_zero,
    List.append_assoc, List.singleton_append]

/-! ## Sizes -/

/-- Nodes whose size counts the node and the nodes below it. -/
class LawfulWalkable (α : Type) [Walkable α] : Prop where
  /-- Nothing has no size. -/
  sizeAll_nil : Walkable.sizeAll ([] : List α) = 0
  /-- The size of a list is the sum of the sizes of its nodes. -/
  sizeAll_cons (x : α) (xs : List α) :
    Walkable.sizeAll (x :: xs) = Walkable.sizeAll [x] + Walkable.sizeAll xs
  /-- A node counts itself besides what is below it. -/
  sizeAll_children_lt (x : α) : Walkable.sizeAll (Walkable.children x) < Walkable.sizeAll [x]

instance : LawfulWalkable Rule where
  sizeAll_nil := rfl
  sizeAll_cons _ _ := rfl
  sizeAll_children_lt r := by
    cases r <;> simp [Walkable.sizeAll, Walkable.children, Rule.sizeAll, Rule.size]

instance : LawfulWalkable Declaration where
  sizeAll_nil := rfl
  sizeAll_cons d ds := show ([d] ++ ds).length = _ from List.length_append
  sizeAll_children_lt _ := Nat.one_pos

instance : LawfulWalkable Value where
  sizeAll_nil := rfl
  sizeAll_cons _ _ := rfl
  sizeAll_children_lt v := by
    cases v <;> simp [Walkable.sizeAll, Walkable.children, Value.sizeAll, Value.size]

variable [Walkable α]

/-- Whether no visit leaves a larger node than it was given. -/
def KeepsSize (visit : Visit σ α) : Prop :=
  ∀ x s y t, (visit x).run s = (some y, t) → Walkable.sizeAll [y] ≤ Walkable.sizeAll [x]

/-- The visits of `visit`, with the nodes visited noted in the state. -/
def noting (visit : Visit σ α) : Visit (σ × List α) α := fun x p =>
  let (result, s) := (visit x).run p.1
  (result, (s, p.2 ++ [x]))

omit [Walkable α] in
theorem run_noting {visit : Visit σ α} {x : α} {s t : σ} {result : Option α}
    (h : (visit x).run s = (result, t)) (seen : List α) :
    (noting visit x).run (s, seen) = (result, (t, seen ++ [x])) := by
  show (((visit x).run s).1, (((visit x).run s).2, seen ++ [x])) = _
  rw [h]

/-! ## The walk as a recursion and as a loop -/

/-- The walk as a recursion: from the state `s`, a list of nodes is left as another list in another
state, after visits to the nodes in `visits`. -/
inductive Walked (kinds : List NodeKind) (visit : Visit σ α) :
    σ → List α → List α → List α → σ → Prop where
  /-- Nothing is left to visit. -/
  | nil {s : σ} : Walked kinds visit s [] [] [] s
  /-- A node is visited and goes; the next one follows. -/
  | removed {s t u : σ} {x : α} {xs visits ys : List α}
      (selected : kinds.contains (Walkable.kind x)) (result : (visit x).run s = (none, t))
      (rest : Walked kinds visit t xs visits ys u) :
      Walked kinds visit s (x :: xs) (x :: visits) ys u
  /-- A node is visited, and what is below the node that is now in its place follows. -/
  | visited {s t u v : σ} {x y : α} {xs below visits children ys : List α}
      (selected : kinds.contains (Walkable.kind x)) (result : (visit x).run s = (some y, t))
      (inside : Walked kinds visit t (Walkable.children y) below children u)
      (rest : Walked kinds visit u xs visits ys v) :
      Walked kinds visit s (x :: xs) (x :: (below ++ visits))
        (Walkable.withChildren y children :: ys) v
  /-- A node is not visited, but what is below it follows. -/
  | passed {s t u : σ} {x : α} {xs below visits children ys : List α}
      (notSelected : kinds.contains (Walkable.kind x) = false)
      (inside : Walked kinds visit s (Walkable.children x) below children t)
      (rest : Walked kinds visit t xs visits ys u) :
      Walked kinds visit s (x :: xs) (below ++ visits) (Walkable.withChildren x children :: ys) u

/-- The walk as a loop that stands at a place of a list. A removal takes the node out of the list
and stays at the place; any other node is put back with what is left below it, and the place moves
on. -/
inductive Looped (kinds : List NodeKind) (visit : Visit σ α) :
    Nat → List α → σ → List α → List α → σ → Prop where
  /-- The place is behind the last node. -/
  | stop {i : Nat} {xs : List α} {s : σ} (behind : xs.length ≤ i) :
    Looped kinds visit i xs s [] xs s
  /-- The node at the place is visited and goes. -/
  | removed {i : Nat} {xs visits ys : List α} {x : α} {s t u : σ} (here : xs[i]? = some x)
      (selected : kinds.contains (Walkable.kind x)) (result : (visit x).run s = (none, t))
      (rest : Looped kinds visit i (xs.eraseIdx i) t visits ys u) :
      Looped kinds visit i xs s (x :: visits) ys u
  /-- The node at the place is visited and stays or is replaced. -/
  | visited {i : Nat} {xs below visits children ys : List α} {x y : α} {s t u v : σ}
      (here : xs[i]? = some x) (selected : kinds.contains (Walkable.kind x))
      (result : (visit x).run s = (some y, t))
      (inside : Looped kinds visit 0 (Walkable.children y) t below children u)
      (rest : Looped kinds visit (i + 1) (xs.set i (Walkable.withChildren y children)) u visits
        ys v) :
      Looped kinds visit i xs s (x :: (below ++ visits)) ys v
  /-- The node at the place is not visited. -/
  | passed {i : Nat} {xs below visits children ys : List α} {x : α} {s t u : σ}
      (here : xs[i]? = some x) (notSelected : kinds.contains (Walkable.kind x) = false)
      (inside : Looped kinds visit 0 (Walkable.children x) s below children t)
      (rest : Looped kinds visit (i + 1) (xs.set i (Walkable.withChildren x children)) t visits
        ys u) :
      Looped kinds visit i xs s (below ++ visits) ys u

variable {kinds : List NodeKind} {visit : Visit σ α} {s t : σ}

/-- With `done` before the place and `todo` from it on, the loop does what the recursion does. -/
theorem Walked.looped {todo visits ys : List α} (h : Walked kinds visit s todo visits ys t)
    (done : List α) : Looped kinds visit done.length (done ++ todo) s visits (done ++ ys) t := by
  induction h generalizing done with
  | nil => exact .stop (by simp)
  | @removed s t u x xs visits ys selected result rest ih =>
    refine .removed (x := x) (by simp) selected result ?_
    rw [List.eraseIdx_append_of_length_le (Nat.le_refl _), Nat.sub_self, List.eraseIdx_cons_zero]
    exact ih done
  | @visited s t u v x y xs below visits children ys selected result inside rest ihInside ih =>
    refine .visited (x := x) (by simp) selected result (ihInside []) ?_
    have hplace := ih (done ++ [Walkable.withChildren y children])
    rw [List.length_append, List.append_assoc _ _ ys] at hplace
    rw [set_append_cons]
    exact hplace
  | @passed s t u x xs below visits children ys notSelected inside rest ihInside ih =>
    refine .passed (x := x) (by simp) notSelected (ihInside []) ?_
    have hplace := ih (done ++ [Walkable.withChildren x children])
    rw [List.length_append, List.append_assoc _ _ ys] at hplace
    rw [set_append_cons]
    exact hplace

/-- The loop leaves `done` alone before its place and does the recursion from there on. -/
theorem Looped.exists_walked {i : Nat} {xs visits zs : List α}
    (h : Looped kinds visit i xs s visits zs t) {done todo : List α} (hi : i = done.length)
    (hxs : xs = done ++ todo) :
    ∃ ys, zs = done ++ ys ∧ Walked kinds visit s todo visits ys t := by
  induction h generalizing done todo with
  | stop behind =>
    subst hi hxs
    cases todo with
    | nil => exact ⟨[], rfl, .nil⟩
    | cons x todo =>
      rw [List.length_append, List.length_cons] at behind
      omega
  | removed here selected result rest ih =>
    subst hi hxs
    obtain ⟨todo, rfl⟩ := exists_cons_of_getElem? here
    rw [List.eraseIdx_append_of_length_le (Nat.le_refl _), Nat.sub_self,
      List.eraseIdx_cons_zero] at ih
    obtain ⟨ys, hzs, hrest⟩ := ih rfl rfl
    exact ⟨ys, hzs, .removed selected result hrest⟩
  | visited here selected result inside rest ihInside ih =>
    subst hi hxs
    obtain ⟨todo, rfl⟩ := exists_cons_of_getElem? here
    obtain ⟨children, rfl, hinside⟩ := ihInside List.length_nil.symm (List.nil_append _).symm
    obtain ⟨ys, hzs, hrest⟩ := ih (by simp) (set_append_cons _ _ _ _)
    exact ⟨_ :: ys, by simp [hzs], .visited selected result hinside hrest⟩
  | passed here notSelected inside rest ihInside ih =>
    subst hi hxs
    obtain ⟨todo, rfl⟩ := exists_cons_of_getElem? here
    obtain ⟨children, rfl, hinside⟩ := ihInside List.length_nil.symm (List.nil_append _).symm
    obtain ⟨ys, hzs, hrest⟩ := ih (by simp) (set_append_cons _ _ _ _)
    exact ⟨_ :: ys, by simp [hzs], .passed notSelected hinside hrest⟩

/-- From the first place on, the loop is the recursion. -/
theorem looped_iff {xs visits ys : List α} :
    Looped kinds visit 0 xs s visits ys t ↔ Walked kinds visit s xs visits ys t := by
  constructor
  · intro h
    obtain ⟨ys', rfl, hwalked⟩ := h.exists_walked List.length_nil.symm (List.nil_append _).symm
    exact hwalked
  · intro h
    exact h.looped []

/-- What a walk visits and leaves is determined by where it starts. -/
theorem Walked.unique {xs visits visits' ys ys' : List α} {t' : σ}
    (h : Walked kinds visit s xs visits ys t) (h' : Walked kinds visit s xs visits' ys' t') :
    visits' = visits ∧ ys' = ys ∧ t' = t := by
  induction h generalizing visits' ys' t' with
  | nil =>
    cases h'
    exact ⟨rfl, rfl, rfl⟩
  | removed selected result rest ih =>
    cases h' with
    | removed selected' result' rest' =>
      obtain ⟨-, rfl⟩ := Prod.mk.inj (result.symm.trans result')
      obtain ⟨rfl, rfl, rfl⟩ := ih rest'
      exact ⟨rfl, rfl, rfl⟩
    | visited selected' result' => cases result.symm.trans result'
    | passed notSelected => cases selected.symm.trans notSelected
  | visited selected result inside rest ihInside ih =>
    cases h' with
    | removed selected' result' => cases result.symm.trans result'
    | visited selected' result' inside' rest' =>
      obtain ⟨heq, rfl⟩ := Prod.mk.inj (result.symm.trans result')
      obtain rfl := Option.some.inj heq
      obtain ⟨rfl, rfl, rfl⟩ := ihInside inside'
      obtain ⟨rfl, rfl, rfl⟩ := ih rest'
      exact ⟨rfl, rfl, rfl⟩
    | passed notSelected => cases selected.symm.trans notSelected
  | passed notSelected inside rest ihInside ih =>
    cases h' with
    | removed selected => cases selected.symm.trans notSelected
    | visited selected => cases selected.symm.trans notSelected
    | passed _ inside' rest' =>
      obtain ⟨rfl, rfl, rfl⟩ := ihInside inside'
      obtain ⟨rfl, rfl, rfl⟩ := ih rest'
      exact ⟨rfl, rfl, rfl⟩

/-- Noting the visits changes nothing else, and they are noted in their order. -/
theorem Walked.noting {xs visits ys : List α} (h : Walked kinds visit s xs visits ys t)
    (seen : List α) :
    Walked kinds (noting visit) (s, seen) xs visits ys (t, seen ++ visits) := by
  induction h generalizing seen with
  | nil =>
    rw [List.append_nil]
    exact .nil
  | @removed s t u x xs visits ys selected result rest ih =>
    have hrest := ih (seen ++ [x])
    rw [List.append_assoc] at hrest
    exact .removed selected (run_noting result seen) hrest
  | @visited s t u v x y xs below visits children ys selected result inside rest ihInside ih =>
    have hrest := ih (seen ++ [x] ++ below)
    rw [show seen ++ [x] ++ below ++ visits = seen ++ x :: (below ++ visits) by simp] at hrest
    exact .visited selected (run_noting result seen) (ihInside _) hrest
  | @passed s t u x xs below visits children ys notSelected inside rest ihInside ih =>
    have hrest := ih (seen ++ below)
    rw [List.append_assoc] at hrest
    exact .passed notSelected (ihInside _) hrest

/-! ## The walk of the library -/

/-- One step of a walk, at a node that goes. -/
theorem walkList_cons_of_none {down : List α → StateM σ (List α)} {x : α}
    (hvisit : (if kinds.contains (Walkable.kind x) then visit x else pure (some x)).run s =
      (none, t)) (done todo : List α) :
    (walkList kinds visit down done (x :: todo)).run s =
      (walkList kinds visit down done todo).run t := by
  rw [walkList]
  split_ifs at hvisit ⊢
  all_goals exact run_bind_of_eq hvisit _

/-- One step of a walk, at a node that stays. -/
theorem walkList_cons_of_some {down : List α → StateM σ (List α)} {x y : α} {children : List α}
    {u : σ}
    (hvisit : (if kinds.contains (Walkable.kind x) then visit x else pure (some x)).run s =
      (some y, t))
    (hdown : (down (Walkable.children y)).run t = (children, u)) (done todo : List α) :
    (walkList kinds visit down done (x :: todo)).run s =
      (walkList kinds visit down (Walkable.withChildren y children :: done) todo).run u := by
  rw [walkList]
  split_ifs at hvisit ⊢
  all_goals
    rw [run_bind_of_eq hvisit]
    exact run_bind_of_eq hdown _

section

variable [LawfulWalkable α] (hvisit : KeepsSize visit)

include hvisit

section

variable {down : List α → StateM σ (List α)} {bound : Nat}
  (hdown : ∀ xs s, Walkable.sizeAll xs < bound → ∃ visits ys t,
    (down xs).run s = (ys, t) ∧ Walked kinds visit s xs visits ys t)

include hdown

/-- The walk along one list, where `down` walks what is smaller than `bound`. -/
theorem exists_walked_walkList (todo done : List α) (s : σ)
    (hsize : Walkable.sizeAll todo ≤ bound) :
    ∃ visits ys t, (walkList kinds visit down done todo).run s = (done.reverse ++ ys, t) ∧
      Walked kinds visit s todo visits ys t := by
  induction todo generalizing done s with
  | nil =>
    refine ⟨[], [], s, ?_, .nil⟩
    rw [List.append_nil]
    rfl
  | cons x todo ih =>
    rw [LawfulWalkable.sizeAll_cons] at hsize
    have hbelow := LawfulWalkable.sizeAll_children_lt (α := α)
    by_cases hselected : kinds.contains (Walkable.kind x)
    · have hif : (if kinds.contains (Walkable.kind x) then visit x else pure (some x)) = visit x :=
        if_pos hselected
      rcases hresult : (visit x).run s with ⟨- | y, u⟩
      · obtain ⟨visits, ys, t, hrun, hwalked⟩ := ih done u (by omega)
        rw [walkList_cons_of_none (by rw [hif, hresult])]
        exact ⟨_, ys, t, hrun, .removed hselected hresult hwalked⟩
      · have hy := hvisit x s y u hresult
        have hchildren := hbelow y
        obtain ⟨below, children, v, hdown, hinside⟩ := hdown (Walkable.children y) u (by omega)
        obtain ⟨visits, ys, t, hrun, hwalked⟩ :=
          ih (Walkable.withChildren y children :: done) v (by omega)
        rw [walkList_cons_of_some (by rw [hif, hresult]) hdown, hrun]
        exact ⟨_, _ :: ys, t, by simp, .visited hselected hresult hinside hwalked⟩
    · have hif : (if kinds.contains (Walkable.kind x) then visit x else pure (some x)) =
          pure (some x) :=
        if_neg hselected
      have hchildren := hbelow x
      obtain ⟨below, children, v, hdown, hinside⟩ := hdown (Walkable.children x) s (by omega)
      obtain ⟨visits, ys, t, hrun, hwalked⟩ :=
        ih (Walkable.withChildren x children :: done) v (by omega)
      rw [walkList_cons_of_some (by rw [hif]; rfl) hdown, hrun]
      exact ⟨_, _ :: ys, t, by simp, .passed (by simpa using hselected) hinside hwalked⟩

end

/-- A walk that goes deeper than the nodes are nested does what the recursion does. -/
theorem exists_walked_walk (depth : Nat) (xs : List α) (s : σ)
    (hdepth : Walkable.sizeAll xs < depth) :
    ∃ visits ys t, (walk kinds visit depth xs).run s = (ys, t) ∧
      Walked kinds visit s xs visits ys t := by
  induction depth generalizing xs s with
  | zero => omega
  | succ depth ih => exact exists_walked_walkList hvisit ih xs [] s (by omega)

end

theorem KeepsSize.noting (hvisit : KeepsSize visit) : KeepsSize (noting visit) := by
  rintro x ⟨s, seen⟩ y ⟨t, seen'⟩ h
  rcases hresult : (visit x).run s with ⟨result, u⟩
  rw [run_noting hresult] at h
  obtain ⟨rfl, -⟩ := Prod.mk.inj h
  exact hvisit x s y u hresult

/-- With visits that make no node larger, a walk ends with the list and the state that the recursion
and the loop both end with, and with nothing else, and it visits the same nodes in the same
order. -/
theorem walkAll_walked [LawfulWalkable α] (kinds : List NodeKind) (visit : Visit σ α)
    (hvisit : KeepsSize visit) (growth : Nat) (xs : List α) (s : σ) :
    ∃ visits ys t,
      (walkAll kinds visit growth xs).run s = (ys, t) ∧
      (walkAll kinds (noting visit) growth xs).run (s, []) = (ys, (t, visits)) ∧
      (∀ visits' ys' t', Walked kinds visit s xs visits' ys' t' ↔
        visits' = visits ∧ ys' = ys ∧ t' = t) ∧
      ∀ visits' ys' t', Looped kinds visit 0 xs s visits' ys' t' ↔
        visits' = visits ∧ ys' = ys ∧ t' = t := by
  have hdepth : Walkable.sizeAll xs < Walkable.sizeAll xs + growth + 1 := by omega
  obtain ⟨visits, ys, t, hrun, hwalked⟩ := exists_walked_walk hvisit _ xs s hdepth
  obtain ⟨visits', ys', p, hnoting, hnoted⟩ := exists_walked_walk hvisit.noting _ xs (s, []) hdepth
  obtain ⟨rfl, rfl, rfl⟩ := hnoted.unique (hwalked.noting [])
  have hiff : ∀ visits' ys' t', Walked kinds visit s xs visits' ys' t' ↔
      visits' = visits ∧ ys' = ys ∧ t' = t := by
    intro visits' ys' t'
    constructor
    · exact hwalked.unique
    · rintro ⟨rfl, rfl, rfl⟩
      exact hwalked
  exact ⟨visits, ys, t, hrun, hnoting, hiff, fun _ _ _ => looped_iff.trans (hiff _ _ _)⟩

/-- The visit that takes out identifiers and counts the visits. -/
def wordVisit : Visit Nat Value := fun v => do
  modify (· + 1)
  match v with
  | .identifier _ => return none
  | v => return some v

theorem keepsSize_wordVisit : KeepsSize wordVisit := by
  intro x s y t h
  cases x with
  | identifier _ => cases h
  | hexColor _ | call _ _ | other _ =>
    cases h
    exact Nat.le_refl _

/-- Identifiers at two depths, with other text after them. -/
def nestedWords : List Value :=
  [.identifier "a", .call "f" [.identifier "b", .other ","], .other "c"]

theorem walkAll_walked_words :
    KeepsSize wordVisit ∧ ∃ visits ys t,
      (walkAll [.identifier, .functionCall] wordVisit 0 nestedWords).run 0 = (ys, t) ∧
      (walkAll [.identifier, .functionCall] (noting wordVisit) 0 nestedWords).run (0, []) =
        (ys, (t, visits)) ∧
      (∀ visits' ys' t',
        Walked [.identifier, .functionCall] wordVisit 0 nestedWords visits' ys' t' ↔
          visits' = visits ∧ ys' = ys ∧ t' = t) ∧
      ∀ visits' ys' t',
        Looped [.identifier, .functionCall] wordVisit 0 nestedWords 0 visits' ys' t' ↔
          visits' = visits ∧ ys' = ys ∧ t' = t :=
  ⟨keepsSize_wordVisit,
    walkAll_walked [.identifier, .functionCall] wordVisit keepsSize_wordVisit 0 nestedWords 0⟩

end Restyle.Css
