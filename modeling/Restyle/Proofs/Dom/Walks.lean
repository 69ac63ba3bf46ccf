import Restyle.Proofs.Dom.Changes

/-!
# Walks that end by themselves

`Dom.Walks` and `Dom.Climbs` are the walks along the children and along the parents with no bound on
their steps. In a well-formed table both end, and they list what `Dom.descendants` and
`Dom.ancestors` list (`WellFormed.walks_iff`, `WellFormed.climbs_iff`), which are also the only
solutions of the recursions over the tree (`WellFormed.eq_descendants_iff`,
`WellFormed.ancestors_eq`). Main statement: the walks, the ancestors and the siblings tell the same
tree order (`WellFormed.tree_order`).
-/

namespace Restyle.Dom

/-- What a walk lists until its stack is empty: the first node on the stack is listed, and its
children take its place. -/
inductive Walks (d : Dom) : List NodeId → List NodeId → Prop
  | done : Walks d [] []
  | visit (id : NodeId) {stack out : List NodeId} (rest : Walks d (d.children id ++ stack) out) :
      Walks d (id :: stack) (id :: out)

/-- What a walk along the parents lists until there is no further parent. -/
inductive Climbs (d : Dom) : Option NodeId → List NodeId → Prop
  | done : Climbs d none []
  | visit (id : NodeId) {out : List NodeId} (rest : Climbs d (d.parent? id) out) :
      Climbs d (some id) (id :: out)

variable {d : Dom} {a b c id p : Nat} {out stack : List NodeId}

/-- A climb that has steps left at its end takes no more with a larger bound. -/
theorem climb_eq_of_length_lt {m n : Nat} {start : Option NodeId}
    (h : (d.climb m start).length < m) (hmn : m ≤ n) : d.climb n start = d.climb m start := by
  induction m generalizing n start with
  | zero => cases h
  | succ m ih =>
    obtain ⟨n, rfl⟩ : ∃ k, n = k + 1 := ⟨n - 1, by omega⟩
    cases start with
    | none => rfl
    | some id =>
      rw [climb, List.length_cons] at h
      rw [climb, climb, ih (Nat.lt_of_succ_lt_succ h) (Nat.le_of_succ_le_succ hmn)]

theorem ancestors_eq_nil (h : d.parent? c = none) : d.ancestors c = [] := by
  rw [ancestors, h]
  cases d.size <;> rfl

namespace WellFormed

variable (hd : d.WellFormed)

include hd

/-! ## Walks along the parents -/

theorem ancestors_eq (hc : d.parent? c = some p) : d.ancestors c = p :: d.ancestors p := by
  have hlt := hd.length_ancestors_lt (lt_size_of_parent? hc)
  obtain ⟨n, hn⟩ : ∃ n, d.size = n + 1 := ⟨d.size - 1, by have := hd.size_pos; omega⟩
  rw [ancestors, hc, hn, climb, List.length_cons] at hlt
  rw [ancestors, hc, hn, climb, ancestors, hn,
    climb_eq_of_length_lt (Nat.lt_of_succ_lt_succ hlt) (Nat.le_succ n)]

/-- Following the parents ends, and it meets the ancestors. -/
theorem climbs_iff : d.Climbs (d.parent? c) out ↔ out = d.ancestors c := by
  constructor
  · intro h
    generalize hstart : d.parent? c = start at h
    induction h generalizing c with
    | done => exact (ancestors_eq_nil hstart).symm
    | visit p _ ih => rw [hd.ancestors_eq hstart, ih rfl]
  · rintro rfl
    induction hn : (d.ancestors c).length using Nat.strongRecOn generalizing c with
    | ind n ih =>
      cases hc : d.parent? c with
      | none => exact ancestors_eq_nil hc ▸ .done
      | some p =>
        rw [hd.ancestors_eq hc]
        refine .visit p (ih _ ?_ rfl)
        rw [← hn, hd.length_ancestors_child hc]
        exact Nat.lt_succ_self _

section

variable {x : Content} (hp : p < d.size)

include hp

theorem climbs_addChild {start : Option NodeId} (h : d.Climbs start out)
    (hstart : ∀ i ∈ start, i ≠ d.size) : (d.addChild p x).Climbs start out := by
  induction h with
  | done => exact .done
  | visit i _ ih =>
    refine .visit i ?_
    rw [parent?_addChild hp, if_neg (hstart i rfl)]
    exact ih fun q hq => Nat.ne_of_lt (hd.parent_lt q i hq)

/-- A new node has what it is put into above itself, and it is above no node. -/
theorem ancestors_addChild (hc : c ≠ d.size) : (d.addChild p x).ancestors c = d.ancestors c := by
  have hclimbs : d.Climbs (d.parent? c) (d.ancestors c) := hd.climbs_iff.2 rfl
  refine ((hd.addChild hp x).climbs_iff.1 ?_).symm
  rw [parent?_addChild hp, if_neg hc]
  exact hd.climbs_addChild hp hclimbs fun q hq => Nat.ne_of_lt (hd.parent_lt q c hq)

theorem ancestors_addChild_size : (d.addChild p x).ancestors d.size = p :: d.ancestors p := by
  have hparent : (d.addChild p x).parent? d.size = some p := by
    rw [parent?_addChild hp, if_pos rfl]
  rw [(hd.addChild hp x).ancestors_eq hparent, hd.ancestors_addChild hp (Nat.ne_of_lt hp)]

end

/-! ## Walks along the children -/

theorem flatMap_preorder_children (id : NodeId) :
    (d.children id).flatMap d.preorder = d.descendants id :=
  (hd.descendants_eq_of_preorder_eq (hd.preorder_eq id)).symm

/-- A walk ends, and it lists what is at or below the nodes on its stack, node by node. -/
theorem walks_iff : d.Walks stack out ↔ out = stack.flatMap d.preorder := by
  constructor
  · intro h
    induction h with
    | done => rfl
    | visit id _ ih => rw [hd.flatMap_preorder_cons, ih]
  · rintro rfl
    induction hn : (stack.flatMap d.preorder).length using Nat.strongRecOn
      generalizing stack with
    | ind n ih =>
      cases stack with
      | nil => exact .done
      | cons id stack =>
        rw [hd.flatMap_preorder_cons, List.length_cons] at hn
        rw [hd.flatMap_preorder_cons]
        exact .visit id (ih _ (hn ▸ Nat.lt_succ_self _) rfl)

/-- The recursion over the children has one solution. -/
theorem eq_descendants_iff {f : NodeId → List NodeId} :
    (∀ i, f i = (d.children i).flatMap fun c => c :: f c) ↔ f = d.descendants := by
  constructor
  · intro hf
    -- From a node to a child the number of nodes that are not above it gets smaller.
    have below : ∀ n i : Nat, d.size - (d.ancestors i).length = n → f i = d.descendants i := by
      intro n
      induction n using Nat.strongRecOn with
      | ind n ih =>
        rintro i rfl
        rw [hf, hd.descendants_eq]
        refine List.flatMap_congr fun c hc => ?_
        have hlevel := hd.length_ancestors_child ((hd.mem_children_iff i c).1 hc)
        have hlt := hd.length_ancestors_lt (hd.child_lt i c hc)
        rw [ih _ (by omega) c rfl]
    exact funext fun i => below _ i rfl
  · rintro rfl
    exact hd.descendants_eq

theorem isConnected_iff_mem_descendants :
    d.isConnected id ↔ id = Dom.root ∨ id ∈ d.descendants Dom.root := by
  rw [hd.isConnected_iff, atOrAbove_iff, hd.mem_descendants_iff, eq_comm]

/-! ## Siblings -/

/-- Each child stands at one place among the children of its parent. -/
theorem exists_siblings (hc : d.parent? c = some p) :
    ∃ before after, d.children p = before ++ c :: after ∧
      d.precedingSiblings c = before.reverse ∧ d.previousSibling? c = before.getLast? ∧
        d.nextSibling? c = after.head? := by
  obtain ⟨before, after, hsplit⟩ := List.append_of_mem ((hd.mem_children_iff p c).2 hc)
  have hsiblings := hd.siblings_eq hsplit
  refine ⟨before, after, hsplit, ?_, ?_, ?_⟩
  · rw [precedingSiblings, hsiblings]
  · rw [previousSibling?, precedingSiblings, hsiblings, List.head?_reverse]
  · rw [nextSibling?, followingSiblings, hsiblings]

theorem nextSibling?_iff :
    d.nextSibling? a = some b ↔ ∃ p before after, d.children p = before ++ a :: b :: after := by
  have hiff : ∀ after, d.followingSiblings a = [] ++ b :: after ↔
      ∃ p before, d.children p = before ++ a :: ([] ++ b :: after) := fun after =>
    hd.followingSiblings_eq_iff
  rw [nextSibling?, List.head?_eq_some_iff]
  constructor
  · rintro ⟨after, h⟩
    obtain ⟨p, before, hp⟩ := (hiff after).1 h
    exact ⟨p, before, after, hp⟩
  · rintro ⟨p, before, after, hp⟩
    exact ⟨after, (hiff after).2 ⟨p, before, hp⟩⟩

theorem previousSibling?_iff :
    d.previousSibling? b = some a ↔ ∃ p before after, d.children p = before ++ a :: b :: after := by
  have hiff : ∀ before, d.precedingSiblings b = [] ++ a :: before ↔
      ∃ p after, d.children p = before.reverse ++ a :: ([] ++ b :: after) := fun before =>
    hd.precedingSiblings_eq_iff
  rw [previousSibling?, List.head?_eq_some_iff]
  constructor
  · rintro ⟨before, h⟩
    obtain ⟨p, after, hp⟩ := (hiff before).1 h
    exact ⟨p, before.reverse, after, hp⟩
  · rintro ⟨p, before, after, hp⟩
    exact ⟨before.reverse, (hiff before.reverse).2 ⟨p, after, by rwa [List.reverse_reverse]⟩⟩

/-! ## Tree order -/

/-- The walks end and list what is below a node and what is above it. What is below is the one
solution of the recursion over the children and has no node twice, and it is told the same by the
ancestors. The siblings are told by the places among the children of the parent. -/
theorem tree_order (id : NodeId) :
    (∀ out, d.Walks (d.children id) out ↔ out = d.descendants id) ∧
      (∀ out, d.Climbs (d.parent? id) out ↔ out = d.ancestors id) ∧
      (∀ f : NodeId → List NodeId,
        (∀ i, f i = (d.children i).flatMap fun c => c :: f c) ↔ f = d.descendants) ∧
      (d.descendants id).Nodup ∧
      (∀ n, n ∈ d.descendants id ↔ id ∈ d.ancestors n) ∧
      (d.isConnected id ↔ id = Dom.root ∨ id ∈ d.descendants Dom.root) ∧
      (d.parent? id = none →
        d.precedingSiblings id = [] ∧ d.previousSibling? id = none ∧ d.nextSibling? id = none) ∧
      (∀ p, d.parent? id = some p →
        ∃ before after, d.children p = before ++ id :: after ∧
          d.precedingSiblings id = before.reverse ∧ d.previousSibling? id = before.getLast? ∧
            d.nextSibling? id = after.head?) ∧
      (d.children id).Nodup ∧
      ∀ n, d.nextSibling? id = some n ↔ d.previousSibling? n = some id := by
  refine ⟨fun out => ?_, fun out => hd.climbs_iff, fun f => hd.eq_descendants_iff,
    hd.nodup_descendants id, fun n => ?_, hd.isConnected_iff_mem_descendants, fun hnone => ?_,
    fun p hp => hd.exists_siblings hp, hd.nodup_children id, fun n => ?_⟩
  · rw [hd.walks_iff, hd.flatMap_preorder_children]
  · rw [hd.mem_descendants_iff, hd.mem_ancestors_iff]
  · have hnil := siblings_of_parent?_eq_none hnone
    rw [previousSibling?, nextSibling?, precedingSiblings, followingSiblings, hnil]
    exact ⟨rfl, rfl, rfl⟩
  · rw [hd.nextSibling?_iff, hd.previousSibling?_iff]

end WellFormed

/-- A text inside an element comes before the comment that follows the element. -/
theorem tree_order_nested :
    let d := ((Dom.empty.addChild 0 (.element ⟨"p", []⟩)).addChild 1 (.text "a")).addChild 0
      (.comment "b")
    d.WellFormed ∧ d.Walks [1, 3] [1, 2, 3] ∧ d.Climbs (some 1) [1, 0] ∧
      3 ∈ d.descendants Dom.root ∧ d.nextSibling? 1 = some 3 := by
  intro d
  have hd : d.WellFormed :=
    ((WellFormed.empty.addChild (by decide) _).addChild (by decide) _).addChild (by decide) _
  obtain ⟨hwalks, -, -, -, hmem, -⟩ := hd.tree_order Dom.root
  obtain ⟨-, hclimbs, -⟩ := hd.tree_order 2
  obtain ⟨-, -, -, -, -, -, -, -, -, hnext⟩ := hd.tree_order 1
  exact ⟨hd, (hwalks _).2 (by decide), (hclimbs _).2 (by decide), (hmem 3).2 (by decide),
    (hnext 3).2 (by decide)⟩

end Restyle.Dom
