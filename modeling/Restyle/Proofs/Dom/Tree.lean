import Mathlib.Data.List.Flatten
import Mathlib.Data.List.Nodup
import Mathlib.Data.List.Perm.Subperm
import Mathlib.Logic.Relation
import Restyle.Dom.Traversal

/-!
# The tree in a table of nodes

`Dom.WellFormed` is the invariant that makes a table of nodes a forest. In such a table the bounds
on the steps of `Dom.ancestors` and `Dom.descendants` play no part: the ancestors of a node are all
nodes above it (`mem_ancestors_iff`), and what is below a node is listed by the recursion over the
children (`descendants_eq`), each node once (`nodup_descendants`) and in tree order
(`pairwise_before_descendants`).
-/

namespace Restyle.Dom

/-! ## The invariant -/

/-- Whether a node is the parent of another one. -/
def IsParent (d : Dom) (parent child : NodeId) : Prop :=
  d.parent? child = some parent

/-- Whether a node lies above another one: it is the parent, the parent of the parent and so on. -/
def Above (d : Dom) : NodeId → NodeId → Prop :=
  Relation.TransGen d.IsParent

/-- Whether a node is another one or lies above it. -/
def AtOrAbove (d : Dom) : NodeId → NodeId → Prop :=
  Relation.ReflTransGen d.IsParent

/-- The invariant of a table of nodes. -/
structure WellFormed (d : Dom) : Prop where
  /-- The document is there. -/
  root : d.content? root = some .document
  /-- Parents are nodes. -/
  parent_lt : ∀ p c : Nat, d.parent? c = some p → p < d.size
  /-- Children are nodes. -/
  child_lt : ∀ p c : Nat, c ∈ d.children p → c < d.size
  /-- The children of a node are the nodes it is the parent of. -/
  mem_children_iff : ∀ p c : Nat, c ∈ d.children p ↔ d.parent? c = some p
  /-- No child stands twice among the children of a node. -/
  nodup_children : ∀ p : Nat, (d.children p).Nodup
  /-- No node lies above itself, so following the parents ends. -/
  acyclic : ∀ id : Nat, ¬ d.Above id id

variable {d : Dom} {a b c id p : Nat}

theorem isParent_iff : d.IsParent p c ↔ d.parent? c = some p :=
  Iff.rfl

theorem atOrAbove_iff : d.AtOrAbove a b ↔ a = b ∨ d.Above a b :=
  Relation.reflTransGen_iff_eq_or_transGen.trans (or_congr_left eq_comm)

theorem above_iff : d.Above a b ↔ ∃ p, d.parent? b = some p ∧ d.AtOrAbove a p := by
  rw [Above, Relation.TransGen.tail'_iff]
  exact exists_congr fun p => and_comm

theorem above_iff_child : d.Above a b ↔ ∃ c, d.parent? c = some a ∧ d.AtOrAbove c b :=
  Relation.TransGen.head'_iff

/-- A measure that grows from parents to children rules out cycles. -/
theorem not_above_self_of_measure (f : NodeId → Nat)
    (hf : ∀ p c : Nat, d.parent? c = some p → f p < f c) : ¬ d.Above id id := by
  have grows : ∀ {x y : Nat}, d.Above x y → f x < f y := by
    intro x y hxy
    induction hxy with
    | single hp => exact hf _ _ hp
    | tail _ hp ih => exact Nat.lt_trans ih (hf _ _ hp)
  exact fun h => Nat.lt_irrefl _ (grows h)

theorem parent?_eq_none_of_size_le (h : d.size ≤ id) : d.parent? id = none := by
  rw [parent?, node?, Array.getElem?_eq_none h]
  rfl

theorem lt_size_of_parent? (h : d.parent? c = some p) : c < d.size := by
  by_contra hc
  rw [parent?_eq_none_of_size_le (Nat.not_lt.1 hc)] at h
  cases h

theorem lt_size_of_above (h : d.Above a b) : b < d.size := by
  obtain ⟨p, hp, -⟩ := above_iff.1 h
  exact lt_size_of_parent? hp

/-- Nodes above the same node lie above one another. -/
theorem AtOrAbove.total (ha : d.AtOrAbove a c) (hb : d.AtOrAbove b c) :
    d.AtOrAbove a b ∨ d.AtOrAbove b a := by
  have unique : Relator.RightUnique (Function.swap d.IsParent) :=
    fun _ _ _ h h' => Option.some.inj (h.symm.trans h')
  have := Relation.ReflTransGen.total_of_right_unique unique (Relation.reflTransGen_swap.2 ha)
    (Relation.reflTransGen_swap.2 hb)
  exact (this.imp Relation.reflTransGen_swap.1 Relation.reflTransGen_swap.1).symm

/-! ## Numbers of nodes -/

theorem length_le_of_nodup {n : Nat} {ids : List NodeId} (h : ids.Nodup) (hlt : ∀ x ∈ ids, x < n) :
    ids.length ≤ n := by
  have hsub : ids.Subperm (List.range n) :=
    List.subperm_of_subset h fun x hx => List.mem_range.2 (hlt x hx)
  simpa using hsub.length_le

/-! ## Ancestors -/

theorem above_of_mem_climb {steps : Nat} (h : a ∈ d.climb steps (d.parent? b)) : d.Above a b := by
  induction steps generalizing b with
  | zero => cases h
  | succ steps ih =>
    cases hp : d.parent? b with
    | none =>
      rw [hp] at h
      cases h
    | some p =>
      rw [hp, climb] at h
      rcases List.mem_cons.1 h with rfl | h
      · exact .single hp
      · exact .tail (ih h) hp

/-- A climb that has steps left at its end has met everything above. -/
theorem mem_climb_of_above {steps : Nat} (hsteps : (d.climb steps (d.parent? b)).length < steps)
    (h : d.Above a b) : a ∈ d.climb steps (d.parent? b) := by
  induction steps generalizing b with
  | zero => cases hsteps
  | succ steps ih =>
    obtain ⟨p, hp, hap⟩ := above_iff.1 h
    rw [hp, climb, List.length_cons] at hsteps
    rw [hp, climb]
    rcases atOrAbove_iff.1 hap with rfl | hap
    · exact List.mem_cons_self
    · exact List.mem_cons_of_mem _ (ih (Nat.lt_of_succ_lt_succ hsteps) hap)

namespace WellFormed

variable (hd : d.WellFormed)

include hd

theorem size_pos : 0 < d.size := by
  by_contra h
  have hroot := hd.root
  rw [content?, node?, Array.getElem?_eq_none (by simp only [size] at h; omega)] at hroot
  cases hroot

theorem nodup_climb (steps : Nat) (start : Option NodeId) : (d.climb steps start).Nodup := by
  induction steps generalizing start with
  | zero => exact List.nodup_nil
  | succ steps ih =>
    cases start with
    | none => exact List.nodup_nil
    | some id =>
      rw [climb, List.nodup_cons]
      exact ⟨fun h => hd.acyclic id (above_of_mem_climb h), ih _⟩

theorem lt_size_of_above_left (h : d.Above a b) : a < d.size := by
  obtain ⟨c, hc, -⟩ := above_iff_child.1 h
  exact hd.parent_lt _ _ hc

/-- A node has fewer ancestors than there are nodes. -/
theorem length_ancestors_lt (hid : id < d.size) : (d.ancestors id).length < d.size := by
  have hnodup : (id :: d.ancestors id).Nodup :=
    List.nodup_cons.2 ⟨fun h => hd.acyclic id (above_of_mem_climb h), hd.nodup_climb _ _⟩
  refine length_le_of_nodup hnodup fun x hx => ?_
  rcases List.mem_cons.1 hx with rfl | hx
  · exact hid
  · exact hd.lt_size_of_above_left (above_of_mem_climb hx)

/-- The ancestors of a node are the nodes above it. -/
theorem mem_ancestors_iff : a ∈ d.ancestors b ↔ d.Above a b :=
  ⟨above_of_mem_climb, fun h => mem_climb_of_above (hd.length_ancestors_lt (lt_size_of_above h)) h⟩

theorem isConnected_iff : d.isConnected id = true ↔ d.AtOrAbove Dom.root id := by
  rw [isConnected, isDescendantOf, Bool.or_eq_true, beq_iff_eq, List.contains_iff_mem,
    hd.mem_ancestors_iff, atOrAbove_iff, eq_comm]

theorem length_ancestors_child (hc : d.parent? c = some p) :
    (d.ancestors c).length = (d.ancestors p).length + 1 := by
  -- Both lists hold each node above once, and the nodes above `c` are `p` and those above `p`.
  have hperm : (d.ancestors c).Perm (p :: d.ancestors p) := by
    have hnodup : (d.ancestors c).Nodup := hd.nodup_climb _ _
    refine (List.perm_ext_iff_of_nodup hnodup ?_).2 fun x => ?_
    · exact List.nodup_cons.2 ⟨fun h => hd.acyclic p (above_of_mem_climb h), hd.nodup_climb _ _⟩
    · rw [List.mem_cons, hd.mem_ancestors_iff, hd.mem_ancestors_iff, above_iff, ← atOrAbove_iff]
      simp [hc]
  simpa using hperm.length_eq

end WellFormed

/-! ## Tree order -/

/-- A node and what is below it, each node before its children, down to the given depth. -/
def preorderTo (d : Dom) : Nat → NodeId → List NodeId
  | 0, id => [id]
  | depth + 1, id => id :: (d.children id).flatMap (d.preorderTo depth)

/-- A node and what is below it, each node before its children. -/
def preorder (d : Dom) (id : NodeId) : List NodeId :=
  d.preorderTo d.size id

/-- Whether a node comes before another one in the tree: it lies above it, or the two are at or
below an earlier and a later child of one node. -/
def Before (d : Dom) (a b : NodeId) : Prop :=
  d.Above a b ∨
    ∃ p x y, [x, y].Sublist (d.children p) ∧ d.AtOrAbove x a ∧ d.AtOrAbove y b

theorem children_eq_nil_of_size_le (h : d.size ≤ id) : d.children id = [] := by
  rw [children, node?, Array.getElem?_eq_none h]
  rfl

namespace WellFormed

variable (hd : d.WellFormed)

include hd

/-- The depth plays no part when it is at least the number of nodes that are not above. -/
theorem preorderTo_congr {m n : Nat} (hm : d.size ≤ m + (d.ancestors id).length)
    (hn : d.size ≤ n + (d.ancestors id).length) : d.preorderTo m id = d.preorderTo n id := by
  by_cases hid : id < d.size
  · have hlt := hd.length_ancestors_lt hid
    induction m generalizing n id with
    | zero => omega
    | succ m ih =>
      cases n with
      | zero => omega
      | succ n =>
        rw [preorderTo, preorderTo]
        congr 1
        refine List.flatMap_congr fun c hc => ?_
        have hlevel := hd.length_ancestors_child ((hd.mem_children_iff _ _).1 hc)
        exact ih (by omega) (by omega) (hd.child_lt _ _ hc) (hd.length_ancestors_lt
          (hd.child_lt _ _ hc))
  · have hnil := children_eq_nil_of_size_le (Nat.not_lt.1 hid)
    have single : ∀ n, d.preorderTo n id = [id] := by
      intro n
      cases n with
      | zero => rfl
      | succ n => rw [preorderTo, hnil, List.flatMap_nil]
    rw [single, single]

theorem preorder_eq (id : NodeId) :
    d.preorder id = id :: (d.children id).flatMap d.preorder := by
  have hsize := hd.size_pos
  rw [preorder, hd.preorderTo_congr (m := d.size) (n := d.size - 1 + 1) (by omega) (by omega),
    preorderTo]
  congr 1
  refine List.flatMap_congr fun c hc => ?_
  have hlevel := hd.length_ancestors_child ((hd.mem_children_iff _ _).1 hc)
  exact hd.preorderTo_congr (by omega) (by omega)

theorem atOrAbove_of_mem_preorderTo {depth : Nat} (h : a ∈ d.preorderTo depth id) :
    d.AtOrAbove id a := by
  induction depth generalizing id with
  | zero => exact List.mem_singleton.1 h ▸ .refl
  | succ depth ih =>
    rw [preorderTo, List.mem_cons, List.mem_flatMap] at h
    rcases h with rfl | ⟨c, hc, h⟩
    · exact .refl
    · exact .head ((hd.mem_children_iff _ _).1 hc) (ih h)

theorem mem_preorder_iff : a ∈ d.preorder id ↔ d.AtOrAbove id a := by
  refine ⟨hd.atOrAbove_of_mem_preorderTo, fun h => ?_⟩
  induction h using Relation.ReflTransGen.head_induction_on with
  | refl =>
    rw [hd.preorder_eq]
    exact List.mem_cons_self
  | head hc _ ih =>
    rw [hd.preorder_eq]
    exact List.mem_cons_of_mem _ (List.mem_flatMap.2 ⟨_, (hd.mem_children_iff _ _).2 hc, ih⟩)

/-- Nothing is below two children of one node. -/
theorem not_atOrAbove_of_sibling (ha : a ∈ d.children p) (hb : b ∈ d.children p) (hab : a ≠ b)
    (hac : d.AtOrAbove a c) : ¬ d.AtOrAbove b c := by
  intro hbc
  have hap := (hd.mem_children_iff _ _).1 ha
  have hbp := (hd.mem_children_iff _ _).1 hb
  -- One of the two would lie above the other, so above their common parent.
  have cycle : ∀ {x y : Nat}, d.parent? x = some p → d.parent? y = some p → x ≠ y →
      ¬ d.AtOrAbove x y := by
    intro x y hx hy hxy h
    rcases atOrAbove_iff.1 h with h | h
    · exact hxy h
    · obtain ⟨q, hq, hxq⟩ := above_iff.1 h
      obtain rfl : q = p := Option.some.inj (hq.symm.trans hy)
      exact hd.acyclic q (above_iff_child.2 ⟨x, hx, hxq⟩)
  rcases hac.total hbc with h | h
  · exact cycle hap hbp hab h
  · exact cycle hbp hap hab.symm h

theorem nodup_preorderTo (depth : Nat) (id : NodeId) : (d.preorderTo depth id).Nodup := by
  induction depth generalizing id with
  | zero => exact List.nodup_singleton id
  | succ depth ih =>
    rw [preorderTo, List.nodup_cons, List.nodup_flatMap]
    refine ⟨fun h => ?_, fun c _ => ih c, ?_⟩
    · obtain ⟨c, hc, h⟩ := List.mem_flatMap.1 h
      exact hd.acyclic id (above_iff_child.2
        ⟨c, (hd.mem_children_iff _ _).1 hc, hd.atOrAbove_of_mem_preorderTo h⟩)
    · refine (hd.nodup_children id).imp_of_mem fun ha hb hab => ?_
      exact fun x hxa hxb => hd.not_atOrAbove_of_sibling ha hb hab
        (hd.atOrAbove_of_mem_preorderTo hxa) (hd.atOrAbove_of_mem_preorderTo hxb)

theorem pairwise_before_preorderTo (depth : Nat) (id : NodeId) :
    (d.preorderTo depth id).Pairwise d.Before := by
  induction depth generalizing id with
  | zero => exact List.pairwise_singleton _ id
  | succ depth ih =>
    rw [preorderTo, List.pairwise_cons, List.pairwise_flatMap]
    refine ⟨fun a ha => .inl ?_, fun c _ => ih c, ?_⟩
    · obtain ⟨c, hc, h⟩ := List.mem_flatMap.1 ha
      exact above_iff_child.2
        ⟨c, (hd.mem_children_iff _ _).1 hc, hd.atOrAbove_of_mem_preorderTo h⟩
    · refine List.pairwise_iff_forall_sublist.2 fun hxy a ha b hb => .inr ?_
      exact ⟨id, _, _, hxy, hd.atOrAbove_of_mem_preorderTo ha, hd.atOrAbove_of_mem_preorderTo hb⟩

/-- The first node on a stack is listed, and its children take its place. -/
theorem flatMap_preorder_cons (id : NodeId) (stack : List NodeId) :
    (id :: stack).flatMap d.preorder = id :: (d.children id ++ stack).flatMap d.preorder := by
  rw [List.flatMap_cons, hd.preorder_eq, List.flatMap_append, List.cons_append]

/-- A walk with enough steps lists what is at or below the nodes on the stack. -/
theorem traverse_eq {steps : Nat} {stack : List NodeId}
    (h : (stack.flatMap d.preorder).length ≤ steps) :
    d.traverse steps stack = stack.flatMap d.preorder := by
  induction steps generalizing stack with
  | zero => rw [traverse, List.eq_nil_of_length_eq_zero (Nat.le_zero.1 h)]
  | succ steps ih =>
    cases stack with
    | nil => rfl
    | cons id stack =>
      rw [hd.flatMap_preorder_cons, List.length_cons] at h
      rw [traverse, hd.flatMap_preorder_cons, ih (Nat.le_of_succ_le_succ h)]

theorem preorder_eq_cons_descendants (id : NodeId) :
    d.preorder id = id :: d.descendants id := by
  rw [hd.preorder_eq, descendants, hd.traverse_eq]
  by_cases hid : id < d.size
  · have hnodup : (d.preorder id).Nodup := hd.nodup_preorderTo _ _
    have hle : (d.preorder id).length ≤ d.size := by
      refine length_le_of_nodup hnodup fun x hx => ?_
      rcases atOrAbove_iff.1 (hd.mem_preorder_iff.1 hx) with rfl | hx
      · exact hid
      · exact lt_size_of_above hx
    rw [hd.preorder_eq, List.length_cons] at hle
    omega
  · simp [children_eq_nil_of_size_le (Nat.not_lt.1 hid)]

theorem descendants_eq_of_preorder_eq {below : List NodeId} (h : d.preorder id = id :: below) :
    d.descendants id = below := by
  rw [hd.preorder_eq_cons_descendants] at h
  exact (List.cons.inj h).2

/-- What is below a node is listed child by child. -/
theorem descendants_eq (id : NodeId) :
    d.descendants id = (d.children id).flatMap fun c => c :: d.descendants c := by
  rw [hd.descendants_eq_of_preorder_eq (hd.preorder_eq id)]
  exact List.flatMap_congr fun c _ => hd.preorder_eq_cons_descendants c

theorem mem_descendants_iff : a ∈ d.descendants id ↔ d.Above id a := by
  have h : a ∈ d.preorder id ↔ d.AtOrAbove id a := hd.mem_preorder_iff
  rw [hd.preorder_eq_cons_descendants, List.mem_cons, atOrAbove_iff] at h
  constructor
  · intro ha
    rcases h.1 (.inr ha) with rfl | habove
    · have hnodup : (d.preorder id).Nodup := hd.nodup_preorderTo _ _
      rw [hd.preorder_eq_cons_descendants] at hnodup
      exact ((List.nodup_cons.1 hnodup).1 ha).elim
    · exact habove
  · intro habove
    rcases h.2 (.inr habove) with rfl | ha
    · exact (hd.acyclic _ habove).elim
    · exact ha

theorem nodup_descendants (id : NodeId) : (d.descendants id).Nodup := by
  have h : (d.preorder id).Nodup := hd.nodup_preorderTo _ _
  rw [hd.preorder_eq_cons_descendants] at h
  exact (List.nodup_cons.1 h).2

theorem pairwise_before_descendants (id : NodeId) : (d.descendants id).Pairwise d.Before := by
  have h : (d.preorder id).Pairwise d.Before := hd.pairwise_before_preorderTo _ _
  rw [hd.preorder_eq_cons_descendants] at h
  exact (List.pairwise_cons.1 h).2

end WellFormed

theorem traverse_congr {d' : Dom} (h : ∀ i, d'.children i = d.children i) (steps : Nat)
    (stack : List NodeId) : d'.traverse steps stack = d.traverse steps stack := by
  induction steps generalizing stack with
  | zero => rfl
  | succ steps ih =>
    cases stack with
    | nil => rfl
    | cons id stack => rw [traverse, traverse, h, ih]

theorem descendants_congr {d' : Dom} (h : ∀ i, d'.children i = d.children i)
    (hsize : d'.size = d.size) (id : NodeId) : d'.descendants id = d.descendants id := by
  rw [descendants, traverse_congr h, h, hsize, descendants]

/-! ## Siblings -/

/-- Whether the children of one node have `a`, then the nodes of `between`, then `b`. -/
def InRow (d : Dom) (a : NodeId) (between : List NodeId) (b : NodeId) : Prop :=
  ∃ p before after, d.children p = before ++ a :: (between ++ b :: after)

theorem siblings_of_parent?_eq_none (h : d.parent? id = none) : d.siblings id = ([], []) := by
  rw [siblings, h]

namespace WellFormed

variable (hd : d.WellFormed)

include hd

theorem siblings_eq {before after : List NodeId} (h : d.children p = before ++ id :: after) :
    d.siblings id = (before.reverse, after) := by
  have hparent : d.parent? id = some p := (hd.mem_children_iff _ _).1 (by simp [h])
  have hnotMem : id ∉ before := by
    have hnodup := hd.nodup_children p
    rw [h, List.nodup_append] at hnodup
    exact fun hmem => hnodup.2.2 id hmem id List.mem_cons_self rfl
  have hidx : (d.children p).idxOf? id = some before.length := by
    rw [h, List.idxOf?, List.findIdx?_append, List.findIdx?_eq_none_iff.2]
    · simp [List.findIdx?_cons]
    · intro x hx
      exact beq_eq_false_iff_ne.2 fun heq => hnotMem (heq ▸ hx)
  rw [siblings, hparent]
  simp only [hidx]
  rw [h, List.take_left, List.drop_append]
  simp

/-- The siblings before a node are those in a row with it, the nearest first. -/
theorem precedingSiblings_eq_iff {before between : List NodeId} :
    d.precedingSiblings id = between ++ a :: before ↔
      ∃ p after, d.children p = before.reverse ++ a :: (between.reverse ++ id :: after) := by
  constructor
  · intro h
    cases hp : d.parent? id with
    | none =>
      rw [precedingSiblings, siblings_of_parent?_eq_none hp] at h
      simp at h
    | some p =>
      obtain ⟨front, after, hsplit⟩ := List.append_of_mem ((hd.mem_children_iff _ _).2 hp)
      rw [precedingSiblings, hd.siblings_eq hsplit] at h
      rw [List.reverse_eq_iff] at h
      refine ⟨p, after, ?_⟩
      rw [hsplit, h]
      simp
  · rintro ⟨p, after, h⟩
    have hsplit : d.children p = (before.reverse ++ a :: between.reverse) ++ id :: after := by
      rw [h]
      simp
    rw [precedingSiblings, hd.siblings_eq hsplit]
    simp

/-- The siblings after a node are those in a row with it, in order. -/
theorem followingSiblings_eq_iff {between after : List NodeId} :
    d.followingSiblings id = between ++ a :: after ↔
      ∃ p before, d.children p = before ++ id :: (between ++ a :: after) := by
  constructor
  · intro h
    cases hp : d.parent? id with
    | none =>
      rw [followingSiblings, siblings_of_parent?_eq_none hp] at h
      simp at h
    | some p =>
      obtain ⟨before, rest, hsplit⟩ := List.append_of_mem ((hd.mem_children_iff _ _).2 hp)
      rw [followingSiblings, hd.siblings_eq hsplit] at h
      exact ⟨p, before, by rw [hsplit, ← h]⟩
  · rintro ⟨p, before, h⟩
    rw [followingSiblings, hd.siblings_eq h]

theorem mem_precedingSiblings_iff :
    a ∈ d.precedingSiblings id ↔ ∃ between, d.InRow a between id := by
  rw [List.mem_iff_append]
  constructor
  · rintro ⟨between, before, h⟩
    obtain ⟨p, after, hp⟩ := hd.precedingSiblings_eq_iff.1 h
    exact ⟨between.reverse, p, before.reverse, after, hp⟩
  · rintro ⟨between, p, before, after, hp⟩
    exact ⟨between.reverse, before.reverse,
      hd.precedingSiblings_eq_iff.2 ⟨p, after, by simpa using hp⟩⟩

theorem mem_followingSiblings_iff :
    a ∈ d.followingSiblings id ↔ ∃ between, d.InRow id between a := by
  rw [List.mem_iff_append]
  constructor
  · rintro ⟨between, after, h⟩
    obtain ⟨p, before, hp⟩ := hd.followingSiblings_eq_iff.1 h
    exact ⟨between, p, before, after, hp⟩
  · rintro ⟨between, p, before, after, hp⟩
    exact ⟨between, after, hd.followingSiblings_eq_iff.2 ⟨p, before, hp⟩⟩

end WellFormed

end Restyle.Dom
