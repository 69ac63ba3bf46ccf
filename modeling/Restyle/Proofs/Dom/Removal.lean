import Restyle.Proofs.Dom.Moves

/-!
# Subtrees that are taken out

`Dom.detachAll` takes nodes off their parents, one after the other. What is left of a tree has the
paths on which none of them lies below the start (`WellFormed.atOrAbove_detachAll_iff`), in the old
order (`WellFormed.descendants_detachAll`). Where some of the nodes lie above others, it is enough
to take off the outermost ones (`WellFormed.isConnected_detachAll_outermost`), and the subtrees
of those stay whole (`WellFormed.descendants_detachAll_outermost`).
-/

namespace Restyle.Dom

variable {d d' : Dom} {a b c o id : Nat} {ids : List NodeId}

/-- The tree with some nodes taken off their parents. -/
def detachAll (d : Dom) (ids : List NodeId) : Dom :=
  ids.foldl detach d

/-- Those of some nodes that have none of the others above them. -/
def outermost (d : Dom) (ids : List NodeId) : List NodeId :=
  ids.filter fun id => ids.all fun g => !d.isDescendantOf id g

theorem detachAll_append_singleton (d : Dom) (ids : List NodeId) (id : NodeId) :
    d.detachAll (ids ++ [id]) = (d.detachAll ids).detach id :=
  List.foldl_append

theorem size_detachAll (d : Dom) (ids : List NodeId) : (d.detachAll ids).size = d.size := by
  induction ids generalizing d with
  | nil => rfl
  | cons id ids ih => exact (ih (d.detach id)).trans (size_detach d id)

theorem content?_detachAll (d : Dom) (ids : List NodeId) (i : Nat) :
    (d.detachAll ids).content? i = d.content? i := by
  induction ids generalizing d with
  | nil => rfl
  | cons id ids ih => exact (ih (d.detach id)).trans (content?_detach d id i)

/-- Where no node gets new children, what is below a node keeps its order. -/
theorem preorderTo_sublist (h : ∀ i, (d'.children i).Sublist (d.children i)) (depth : Nat)
    (id : NodeId) : (d'.preorderTo depth id).Sublist (d.preorderTo depth id) := by
  induction depth generalizing id with
  | zero => exact List.Sublist.refl _
  | succ depth ih =>
    exact (((h id).flatMap _).trans (List.Sublist.flatMap_right _ fun c _ => ih c)).cons_cons id

namespace WellFormed

variable (hd : d.WellFormed)

include hd

theorem isDescendantOf_iff : d.isDescendantOf b a ↔ d.Above a b := by
  rw [isDescendantOf, List.contains_iff_mem, hd.mem_ancestors_iff]

theorem isDescendantOf_eq_false_iff : d.isDescendantOf b a = false ↔ ¬ d.Above a b := by
  rw [Bool.eq_false_iff, ne_eq, hd.isDescendantOf_iff]

theorem above_iff_atOrAbove_and_ne : d.Above a b ↔ d.AtOrAbove a b ∧ a ≠ b := by
  rw [atOrAbove_iff]
  constructor
  · intro h
    refine ⟨.inr h, ?_⟩
    rintro rfl
    exact hd.acyclic a h
  · rintro ⟨h, hne⟩
    exact h.resolve_left hne

/-- What comes after a node in tree order does not lie above it. -/
theorem not_above_of_before (h : d.Before a b) : ¬ d.Above b a := by
  intro hba
  rcases h with hab | ⟨p, x, y, hxy, hxa, hyb⟩
  · exact hd.acyclic a (hab.trans hba)
  · have hne : x ≠ y := by
      have hnodup := (hd.nodup_children p).sublist hxy
      simpa using hnodup
    have hmem := hxy.subset
    exact hd.not_atOrAbove_of_sibling (hmem (by simp)) (hmem (by simp)) hne hxa
      (hyb.trans (atOrAbove_iff.2 (.inr hba)))

theorem length_ancestors_lt_of_above (h : d.Above a b) :
    (d.ancestors a).length < (d.ancestors b).length := by
  induction h with
  | single hlink =>
    rw [hd.length_ancestors_child hlink]
    exact Nat.lt_succ_self _
  | tail _ hlink ih =>
    rw [hd.length_ancestors_child hlink]
    exact Nat.lt_succ_of_lt ih

/-! ## The links that are left -/

theorem detachAll (ids : List NodeId) : (d.detachAll ids).WellFormed := by
  induction ids generalizing d with
  | nil => exact hd
  | cons id ids ih => exact ih (hd.detach id)

theorem parent?_detach (i : Nat) :
    (d.detach c).parent? i = if i = c then none else d.parent? i := by
  split_ifs with hi
  · subst hi
    unfold Dom.detach
    split
    · rename_i p hp
      rw [parent?_removeChild ((hd.mem_children_iff p i).2 hp), if_pos rfl]
    · assumption
  · exact parent?_detach_of_ne hi

theorem parent?_detachAll (ids : List NodeId) (i : Nat) :
    (d.detachAll ids).parent? i = if i ∈ ids then none else d.parent? i := by
  induction ids generalizing d with
  | nil => rfl
  | cons id ids ih =>
    refine (ih (hd.detach id)).trans ?_
    rw [hd.parent?_detach]
    by_cases hi : i = id <;> simp [hi]

theorem children_detachAll (ids : List NodeId) (i : Nat) :
    (d.detachAll ids).children i = (d.children i).filter (· ∉ ids) := by
  induction ids generalizing d with
  | nil => simp [Dom.detachAll]
  | cons id ids ih =>
    refine (ih (hd.detach id)).trans ?_
    rw [hd.children_detach, (hd.nodup_children i).erase_eq_filter, List.filter_filter]
    refine List.filter_congr fun k _ => ?_
    rw [Bool.eq_iff_iff]
    simp [and_comm]

/-- A path is left if none of the nodes lies on it, other than at its start. -/
theorem atOrAbove_detachAll_iff :
    (d.detachAll ids).AtOrAbove a b ↔
      d.AtOrAbove a b ∧ ∀ g ∈ ids, d.Above a g → ¬ d.AtOrAbove g b := by
  have hlink : ∀ {p k : Nat}, (d.detachAll ids).IsParent p k ↔ k ∉ ids ∧ d.IsParent p k := by
    intro p k
    rw [isParent_iff, isParent_iff, hd.parent?_detachAll]
    split_ifs with hk <;> simp [hk]
  constructor
  · intro hpath
    induction hpath with
    | refl => exact ⟨.refl, fun g _ hag hga => hd.acyclic a (hag.trans_left hga)⟩
    | @tail p k _ hpk ih =>
      obtain ⟨hkept, hpk⟩ := hlink.1 hpk
      refine ⟨ih.1.tail hpk, fun g hg hag hgk => ?_⟩
      rcases atOrAbove_iff.1 hgk with rfl | hgk
      · exact hkept hg
      · obtain ⟨q, hq, hgq⟩ := above_iff.1 hgk
        obtain rfl : q = p := Option.some.inj (hq.symm.trans hpk)
        exact ih.2 g hg hag hgq
  · rintro ⟨hpath, hkept⟩
    induction hpath with
    | refl => exact .refl
    | @tail p k hap hpk ih =>
      have hk : k ∉ ids := fun hk => hkept k hk (above_iff.2 ⟨p, hpk, hap⟩) .refl
      exact (ih fun g hg hag hgp => hkept g hg hag (hgp.tail hpk)).tail (hlink.2 ⟨hk, hpk⟩)

/-- What is still below a node keeps its order. -/
theorem descendants_detachAll (ids : List NodeId) (a : NodeId) :
    (d.detachAll ids).descendants a =
      (d.descendants a).filter ((d.detachAll ids).isDescendantOf · a) := by
  have hd' := hd.detachAll ids
  have hsub : ((d.detachAll ids).preorder a).Sublist (d.preorder a) := by
    rw [preorder, size_detachAll]
    refine preorderTo_sublist (fun i => ?_) _ _
    rw [hd.children_detachAll]
    exact List.filter_sublist
  rw [hd'.preorder_eq_cons_descendants, hd.preorder_eq_cons_descendants,
    List.cons_sublist_cons] at hsub
  have hfilter := hsub.filter ((d.detachAll ids).isDescendantOf · a)
  rw [List.filter_eq_self.2 fun b hb =>
    hd'.isDescendantOf_iff.2 (hd'.mem_descendants_iff.1 hb)] at hfilter
  refine hfilter.eq_of_length (List.Perm.length_eq ?_)
  refine (List.perm_ext_iff_of_nodup (hd'.nodup_descendants a)
    ((hd.nodup_descendants a).filter _)).2 fun b => ⟨fun hb => hfilter.subset hb, fun hb => ?_⟩
  exact hd'.mem_descendants_iff.2 (hd'.isDescendantOf_iff.1 (List.mem_filter.1 hb).2)

theorem isConnected_of_mem_descendants (h : id ∈ d.descendants Dom.root) : d.isConnected id := by
  rw [hd.isConnected_iff]
  exact atOrAbove_iff.2 (.inr (hd.mem_descendants_iff.1 h))

/-- What is still connected keeps its order. -/
theorem descendants_root_detachAll (ids : List NodeId) :
    (d.detachAll ids).descendants Dom.root =
      (d.descendants Dom.root).filter (d.detachAll ids).isConnected := by
  rw [hd.descendants_detachAll]
  refine List.filter_congr fun id hid => ?_
  have hne : id ≠ Dom.root := by
    rintro rfl
    exact hd.acyclic _ (hd.mem_descendants_iff.1 hid)
  rw [isConnected, beq_eq_false_iff_ne.2 hne, Bool.false_or]

/-! ## Outermost nodes -/

theorem mem_outermost_iff : id ∈ d.outermost ids ↔ id ∈ ids ∧ ∀ g ∈ ids, ¬ d.Above g id := by
  simp only [outermost, List.mem_filter, List.all_eq_true, Bool.not_eq_true',
    hd.isDescendantOf_eq_false_iff]

/-- Each of some nodes is an outermost one or lies below one. -/
theorem exists_outermost (hid : id ∈ ids) : ∃ o ∈ d.outermost ids, d.AtOrAbove o id := by
  induction hn : (d.ancestors id).length using Nat.strong_induction_on generalizing id with
  | _ n ih =>
    subst hn
    by_cases habove : ∃ g ∈ ids, d.Above g id
    · obtain ⟨g, hg, hgid⟩ := habove
      obtain ⟨o, ho, hog⟩ := ih _ (hd.length_ancestors_lt_of_above hgid) hg rfl
      exact ⟨o, ho, hog.trans (atOrAbove_iff.2 (.inr hgid))⟩
    · exact ⟨id, hd.mem_outermost_iff.2 ⟨hid, fun g hg hgid => habove ⟨g, hg, hgid⟩⟩, .refl⟩

/-- Taking off the outermost ones of some nodes disconnects all of them with all that is below. -/
theorem isConnected_detachAll_outermost (hids : ∀ g ∈ ids, d.Above Dom.root g) :
    (d.detachAll (d.outermost ids)).isConnected id ↔
      d.isConnected id ∧ ∀ g ∈ ids, ¬ d.AtOrAbove g id := by
  rw [(hd.detachAll _).isConnected_iff, hd.isConnected_iff, hd.atOrAbove_detachAll_iff]
  refine and_congr_right fun _ => ⟨fun hkept g hg hgid => ?_, fun hkept o ho _ => ?_⟩
  · obtain ⟨o, ho, hog⟩ := hd.exists_outermost hg
    exact hkept o ho (hids o (hd.mem_outermost_iff.1 ho).1) (hog.trans hgid)
  · exact hkept o (hd.mem_outermost_iff.1 ho).1

/-- What lies below an outermost node is still below it. -/
theorem above_detachAll_outermost (ho : o ∈ d.outermost ids) :
    (d.detachAll (d.outermost ids)).Above o b ↔ d.Above o b := by
  rw [(hd.detachAll _).above_iff_atOrAbove_and_ne, hd.above_iff_atOrAbove_and_ne,
    hd.atOrAbove_detachAll_iff]
  refine and_congr_left fun _ => and_iff_left fun g hg hog => ?_
  exact ((hd.mem_outermost_iff.1 hg).2 o (hd.mem_outermost_iff.1 ho).1 hog).elim

theorem descendants_detachAll_outermost (ho : o ∈ d.outermost ids) :
    (d.detachAll (d.outermost ids)).descendants o = d.descendants o := by
  rw [hd.descendants_detachAll, List.filter_eq_self]
  intro b hb
  rw [(hd.detachAll _).isDescendantOf_iff, hd.above_detachAll_outermost ho]
  exact hd.mem_descendants_iff.1 hb

/-! ## Nodes in tree order -/

/-- A node that comes last in tree order is a further outermost one unless it lies below another
one. -/
theorem outermost_append_singleton (h : (ids ++ [id]).Sublist (d.descendants Dom.root)) :
    d.outermost (ids ++ [id]) =
      d.outermost ids ++ if ids.any (d.isDescendantOf id) then [] else [id] := by
  have hpairwise := (hd.pairwise_before_descendants Dom.root).sublist h
  have hself : d.isDescendantOf id id = false :=
    hd.isDescendantOf_eq_false_iff.2 (hd.acyclic id)
  rw [outermost, List.filter_append, outermost]
  congr 1
  · refine List.filter_congr fun g hg => ?_
    have hbefore := (List.pairwise_append.1 hpairwise).2.2 g hg id (List.mem_singleton_self id)
    simp [hd.isDescendantOf_eq_false_iff.2 (hd.not_above_of_before hbefore)]
  · cases hany : ids.any (d.isDescendantOf id) with
    | true => simpa [hself] using hany
    | false => simpa [hself] using hany

/-- Such a node is still connected, when the outermost ones are taken off, unless it lies below
another one. -/
theorem isConnected_detachAll_outermost_of_sublist
    (h : (ids ++ [id]).Sublist (d.descendants Dom.root)) :
    (d.detachAll (d.outermost ids)).isConnected id ↔ ids.any (d.isDescendantOf id) = false := by
  have hmem : ∀ g ∈ ids ++ [id], g ∈ d.descendants Dom.root := h.subset
  have hnotMem : id ∉ ids := by
    have hnodup := (hd.nodup_descendants Dom.root).sublist h
    exact fun hid => (List.nodup_append.1 hnodup).2.2 id hid id (List.mem_singleton_self id) rfl
  rw [hd.isConnected_detachAll_outermost fun g hg =>
      hd.mem_descendants_iff.1 (hmem g (List.mem_append_left _ hg)),
    and_iff_right (hd.isConnected_of_mem_descendants (hmem id (by simp))), List.any_eq_false]
  refine forall₂_congr fun g hg => not_congr ?_
  rw [hd.isDescendantOf_iff, atOrAbove_iff, or_iff_right]
  rintro rfl
  exact hnotMem hg

end WellFormed

end Restyle.Dom
