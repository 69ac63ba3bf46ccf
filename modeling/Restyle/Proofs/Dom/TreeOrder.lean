import Restyle.Proofs.Dom.Changes

/-!
# The last place of a tree

`LastWithin` follows last children. A node that is put there comes after all others in tree order
(`WellFormed.descendants_addChild`), and the innermost open element of a growing tree lies there
(`Growing.lastWithin`).
-/

namespace Restyle.Dom

/-- Whether one gets from a node to another one by going from nodes to their last children. -/
def LastWithin (d : Dom) : NodeId → NodeId → Prop :=
  Relation.ReflTransGen fun p c => ∃ before, d.children p = before ++ [c]

variable {d : Dom} {a p : Nat} {x : Content}

namespace WellFormed

variable (hd : d.WellFormed)

include hd

theorem atOrAbove_of_lastWithin (h : d.LastWithin a p) : d.AtOrAbove a p := by
  refine Relation.ReflTransGen.mono (fun q c => ?_) _ _ h
  rintro ⟨before, hbefore⟩
  exact (hd.mem_children_iff q c).1 (by simp [hbefore])

/-- A new child changes nothing below the nodes that do not lie above it. -/
theorem preorder_addChild_of_not_atOrAbove (hp : p < d.size) (ha : ¬ d.AtOrAbove a p) :
    (d.addChild p x).preorder a = d.preorder a := by
  have hsame : ∀ (depth a : Nat), ¬ d.AtOrAbove a p →
      (d.addChild p x).preorderTo depth a = d.preorderTo depth a := by
    intro depth
    induction depth with
    | zero => exact fun _ _ => rfl
    | succ depth ih =>
      intro a ha
      have hap : a ≠ p := fun h => ha (h ▸ .refl)
      rw [preorderTo, preorderTo, children_addChild hp, if_neg hap]
      congr 1
      exact List.flatMap_congr fun k hk =>
        ih k fun h => ha (.head ((hd.mem_children_iff a k).1 hk) h)
  rw [preorder, hsame _ a ha, size_addChild hp]
  exact hd.preorderTo_congr (by omega) (by omega)

/-- A node that is put at the last place within another one comes last in it. -/
theorem preorder_addChild (hp : p < d.size) (h : d.LastWithin a p) :
    (d.addChild p x).preorder a = d.preorder a ++ [d.size] := by
  have hd' := hd.addChild hp x
  induction h using Relation.ReflTransGen.head_induction_on with
  | refl =>
    have hnew : (d.addChild p x).preorder d.size = [d.size] := by
      rw [hd'.preorder_eq, children_addChild hp, if_neg (Nat.ne_of_gt hp),
        children_eq_nil_of_size_le (Nat.le_refl _), List.flatMap_nil]
    have hold : (d.children p).flatMap (d.addChild p x).preorder =
        (d.children p).flatMap d.preorder := by
      refine List.flatMap_congr fun k hk => hd.preorder_addChild_of_not_atOrAbove hp fun h => ?_
      exact hd.acyclic p (above_iff_child.2 ⟨k, (hd.mem_children_iff p k).1 hk, h⟩)
    rw [hd'.preorder_eq, hd.preorder_eq, children_addChild hp, if_pos rfl, List.flatMap_append,
      List.flatMap_singleton, hnew, hold, List.cons_append]
  | @head a k hak hkp ih =>
    obtain ⟨before, hbefore⟩ := hak
    have hk : k ∈ d.children a := by simp [hbefore]
    have hkp := hd.atOrAbove_of_lastWithin hkp
    have hap : a ≠ p := by
      rintro rfl
      exact hd.acyclic a (above_iff_child.2 ⟨k, (hd.mem_children_iff a k).1 hk, hkp⟩)
    have hold : before.flatMap (d.addChild p x).preorder = before.flatMap d.preorder := by
      refine List.flatMap_congr fun l hl => hd.preorder_addChild_of_not_atOrAbove hp fun h => ?_
      have hlk : l ≠ k := by
        have hnodup := hd.nodup_children a
        rw [hbefore, List.nodup_append] at hnodup
        exact hnodup.2.2 l hl k (by simp)
      exact hd.not_atOrAbove_of_sibling (by simp [hbefore, hl]) hk hlk h hkp
    rw [hd'.preorder_eq, hd.preorder_eq a, children_addChild hp, if_neg hap, hbefore,
      List.flatMap_append, List.flatMap_append, List.flatMap_singleton, List.flatMap_singleton, ih,
      hold, List.cons_append, List.append_assoc]

theorem descendants_addChild (hp : p < d.size) (h : d.LastWithin a p) :
    (d.addChild p x).descendants a = d.descendants a ++ [d.size] := by
  refine (hd.addChild hp x).descendants_eq_of_preorder_eq ?_
  rw [hd.preorder_addChild hp h, hd.preorder_eq_cons_descendants, List.cons_append]

end WellFormed

/-- The innermost open element is at the last place of the document. -/
theorem Growing.lastWithin {frames : List Html.Frame} (h : Growing d frames) :
    d.LastWithin Dom.root (current frames) := by
  induction frames with
  | nil => exact .refl
  | cons f outer ih => exact .tail (ih h.tail) h.spine.2.2.1

end Restyle.Dom
