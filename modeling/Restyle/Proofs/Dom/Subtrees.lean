import Restyle.Proofs.Dom.Removal
import Restyle.Proofs.Dom.Walks

/-!
# Subtrees that are cut out and put in again

In tree order a node and what is below it stand in one block (`WellFormed.preorder_isInfix`). Taking
the node off its parent removes this block and leaves the rest as it is (`CutOut`); making the node
the last child of another one puts the same block after what was below the other one (`PutIn`).
Main statement: `WellFormed.detach_append`.
-/

namespace Restyle.Dom

variable {d e : Dom} {a b c n p : Nat} {front back : List NodeId}

/-- What is left of a list without repetition when the elements of a part are dropped. -/
theorem filter_notMem_middle {block : List NodeId} (h : (front ++ block ++ back).Nodup) :
    (front ++ block ++ back).filter (· ∉ block) = front ++ back := by
  rw [List.append_assoc, List.nodup_append, List.nodup_append] at h
  obtain ⟨-, ⟨-, -, hback⟩, hfront⟩ := h
  have hkept : ∀ part : List NodeId, (∀ x ∈ part, x ∉ block) → part.filter (· ∉ block) = part :=
    fun part hpart => List.filter_eq_self.2 fun x hx => decide_eq_true (hpart x hx)
  rw [List.filter_append, List.filter_append,
    hkept front fun x hx hblock => hfront x hx x (List.mem_append_left _ hblock) rfl,
    hkept back fun x hx hblock => hback x hblock x hx rfl,
    List.filter_eq_nil_iff.2 fun x hx => by simpa using hx, List.append_nil]

/-- What taking a node off its parent does to a tree. -/
structure CutOut (d e : Dom) (n : NodeId) : Prop where
  /-- The document loses one block: the node and what is below it. -/
  order : ∃ front back, d.descendants root = front ++ (n :: d.descendants n) ++ back ∧
    e.descendants root = front ++ back
  /-- What is below the node stays as it is. -/
  below : e.descendants n = d.descendants n
  /-- What is connected is what was connected and is not in the block. -/
  connected : ∀ i, e.isConnected i ↔ d.isConnected i ∧ i ∉ n :: d.descendants n
  /-- The node has no parent. -/
  parent : e.parent? n = none
  /-- Other nodes keep their parents. -/
  other_parents : ∀ i, i ≠ n → e.parent? i = d.parent? i
  /-- The old parent loses the node from its children, and other nodes keep their children. -/
  children : ∃ q front back, d.parent? n = some q ∧ d.children q = front ++ n :: back ∧
    e.children q = front ++ back ∧ ∀ i, i ≠ q → e.children i = d.children i
  /-- No node comes to stand for something else. -/
  contents : ∀ i, e.content? i = d.content? i

/-- What making a node without a parent the last child of another one does to a tree. -/
structure PutIn (e d : Dom) (p n : NodeId) : Prop where
  /-- The block of the node comes last below the other one. -/
  last : d.descendants p = e.descendants p ++ n :: e.descendants n
  /-- In the document the block comes right after what was below the other one. -/
  order : ∃ front back, root :: e.descendants root = front ++ (p :: e.descendants p) ++ back ∧
    root :: d.descendants root =
      front ++ (p :: e.descendants p ++ n :: e.descendants n) ++ back
  /-- What is below the node stays as it is. -/
  below : d.descendants n = e.descendants n
  /-- The other one is the parent of the node. -/
  parent : d.parent? n = some p
  /-- Other nodes keep their parents. -/
  other_parents : ∀ i, i ≠ n → d.parent? i = e.parent? i
  /-- The node comes last among the children of its parent. -/
  children : d.children p = e.children p ++ [n]
  /-- Other nodes keep their children. -/
  other_children : ∀ i, i ≠ p → d.children i = e.children i
  /-- No node comes to stand for something else. -/
  contents : ∀ i, d.content? i = e.content? i

/-- A node that has no parent is put in without being taken off one. -/
theorem children_append_of_parent?_eq_none (hn : d.parent? n = none) (hnlt : n < d.size)
    (hp : p < d.size) (i : Nat) :
    (d.append p n).children i = if i = p then d.children p ++ [n] else d.children i := by
  have hdetach : d.detach n = d := by rw [detach, hn]
  rw [children_append hp hnlt, hdetach]

namespace WellFormed

variable (hd : d.WellFormed)

include hd

/-! ## Blocks -/

/-- A node and what is below it stand together in tree order. -/
theorem preorder_isInfix (h : d.AtOrAbove a n) : d.preorder n <:+: d.preorder a := by
  induction h using Relation.ReflTransGen.head_induction_on with
  | refl => exact List.infix_refl _
  | @head a c hc _ ih =>
    obtain ⟨front, back, hsplit⟩ := List.append_of_mem ((hd.mem_children_iff a c).2 hc)
    refine ih.trans ⟨a :: front.flatMap d.preorder, back.flatMap d.preorder, ?_⟩
    rw [hd.preorder_eq a, hsplit, List.flatMap_append, List.flatMap_cons, List.cons_append,
      List.cons_append, List.append_assoc]

/-! ## Taking a node off its parent -/

theorem atOrAbove_detach_iff :
    (d.detach n).AtOrAbove a b ↔ d.AtOrAbove a b ∧ (d.Above a n → ¬ d.AtOrAbove n b) := by
  have hpath : (d.detachAll [n]).AtOrAbove a b ↔ _ := hd.atOrAbove_detachAll_iff
  simp only [List.mem_singleton, forall_eq] at hpath
  exact hpath

theorem above_detach_iff :
    (d.detach n).Above a b ↔ d.Above a b ∧ (d.Above a n → ¬ d.AtOrAbove n b) := by
  rw [(hd.detach n).above_iff_atOrAbove_and_ne, hd.atOrAbove_detach_iff,
    hd.above_iff_atOrAbove_and_ne (b := b), and_right_comm]

theorem descendants_detach (n a : NodeId) :
    (d.detach n).descendants a = (d.descendants a).filter ((d.detach n).isDescendantOf · a) :=
  hd.descendants_detachAll [n] a

/-- Nothing changes below the nodes that do not lie above the one that is taken off. -/
theorem descendants_detach_of_not_above (h : ¬ d.Above a n) :
    (d.detach n).descendants a = d.descendants a := by
  rw [hd.descendants_detach, List.filter_eq_self]
  intro b hb
  rw [(hd.detach n).isDescendantOf_iff, hd.above_detach_iff]
  exact ⟨hd.mem_descendants_iff.1 hb, fun han => absurd han h⟩

/-- Below the nodes above it, the block of the node is dropped. -/
theorem preorder_detach_of_above (h : d.Above a n) :
    (d.detach n).preorder a = (d.preorder a).filter (· ∉ d.preorder n) := by
  have ha : a ∉ d.preorder n := fun hmem =>
    hd.acyclic a (h.trans_left (hd.mem_preorder_iff.1 hmem))
  rw [(hd.detach n).preorder_eq_cons_descendants, hd.preorder_eq_cons_descendants a,
    List.filter_cons_of_pos (by simpa using ha), hd.descendants_detach]
  congr 1
  refine List.filter_congr fun b hb => ?_
  rw [Bool.eq_iff_iff, (hd.detach n).isDescendantOf_iff, hd.above_detach_iff, decide_eq_true_iff,
    hd.mem_preorder_iff, and_iff_right (hd.mem_descendants_iff.1 hb)]
  exact ⟨fun hkept => hkept h, fun hkept _ => hkept⟩

theorem preorder_detach (h : d.Above a n)
    (hsplit : d.preorder a = front ++ d.preorder n ++ back) :
    (d.detach n).preorder a = front ++ back := by
  have hnodup : (d.preorder a).Nodup := hd.nodup_preorderTo _ _
  rw [hsplit] at hnodup
  rw [hd.preorder_detach_of_above h, hsplit, filter_notMem_middle hnodup]

theorem above_root (hn : d.isConnected n) (hne : n ≠ Dom.root) : d.Above Dom.root n :=
  (atOrAbove_iff.1 (hd.isConnected_iff.1 hn)).resolve_left (Ne.symm hne)

theorem cutOut_detach (hn : d.isConnected n) (hne : n ≠ Dom.root) : CutOut d (d.detach n) n := by
  have hroot := hd.above_root hn hne
  obtain ⟨q, hq, -⟩ := above_iff.1 hroot
  obtain ⟨front, back, hsplit⟩ := List.append_of_mem ((hd.mem_children_iff q n).2 hq)
  have hfront : n ∉ front := by
    have hnodup := hd.nodup_children q
    rw [hsplit] at hnodup
    exact fun hmem => (List.nodup_append.1 hnodup).2.2 n hmem n List.mem_cons_self rfl
  exact {
    order := by
      obtain ⟨x, y, hxy⟩ := hd.preorder_isInfix (atOrAbove_iff.2 (.inr hroot))
      have hcut := hd.preorder_detach hroot hxy.symm
      rw [hd.preorder_eq_cons_descendants, hd.preorder_eq_cons_descendants] at hxy
      -- The document itself is in front of the block.
      cases x with
      | nil => exact absurd (List.cons.inj hxy).1 hne
      | cons r x =>
        obtain ⟨rfl, horder⟩ := List.cons.inj hxy
        exact ⟨x, y, horder.symm, (hd.detach n).descendants_eq_of_preorder_eq hcut⟩
    below := hd.descendants_detach_of_not_above (hd.acyclic n)
    connected := by
      intro i
      rw [(hd.detach n).isConnected_iff, hd.isConnected_iff, ← hd.preorder_eq_cons_descendants,
        hd.mem_preorder_iff, hd.atOrAbove_detach_iff, imp_iff_right hroot]
    parent := by rw [hd.parent?_detach, if_pos rfl]
    other_parents := fun i hi => parent?_detach_of_ne hi
    children := by
      refine ⟨q, front, back, hq, hsplit, ?_, fun i hi => ?_⟩
      · rw [hd.children_detach, hsplit, List.erase_append_right _ hfront, List.erase_cons_head]
      · rw [hd.children_detach, List.erase_of_not_mem]
        intro hmem
        exact hi (Option.some.inj (((hd.mem_children_iff i n).1 hmem).symm.trans hq))
    contents := content?_detach d n }

/-! ## Putting a node in -/

theorem append_of_not_atOrAbove (hnp : ¬ d.AtOrAbove n p) : (d.append p n).WellFormed :=
  hd.append (fun h => hnp (atOrAbove_iff.2 (.inl h))) fun h => hnp (atOrAbove_iff.2 (.inr h))

section

variable (hn : d.parent? n = none) (hnlt : n < d.size) (hp : p < d.size)
  (hnp : ¬ d.AtOrAbove n p)

include hn hnlt hp hnp

/-- Taking the node off again gives the old lists. -/
theorem preorder_detach_append (i : Nat) :
    ((d.append p n).detach n).preorder i = d.preorder i := by
  have hd' := hd.append_of_not_atOrAbove hnp
  have hchildren : ∀ i, ((d.append p n).detach n).children i = d.children i := by
    intro i
    have hnotMem : n ∉ d.children i := by
      rw [hd.mem_children_iff, hn]
      exact Option.some_ne_none i ∘ Eq.symm
    rw [hd'.children_detach, children_append_of_parent?_eq_none hn hnlt hp]
    split_ifs with hi
    · subst hi
      rw [List.erase_append_right _ hnotMem, List.erase_cons_head, List.append_nil]
    · rw [List.erase_of_not_mem hnotMem]
  rw [(hd'.detach n).preorder_eq_cons_descendants, hd.preorder_eq_cons_descendants,
    descendants_congr hchildren (by rw [size_detach, size_append])]

/-- Nothing changes below a node that does not come to lie above the one that is put in. -/
theorem preorder_append_of_not_above (h : ¬ (d.append p n).Above a n) :
    (d.append p n).preorder a = d.preorder a := by
  have hd' := hd.append_of_not_atOrAbove hnp
  rw [← hd.preorder_detach_append hn hnlt hp hnp, (hd'.detach n).preorder_eq_cons_descendants,
    hd'.descendants_detach_of_not_above h, hd'.preorder_eq_cons_descendants]

/-- The block is put after what was below the new parent. -/
theorem preorder_append : (d.append p n).preorder p = d.preorder p ++ d.preorder n := by
  have hd' := hd.append_of_not_atOrAbove hnp
  have hparent : (d.append p n).parent? n = some p := by rw [parent?_append hp hnlt, if_pos rfl]
  have hold : (d.children p).flatMap (d.append p n).preorder =
      (d.children p).flatMap d.preorder := by
    refine List.flatMap_congr fun c hc =>
      hd.preorder_append_of_not_above hn hnlt hp hnp fun habove => ?_
    -- A child of `p` above `n` would be at or above `p`.
    obtain ⟨q, hq, hcq⟩ := above_iff.1 habove
    obtain rfl : q = p := Option.some.inj (hq.symm.trans hparent)
    have hcp : (d.append q n).parent? c = some q := by
      rw [← hd'.mem_children_iff, children_append_of_parent?_eq_none hn hnlt hp, if_pos rfl]
      exact List.mem_append_left _ hc
    exact hd'.acyclic q (above_iff_child.2 ⟨c, hcp, hcq⟩)
  rw [hd'.preorder_eq, children_append_of_parent?_eq_none hn hnlt hp, if_pos rfl,
    List.flatMap_append, hold, List.flatMap_singleton,
    hd.preorder_append_of_not_above hn hnlt hp hnp (hd'.acyclic n), hd.preorder_eq p,
    List.cons_append]

theorem putIn_append (hroot : d.AtOrAbove Dom.root p) : PutIn d (d.append p n) p n := by
  have hd' := hd.append_of_not_atOrAbove hnp
  have hparent := parent?_append hp hnlt
  have hchildren := children_append_of_parent?_eq_none hn hnlt hp
  have hblock := hd.preorder_append_of_not_above hn hnlt hp hnp (hd'.acyclic n)
  have hlast := hd.preorder_append hn hnlt hp hnp
  have hroot' : (d.append p n).AtOrAbove Dom.root p := by
    rw [← hd.mem_preorder_iff, ← hd.preorder_detach_append hn hnlt hp hnp,
      (hd'.detach n).mem_preorder_iff, hd'.atOrAbove_detach_iff] at hroot
    exact hroot.1
  exact {
    last := by
      rw [hd.preorder_eq_cons_descendants, hd.preorder_eq_cons_descendants] at hlast
      exact hd'.descendants_eq_of_preorder_eq hlast
    order := by
      obtain ⟨x, y, hxy⟩ := hd'.preorder_isInfix hroot'
      have habove : (d.append p n).Above Dom.root n :=
        above_iff.2 ⟨p, by rw [hparent, if_pos rfl], hroot'⟩
      have hsplit : (d.append p n).preorder Dom.root =
          (x ++ d.preorder p) ++ (d.append p n).preorder n ++ y := by
        rw [← hxy, hlast, hblock, ← List.append_assoc]
      have hcut := hd'.preorder_detach habove hsplit
      rw [hd.preorder_detach_append hn hnlt hp hnp] at hcut
      refine ⟨x, y, ?_, ?_⟩
      · rw [← hd.preorder_eq_cons_descendants, ← hd.preorder_eq_cons_descendants, hcut]
      · rw [← hd'.preorder_eq_cons_descendants, ← hd.preorder_eq_cons_descendants,
          ← hd.preorder_eq_cons_descendants, ← hlast, hxy]
    below := hd'.descendants_eq_of_preorder_eq
      (hblock.trans (hd.preorder_eq_cons_descendants n))
    parent := by rw [hparent, if_pos rfl]
    other_parents := fun i hi => by rw [hparent, if_neg hi]
    children := by rw [hchildren, if_pos rfl]
    other_children := fun i hi => by rw [hchildren, if_neg hi]
    contents := content?_append d p n }

end

/-! ## Cutting out and putting in -/

/-- Moving a node is taking it off its parent first. -/
theorem append_detach (hp : p < d.size) (hn : n < d.size) :
    (d.detach n).append p n = d.append p n := by
  have hdetach : (d.detach n).detach n = d.detach n := by
    rw [Dom.detach, hd.parent?_detach, if_pos rfl]
  rw [append_eq (by rwa [size_detach]) (by rwa [size_detach]), hdetach, append_eq hp hn]

/-- Taking a connected node off its parent cuts one subtree out of the document. Making it the last
child of another connected node that is not in the subtree puts the same subtree in again, which is
what moving it in one step does. -/
theorem detach_append (hn : d.isConnected n) (hne : n ≠ Dom.root) :
    CutOut d (d.detach n) n ∧
      ∀ p, d.isConnected p → p ∉ n :: d.descendants n →
        ((d.detach n).append p n).WellFormed ∧
          PutIn (d.detach n) ((d.detach n).append p n) p n ∧
          (d.detach n).append p n = d.append p n := by
  have hcut := hd.cutOut_detach hn hne
  refine ⟨hcut, fun p hp hpn => ?_⟩
  have hde := hd.detach n
  have hroot : (d.detach n).AtOrAbove Dom.root p :=
    hde.isConnected_iff.1 ((hcut.connected p).2 ⟨hp, hpn⟩)
  have hnp : ¬ (d.detach n).AtOrAbove n p := by
    rw [← hde.mem_preorder_iff, hde.preorder_eq_cons_descendants, hcut.below]
    exact hpn
  have hnlt : n < d.size := lt_size_of_above (hd.above_root hn hne)
  have hplt : p < d.size := by
    rcases atOrAbove_iff.1 (hd.isConnected_iff.1 hp) with rfl | habove
    · exact hd.size_pos
    · exact lt_size_of_above habove
  have hsize := size_detach d n
  exact ⟨hde.append_of_not_atOrAbove hnp,
    hde.putIn_append hcut.parent (hsize ▸ hnlt) (hsize ▸ hplt) hnp hroot,
    hd.append_detach hplt hnlt⟩

end WellFormed

/-- An element with a text in it is moved below its sibling, which stood before it. -/
theorem detach_append_sibling :
    let d := (((Dom.empty.addChild 0 (.element ⟨"a", []⟩)).addChild 0 (.element ⟨"b", []⟩)).addChild
      2 (.text "x")).addChild 0 (.element ⟨"c", []⟩)
    d.WellFormed ∧ d.isConnected 2 ∧ CutOut d (d.detach 2) 2 ∧ d.isConnected 1 ∧
      PutIn (d.detach 2) ((d.detach 2).append 1 2) 1 2 ∧
      (d.detach 2).descendants root = [1, 4] ∧ (d.append 1 2).descendants root = [1, 2, 3, 4] := by
  intro d
  have hd : d.WellFormed :=
    (((WellFormed.empty.addChild (by decide) _).addChild (by decide) _).addChild
      (by decide) _).addChild (by decide) _
  obtain ⟨hcut, hput⟩ := hd.detach_append (n := 2) (by decide) (by decide)
  exact ⟨hd, by decide, hcut, by decide, (hput 1 (by decide) (by decide)).2.1, by decide,
    by decide⟩

end Restyle.Dom
