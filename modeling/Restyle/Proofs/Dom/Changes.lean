import Restyle.Proofs.Dom.Growth
import Restyle.Proofs.Dom.Tree

/-!
# Changes of a document tree

What a change of a table of nodes does to the parents, the children and the contents, and that it
keeps the table well-formed.
-/

namespace Restyle.Dom

variable {d : Dom} {p c : Nat}

/-! ## One node changed -/

theorem node?_modify (id : NodeId) (f : Node → Node) (i : Nat) :
    (d.modify id f).node? i = if i = id then (d.node? i).map f else d.node? i := by
  simp only [node?, modify, Array.getElem?_modify, eq_comm (a := id)]

theorem size_modify (id : NodeId) (f : Node → Node) : (d.modify id f).size = d.size :=
  Array.size_modify

section

variable (d p c)

theorem size_removeChild : (d.removeChild p c).size = d.size := by
  unfold removeChild
  split_ifs
  · rw [size_modify, size_modify]
  · rfl

theorem content?_removeChild (i : Nat) : (d.removeChild p c).content? i = d.content? i := by
  unfold removeChild
  split_ifs
  · rw [content?, content?, node?_modify, node?_modify]
    cases d.node? i <;> split_ifs <;> rfl
  · rfl

theorem children_removeChild (i : Nat) :
    (d.removeChild p c).children i = if i = p then (d.children p).erase c else d.children i := by
  unfold removeChild
  split_ifs with hc hi hi
  · subst hi
    simp only [children, node?_modify]
    cases d.node? i <;> split_ifs <;> rfl
  · simp only [children, node?_modify]
    cases d.node? i <;> split_ifs <;> rfl
  · rw [hi, List.erase_of_not_mem hc]
  · rfl

end

theorem parent?_removeChild (hc : c ∈ d.children p) (i : Nat) :
    (d.removeChild p c).parent? i = if i = c then none else d.parent? i := by
  rw [removeChild, if_pos hc]
  simp only [parent?, node?_modify]
  cases d.node? i <;> split_ifs <;> rfl

theorem children_foldl_removeChild {cs : List NodeId} (h : d.children p = cs) (i : Nat) :
    (cs.foldl (fun d c => d.removeChild p c) d).children i =
      if i = p then [] else d.children i := by
  induction cs generalizing d with
  | nil =>
    split_ifs with hi
    · rw [hi]
      exact h
    · rfl
  | cons c cs ih =>
    rw [List.foldl_cons, ih (by rw [children_removeChild, if_pos rfl, h, List.erase_cons_head]),
      children_removeChild]
    split_ifs <;> rfl

section

variable (d) (id : NodeId) (cs : List NodeId)

theorem content?_foldl_removeChild (i : Nat) :
    (cs.foldl (fun d c => d.removeChild id c) d).content? i = d.content? i := by
  induction cs generalizing d with
  | nil => rfl
  | cons c cs ih => rw [List.foldl_cons, ih, content?_removeChild]

theorem size_foldl_removeChild : (cs.foldl (fun d c => d.removeChild id c) d).size = d.size := by
  induction cs generalizing d with
  | nil => rfl
  | cons c cs ih => rw [List.foldl_cons, ih, size_removeChild]

end

section

variable (d) (id : NodeId) (f : Element → Element) (i : Nat)

theorem size_modifyElement : (d.modifyElement id f).size = d.size :=
  size_modify id _

theorem parent?_modifyElement : (d.modifyElement id f).parent? i = d.parent? i := by
  simp only [modifyElement, modifyContent, parent?, node?_modify]
  cases d.node? i <;> split_ifs <;> rfl

theorem children_modifyElement : (d.modifyElement id f).children i = d.children i := by
  simp only [modifyElement, modifyContent, children, node?_modify]
  cases d.node? i <;> split_ifs <;> rfl

theorem content?_modifyElement :
    (d.modifyElement id f).content? i = d.content? i ∨
      ∃ e, d.content? i = some (.element e) ∧
        (d.modifyElement id f).content? i = some (.element (f e)) := by
  simp only [modifyElement, modifyContent, content?, node?_modify]
  cases hn : d.node? i with
  | none => exact .inl (by split_ifs <;> rfl)
  | some n =>
    split_ifs
    · cases hcontent : n.content with
      | element e => exact .inr ⟨e, by simp [hcontent], by simp [hcontent]⟩
      | _ => exact .inl (by simp [hcontent])
    · exact .inl rfl

end

namespace WellFormed

/-! ## New nodes -/

theorem empty : Dom.empty.WellFormed := by
  have hparent : ∀ i : Nat, Dom.empty.parent? i = none := by
    intro i
    cases i <;> simp [Dom.empty, parent?, node?]
  have hchildren : ∀ i : Nat, Dom.empty.children i = [] := by
    intro i
    cases i <;> simp [Dom.empty, children, node?]
  exact {
    root := rfl
    parent_lt := by simp [hparent]
    child_lt := by simp [hchildren]
    mem_children_iff := by simp [hparent, hchildren]
    nodup_children := by simp [hchildren]
    acyclic := fun _ => not_above_self_of_measure (fun _ => 0) (by simp [hparent]) }

/-- A node that is not new keeps the nodes above it. -/
theorem above_of_addChild (hd : d.WellFormed) (hp : p < d.size) {x : Content} {a b : Nat}
    (h : (d.addChild p x).Above a b) (hb : b ≠ d.size) : d.Above a b := by
  have hlink : ∀ {i j : Nat}, (d.addChild p x).IsParent i j → j ≠ d.size → d.IsParent i j := by
    intro i j h hj
    rwa [isParent_iff, parent?_addChild hp, if_neg hj] at h
  induction h with
  | single h => exact .single (hlink h hb)
  | tail _ h ih =>
    have h := hlink h hb
    exact .tail (ih (Nat.ne_of_lt (hd.parent_lt _ _ h))) h

theorem mem_children_addChild_iff (hd : d.WellFormed) (hp : p < d.size) (x : Content) (q k : Nat) :
    k ∈ (d.addChild p x).children q ↔ (d.addChild p x).parent? k = some q := by
  rw [children_addChild hp, parent?_addChild hp]
  by_cases hk : k = d.size
  · subst hk
    have hnot : d.size ∉ d.children q := fun h => Nat.lt_irrefl _ (hd.child_lt q _ h)
    by_cases hq : q = p
    · simp [hq]
    · simp [hq, hnot, Ne.symm hq]
  · rw [if_neg hk, ← hd.mem_children_iff]
    by_cases hq : q = p
    · subst hq
      simp [hk]
    · rw [if_neg hq]

theorem addChild (hd : d.WellFormed) (hp : p < d.size) (x : Content) :
    (d.addChild p x).WellFormed := by
  have hparent := parent?_addChild (c := x) hp
  exact {
    root := by
      rw [content?_addChild hp (by simpa only [Dom.root] using Nat.ne_of_lt hd.size_pos)]
      exact hd.root
    parent_lt := by
      intro q k hk
      rw [hparent] at hk
      rw [size_addChild hp]
      split_ifs at hk
      · cases hk
        omega
      · have := hd.parent_lt _ _ hk
        omega
    child_lt := fun q k hk => lt_size_of_parent? ((hd.mem_children_addChild_iff hp x q k).1 hk)
    mem_children_iff := hd.mem_children_addChild_iff hp x
    nodup_children := by
      intro q
      rw [children_addChild hp]
      split_ifs
      · refine List.nodup_append.2 ⟨hd.nodup_children p, List.nodup_singleton _, ?_⟩
        intro k hk l hl
        rw [List.mem_singleton.1 hl]
        exact Nat.ne_of_lt (hd.child_lt _ _ hk)
      · exact hd.nodup_children q
    acyclic := by
      intro i h
      by_cases hi : i = d.size
      · subst hi
        obtain ⟨k, hk, -⟩ := above_iff_child.1 h
        rw [hparent] at hk
        split_ifs at hk
        · exact Nat.ne_of_lt hp (Option.some.inj hk)
        · exact Nat.lt_irrefl _ (hd.parent_lt _ _ hk)
      · exact hd.acyclic i (hd.above_of_addChild hp h hi) }

/-! ## Nodes that are taken off their parents -/

theorem removeChild (hd : d.WellFormed) (p c : NodeId) : (d.removeChild p c).WellFormed := by
  by_cases hc : c ∈ d.children p
  · have hparent := parent?_removeChild hc
    have hchildren := children_removeChild d p c
    have hsize := size_removeChild d p c
    have hlink : ∀ {i j : Nat}, (d.removeChild p c).parent? j = some i →
        d.parent? j = some i := by
      intro i j h
      rw [hparent] at h
      split_ifs at h
      exact h
    have hsub : ∀ i : Nat, (d.removeChild p c).children i ⊆ d.children i := by
      intro i
      rw [hchildren]
      split_ifs with hi
      · rw [hi]
        exact List.erase_subset
      · exact List.Subset.refl _
    exact {
      root := by rw [content?_removeChild, hd.root]
      parent_lt := fun i j h => by
        rw [hsize]
        exact hd.parent_lt i j (hlink h)
      child_lt := fun i j h => by
        rw [hsize]
        exact hd.child_lt i j (hsub i h)
      mem_children_iff := by
        intro i j
        rw [hchildren, hparent]
        by_cases hi : i = p
        · subst hi
          rw [if_pos rfl, (hd.nodup_children i).mem_erase_iff, hd.mem_children_iff]
          split_ifs with hj <;> simp [hj]
        · rw [if_neg hi, hd.mem_children_iff]
          split_ifs with hj
          · rw [hj, (hd.mem_children_iff p c).1 hc]
            simp [Ne.symm hi]
          · exact Iff.rfl
      nodup_children := by
        intro i
        rw [hchildren]
        split_ifs
        · exact (hd.nodup_children p).erase c
        · exact hd.nodup_children i
      acyclic := fun i h => hd.acyclic i (Relation.TransGen.mono (fun _ _ => hlink) _ _ h) }
  · rwa [Dom.removeChild, if_neg hc]

theorem detach (hd : d.WellFormed) (id : NodeId) : (d.detach id).WellFormed := by
  unfold Dom.detach
  split
  · exact hd.removeChild _ _
  · exact hd

/-! ## The same links -/

/-- Only the links and the document count. -/
theorem congr {d' : Dom} (hd : d.WellFormed) (hroot : d'.content? Dom.root = some .document)
    (hparent : ∀ i, d'.parent? i = d.parent? i) (hchildren : ∀ i, d'.children i = d.children i)
    (hsize : d.size ≤ d'.size) : d'.WellFormed where
  root := hroot
  parent_lt i j h := Nat.lt_of_lt_of_le (hd.parent_lt i j (hparent j ▸ h)) hsize
  child_lt i j h := Nat.lt_of_lt_of_le (hd.child_lt i j (hchildren i ▸ h)) hsize
  mem_children_iff i j := by rw [hchildren, hparent, hd.mem_children_iff]
  nodup_children i := by
    rw [hchildren]
    exact hd.nodup_children i
  acyclic i h :=
    hd.acyclic i (Relation.TransGen.mono (fun _ b hab => (hparent b).symm.trans hab) _ _ h)

theorem modifyElement (hd : d.WellFormed) (id : NodeId) (f : Element → Element) :
    (d.modifyElement id f).WellFormed := by
  refine hd.congr ?_ (parent?_modifyElement d id f) (children_modifyElement d id f) ?_
  · rcases content?_modifyElement d id f Dom.root with h | ⟨e, h, -⟩
    · rw [h, hd.root]
    · rw [hd.root] at h
      cases h
  · rw [size_modifyElement]

end WellFormed

end Restyle.Dom
