import Restyle.Proofs.Dom.Changes

/-!
# Nodes that are made and moved

`Dom.add` makes a node without a place in the tree, and `Dom.append` moves a node to the end of the
children of another one. Both keep a table of nodes well-formed, the second one where the node is
neither its new parent nor above it (`WellFormed.append`).
-/

namespace Restyle.Dom

variable {d : Dom} {p c : Nat}

/-! ## New nodes -/

section

variable (d) (x : Content)

theorem size_add : (d.add x).size = d.size + 1 :=
  Array.size_push _

theorem node?_add (i : Nat) :
    (d.add x).node? i = if i = d.size then some ⟨x, none, []⟩ else d.node? i :=
  Array.getElem?_push

theorem parent?_add (i : Nat) : (d.add x).parent? i = d.parent? i := by
  rw [parent?, node?_add]
  split_ifs with hi
  · rw [hi, parent?_eq_none_of_size_le (Nat.le_refl _)]
    rfl
  · rfl

theorem children_add (i : Nat) : (d.add x).children i = d.children i := by
  rw [children, node?_add]
  split_ifs with hi
  · rw [hi, children_eq_nil_of_size_le (Nat.le_refl _)]
    rfl
  · rfl

theorem content?_add {i : Nat} (hi : i ≠ d.size) : (d.add x).content? i = d.content? i := by
  rw [content?, node?_add, if_neg hi]
  rfl

end

theorem WellFormed.add (hd : d.WellFormed) (x : Content) : (d.add x).WellFormed := by
  refine hd.congr ?_ (parent?_add d x) (children_add d x) ?_
  · exact (content?_add d x (Nat.ne_of_lt hd.size_pos)).trans hd.root
  · rw [size_add]
    exact Nat.le_succ _

/-! ## Nodes without a place -/

section

variable (d) (c)

theorem size_detach : (d.detach c).size = d.size := by
  unfold detach
  split
  · exact size_removeChild d _ c
  · rfl

theorem content?_detach (i : Nat) : (d.detach c).content? i = d.content? i := by
  unfold detach
  split
  · exact content?_removeChild d _ c i
  · rfl

end

theorem parent?_detach_of_ne {i : Nat} (hi : i ≠ c) : (d.detach c).parent? i = d.parent? i := by
  unfold detach
  split
  · rename_i q hq
    by_cases hc : c ∈ d.children q
    · rw [parent?_removeChild hc, if_neg hi]
    · rw [removeChild, if_neg hc]
  · rfl

namespace WellFormed

variable (hd : d.WellFormed)

include hd

/-- A node is among the children of its parent only, so it can be taken off all lists at once. -/
theorem children_detach (i : Nat) : (d.detach c).children i = (d.children i).erase c := by
  unfold Dom.detach
  split
  · rename_i q hq
    rw [children_removeChild]
    split_ifs with hi
    · rw [hi]
    · refine (List.erase_of_not_mem fun hc => hi ?_).symm
      exact Option.some.inj (((hd.mem_children_iff i c).1 hc).symm.trans hq)
  · rename_i hnone
    refine (List.erase_of_not_mem fun hc => ?_).symm
    rw [(hd.mem_children_iff i c).1 hc] at hnone
    cases hnone

end WellFormed

/-! ## Nodes that are moved -/

section

variable (hp : p < d.size) (hc : c < d.size)

include hp hc

theorem append_eq :
    d.append p c =
      ((d.detach c).modify p fun n => { n with children := n.children ++ [c] }).modify c
        fun n => { n with parent := some p } :=
  if_pos ⟨hp, hc⟩

theorem parent?_append (i : Nat) :
    (d.append p c).parent? i = if i = c then some p else d.parent? i := by
  obtain ⟨n, hn⟩ := exists_node (d := d.detach c) (size_detach d c ▸ hc)
  rw [append_eq hp hc]
  simp only [parent?, node?_modify]
  by_cases hi : i = c
  · subst hi
    rw [hn, if_pos rfl, if_pos rfl]
    split_ifs <;> rfl
  · have hother := parent?_detach_of_ne (d := d) hi
    rw [parent?, parent?] at hother
    rw [if_neg hi, if_neg hi, ← hother]
    split_ifs
    · cases (d.detach c).node? i <;> rfl
    · rfl

theorem children_append (i : Nat) :
    (d.append p c).children i =
      if i = p then (d.detach c).children p ++ [c] else (d.detach c).children i := by
  obtain ⟨n, hn⟩ := exists_node (d := d.detach c) (size_detach d c ▸ hp)
  rw [append_eq hp hc]
  simp only [children, node?_modify]
  by_cases hi : i = p
  · subst hi
    rw [hn, if_pos rfl, if_pos rfl]
    split_ifs <;> rfl
  · rw [if_neg hi, if_neg hi]
    split_ifs
    · cases (d.detach c).node? i <;> rfl
    · rfl

end

section

variable (d) (p c)

theorem size_append : (d.append p c).size = d.size := by
  unfold append
  split_ifs
  · rw [size_modify, size_modify, size_detach]
  · rfl

theorem content?_append (i : Nat) : (d.append p c).content? i = d.content? i := by
  unfold append
  split_ifs
  · rw [← content?_detach d c, content?, content?, node?_modify, node?_modify]
    cases (d.detach c).node? i <;> split_ifs <;> rfl
  · rfl

end

/-- A path along the parents after a move is an old path, or it goes through the new link. -/
theorem above_of_append (hp : p < d.size) (hc : c < d.size) (hne : c ≠ p)
    (hnot : ¬ d.Above c p) {a b : Nat} (h : (d.append p c).Above a b) :
    d.Above a b ∨ d.AtOrAbove a p ∧ d.AtOrAbove c b := by
  have hlink : ∀ {i j : Nat}, (d.append p c).IsParent i j → j = c ∧ i = p ∨ d.IsParent i j := by
    intro i j hij
    rw [isParent_iff, parent?_append hp hc] at hij
    split_ifs at hij with hj
    · exact .inl ⟨hj, (Option.some.inj hij).symm⟩
    · exact .inr hij
  induction h with
  | single hb =>
    rcases hlink hb with ⟨rfl, rfl⟩ | hold
    · exact .inr ⟨.refl, .refl⟩
    · exact .inl (.single hold)
  | tail _ hb ih =>
    rcases hlink hb with ⟨rfl, rfl⟩ | hold
    · rcases ih with h | ⟨-, h⟩
      · exact .inr ⟨atOrAbove_iff.2 (.inr h), .refl⟩
      · exact ((atOrAbove_iff.1 h).elim hne hnot).elim
    · exact ih.imp (·.tail hold) fun h => ⟨h.1, h.2.tail hold⟩

/-- A node can be moved below any node that is not below it. -/
theorem WellFormed.append (hd : d.WellFormed) (hne : c ≠ p) (hnot : ¬ d.Above c p) :
    (d.append p c).WellFormed := by
  by_cases hlt : p < d.size ∧ c < d.size
  · obtain ⟨hp, hc⟩ := hlt
    have hparent := parent?_append hp hc
    have hmem : ∀ i j : Nat, j ∈ (d.append p c).children i ↔
        (d.append p c).parent? j = some i := by
      intro i j
      rw [hparent, children_append hp hc, hd.children_detach, hd.children_detach]
      by_cases hj : j = c
      · subst hj
        have hnone : j ∉ (d.children i).erase j := fun hmem =>
          ((hd.nodup_children i).mem_erase_iff.1 hmem).1 rfl
        by_cases hi : i = p
        · simp [hi]
        · simp [hi, hnone, Ne.symm hi]
      · rw [if_neg hj, ← hd.mem_children_iff]
        split_ifs with hi
        · simp [hi, hj, List.mem_erase_of_ne hj]
        · exact List.mem_erase_of_ne hj
    exact {
      root := by rw [content?_append, hd.root]
      parent_lt := by
        intro i j hij
        rw [size_append]
        rw [hparent] at hij
        split_ifs at hij
        · exact Option.some.inj hij ▸ hp
        · exact hd.parent_lt i j hij
      child_lt := fun i j hij => lt_size_of_parent? ((hmem i j).1 hij)
      mem_children_iff := hmem
      nodup_children := by
        intro i
        rw [children_append hp hc, hd.children_detach, hd.children_detach]
        have herase := (hd.nodup_children p).erase c
        split_ifs
        · refine List.nodup_append.2 ⟨herase, List.nodup_singleton c, ?_⟩
          intro a ha b hb
          rw [List.mem_singleton.1 hb]
          exact ((hd.nodup_children p).mem_erase_iff.1 ha).1
        · exact (hd.nodup_children i).erase c
      acyclic := by
        intro i h
        rcases above_of_append hp hc hne hnot h with h | ⟨hip, hci⟩
        · exact hd.acyclic i h
        · exact (atOrAbove_iff.1 (hci.trans hip)).elim hne hnot }
  · rwa [Dom.append, if_neg hlt]

end Restyle.Dom
