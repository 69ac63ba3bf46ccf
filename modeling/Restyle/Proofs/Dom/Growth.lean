import Mathlib.Data.List.Infix
import Restyle.Html.Document
import Restyle.Proofs.Dom.Marks

/-!
# Documents that grow at their end

A builder puts nodes at the end of the innermost open element only. `Growing` says how the open
elements lie in the tree, and `opened` gives the marks up to the place where the next node goes: a
new node adds its marks there (`opened_addChild`), and an element that is closed adds its end tag
(`opened_tail`).
-/

namespace Restyle.Dom

open Html

/-! ## A new last child -/

section

variable {d : Dom} {p : Nat} {c : Content}

theorem addChild_eq (hp : p < d.size) :
    d.addChild p c =
      ((d.add c).modify p fun n => { n with children := n.children ++ [d.size] }).modify d.size
        fun n => { n with parent := some p } := by
  have hparent : (d.add c).parent? d.size = none := by
    simp [parent?, node?, add, size]
  have hdetach : (d.add c).detach d.size = d.add c := by
    rw [detach, hparent]
  have hlt : p < (d.add c).size ∧ d.size < (d.add c).size := by
    simp only [add, size, Array.size_push] at hp ⊢
    omega
  rw [addChild, append, if_pos hlt, hdetach]

theorem size_addChild (hp : p < d.size) : (d.addChild p c).size = d.size + 1 := by
  simp [addChild_eq hp, size, modify, add]

theorem node?_addChild (hp : p < d.size) (i : Nat) :
    (d.addChild p c).node? i =
      if i = d.size then some ⟨c, some p, []⟩
      else if i = p then (d.node? i).map fun n => { n with children := n.children ++ [d.size] }
      else d.node? i := by
  rw [addChild_eq hp]
  simp only [node?, modify, add, Array.getElem?_modify, Array.getElem?_push, size] at hp ⊢
  by_cases hi : i = d.nodes.size
  · subst hi
    have : d.nodes.size ≠ p := by omega
    simp [this.symm]
  · by_cases hip : i = p
    · subst hip
      simp [hi, Ne.symm hi]
    · simp [hi, hip, Ne.symm hi, Ne.symm hip]

theorem children_addChild (hp : p < d.size) (i : Nat) :
    (d.addChild p c).children i =
      if i = p then d.children p ++ [d.size] else d.children i := by
  have hnone : d.children d.size = [] := by
    rw [children, node?_eq_none (Nat.le_refl _)]
    rfl
  rw [children, node?_addChild hp]
  by_cases hi : i = d.size
  · subst hi
    rw [if_pos rfl, if_neg (by omega), hnone]
    rfl
  · rw [if_neg hi]
    by_cases hip : i = p
    · subst hip
      have hsome : (d.node? i).isSome := by
        simpa [node?, size] using hp
      obtain ⟨n, hn⟩ := Option.isSome_iff_exists.1 hsome
      simp [children, hn]
    · simp [hip, children]

theorem mem_children_addChild (hp : p < d.size) {i k : Nat} :
    k ∈ (d.addChild p c).children i ↔ k ∈ d.children i ∨ i = p ∧ k = d.size := by
  rw [children_addChild hp]
  by_cases hi : i = p <;> simp [hi]

theorem content?_addChild (hp : p < d.size) {i : Nat} (hi : i ≠ d.size) :
    (d.addChild p c).content? i = d.content? i := by
  rw [content?, node?_addChild hp, if_neg hi]
  split_ifs
  · cases h : d.node? i <;> simp [content?, h]
  · rfl

theorem parent?_addChild (hp : p < d.size) (i : Nat) :
    (d.addChild p c).parent? i = if i = d.size then some p else d.parent? i := by
  rw [parent?, node?_addChild hp]
  split_ifs
  · rfl
  · cases h : d.node? i <;> simp [parent?, h]
  · rfl

theorem tag?_addChild (hp : p < d.size) {i : Nat} (hi : i ≠ d.size) :
    (d.addChild p c).tag? i = d.tag? i := by
  rw [tag?, element?, content?_addChild hp hi]
  rfl

theorem lt_size_of_content? {i : Nat} {x : Content} (h : d.content? i = some x) : i < d.size := by
  by_contra hi
  rw [content?, node?_eq_none (by omega)] at h
  cases h

theorem lt_size_of_tag? {i : Nat} {tag : String} (h : d.tag? i = some tag) : i < d.size := by
  rw [tag?, element?, Option.map_eq_some_iff] at h
  obtain ⟨e, he, -⟩ := h
  obtain ⟨x, hx, -⟩ := Option.bind_eq_some_iff.1 he
  exact lt_size_of_content? hx

theorem exists_node {i : Nat} (hi : i < d.size) : ∃ n, d.node? i = some n :=
  ⟨d.nodes[i], Array.getElem?_eq_getElem hi⟩

end

/-! ## Open elements -/

/-- The node that new nodes are put into. -/
def current : List Frame → Nat
  | f :: _ => f.id
  | [] => root

/-- Whether each open element is an element with content, and the last child of the one around
it. -/
def Spine (d : Dom) : List Frame → Prop
  | [] => True
  | f :: outer =>
    (∃ attributes, d.content? f.id = some (.element ⟨f.tag, attributes⟩)) ∧
      isVoidTag f.tag = false ∧ (∃ before, d.children (current outer) = before ++ [f.id]) ∧
      d.Spine outer

/-- A tree that is being built, with its open elements. -/
structure Growing (d : Dom) (frames : List Frame) : Prop where
  /-- The document is there. -/
  root : d.content? root = some .document
  /-- Children have larger numbers than their parents. -/
  ordered : d.Ordered
  /-- Later children have larger numbers. -/
  sorted : ∀ i, (d.children i).Pairwise (· < ·)
  /-- Children know their parents. -/
  linked : ∀ i c : Nat, c ∈ d.children i → d.parent? c = some i
  /-- Parents are nodes. -/
  parents : ∀ i p : Nat, d.parent? i = some p → p < d.size
  /-- The open elements lie at the end. -/
  spine : d.Spine frames

namespace Growing

variable {d : Dom} {f : Frame} {frames outer : List Frame}

theorem empty : Growing .empty [] := by
  have hnode : ∀ i : Nat,
      Dom.empty.node? i = if i = 0 then some ⟨.document, none, []⟩ else none := by
    intro i
    cases i <;> simp [Dom.empty, node?]
  have hchildren : ∀ i : Nat, Dom.empty.children i = [] := by
    intro i
    rw [children, hnode]
    split_ifs <;> rfl
  have hparent : ∀ i : Nat, Dom.empty.parent? i = none := by
    intro i
    rw [parent?, hnode]
    split_ifs <;> rfl
  exact {
    root := rfl
    ordered := by simp [Ordered, hchildren]
    sorted := by simp [hchildren]
    linked := by simp [hchildren]
    parents := by simp [hparent]
    spine := trivial }

theorem tail (h : Growing d (f :: frames)) : Growing d frames :=
  { h with spine := h.spine.2.2.2 }

theorem current_lt (h : Growing d frames) : current frames < d.size := by
  cases frames with
  | nil => exact lt_size_of_content? h.root
  | cons f outer =>
    obtain ⟨attributes, hf⟩ := h.spine.1
    exact lt_size_of_content? hf

theorem mem_children (h : Growing d (f :: outer)) : f.id ∈ d.children (current outer) := by
  obtain ⟨before, hbefore⟩ := h.spine.2.2.1
  simp [hbefore]

theorem current_tail_lt (h : Growing d (f :: outer)) : current outer < f.id :=
  (h.ordered _ _ h.mem_children).1

theorem id_le_current (h : Growing d frames) : ∀ f ∈ frames, f.id ≤ current frames := by
  induction frames with
  | nil => simp
  | cons f outer ih =>
    intro g hg
    rcases List.mem_cons.1 hg with rfl | hg
    · exact Nat.le_refl _
    · exact Nat.le_of_lt (Nat.lt_of_le_of_lt (ih h.tail g hg) h.current_tail_lt)

variable {c : Content}

theorem children_tail_addChild (h : Growing d (f :: outer)) {p : Nat} (hp : p < d.size)
    (hf : f.id ≤ p) : (d.addChild p c).children (current outer) = d.children (current outer) := by
  rw [children_addChild hp, if_neg]
  exact Nat.ne_of_lt (Nat.lt_of_lt_of_le h.current_tail_lt hf)

theorem spine_addChild (h : Growing d frames) {p : Nat} (hp : p < d.size)
    (hframes : ∀ f ∈ frames, f.id ≤ p) : (d.addChild p c).Spine frames := by
  induction frames with
  | nil => trivial
  | cons f outer ih =>
    obtain ⟨⟨attributes, hf⟩, hvoid, ⟨before, hbefore⟩, -⟩ := h.spine
    refine ⟨⟨attributes, ?_⟩, hvoid, ⟨before, ?_⟩, ih h.tail fun g hg => hframes g (by simp [hg])⟩
    · rw [content?_addChild hp (Nat.ne_of_lt (lt_size_of_content? hf))]
      exact hf
    · rw [h.children_tail_addChild hp (hframes f (by simp)), hbefore]

theorem addChild (h : Growing d frames) : Growing (d.addChild (current frames) c) frames := by
  have hlt := h.current_lt
  have hchildren := fun i => children_addChild (c := c) hlt i
  have hparent := fun i => parent?_addChild (c := c) hlt i
  exact {
    root := by
      rw [content?_addChild hlt (by simp only [Dom.root]; omega)]
      exact h.root
    ordered := by
      intro i k hk
      rw [hchildren] at hk
      rw [size_addChild hlt]
      split_ifs at hk with hi
      · rcases List.mem_append.1 hk with hk | hk
        · have := h.ordered _ _ hk
          omega
        · rw [List.mem_singleton] at hk
          omega
      · have := h.ordered _ _ hk
        omega
    sorted := by
      intro i
      rw [hchildren]
      split_ifs
      · rw [List.pairwise_append]
        refine ⟨h.sorted _, List.pairwise_singleton _ _, fun a ha b hb => ?_⟩
        rw [List.mem_singleton.1 hb]
        exact (h.ordered _ _ ha).2
      · exact h.sorted i
    linked := by
      intro i k hk
      rw [hchildren] at hk
      rw [hparent]
      split_ifs at hk with hi
      · rcases List.mem_append.1 hk with hk | hk
        · have := h.ordered _ _ hk
          rw [if_neg (by omega), hi]
          exact h.linked _ _ hk
        · rw [if_pos (List.mem_singleton.1 hk), hi]
      · have := h.ordered _ _ hk
        rw [if_neg (by omega)]
        exact h.linked _ _ hk
    parents := by
      intro i q hq
      rw [hparent] at hq
      rw [size_addChild hlt]
      split_ifs at hq
      · cases hq
        omega
      · have := h.parents _ _ hq
        omega
    spine := h.spine_addChild hlt h.id_le_current }

/-- A new element with content is opened. -/
theorem push (h : Growing d frames) {e : Element} (he : isVoidTag e.tag = false) :
    Growing (d.addChild (current frames) (.element e)) (⟨d.size, e.tag⟩ :: frames) := by
  have hlt := h.current_lt
  refine { h.addChild with spine := ⟨⟨e.attributes, ?_⟩, he, ⟨d.children (current frames), ?_⟩,
    h.addChild.spine⟩ }
  · rw [content?, node?_addChild hlt, if_pos rfl]
    rfl
  · rw [children_addChild hlt, if_pos rfl]


end Growing

/-! ## The marks up to the open end -/

/-- The attributes of an element. -/
def attributes (d : Dom) (i : Nat) : List Attribute :=
  ((d.element? i).map (·.attributes)).getD []

/-- The marks of the document up to the given children of the innermost open element. -/
def openedWith (d : Dom) : List Frame → List NodeId → List Mark
  | [], cs => cs.flatMap d.outerMarks
  | f :: outer, cs =>
    d.openedWith outer (d.children (current outer)).dropLast ++
      .start ⟨f.tag, d.attributes f.id⟩ :: cs.flatMap d.outerMarks

/-- The marks of the document up to the place where the next node goes. -/
def opened (d : Dom) (frames : List Frame) : List Mark :=
  d.openedWith frames (d.children (current frames))

theorem openedWith_append {d : Dom} (frames : List Frame) (as bs : List NodeId) :
    d.openedWith frames (as ++ bs) = d.openedWith frames as ++ bs.flatMap d.outerMarks := by
  cases frames <;> simp [openedWith]

namespace Growing

variable {d : Dom} {f : Frame} {frames outer : List Frame} {c : Content}

theorem outerMarks_frame (h : Growing d (f :: outer)) :
    d.outerMarks f.id =
      .start ⟨f.tag, d.attributes f.id⟩ ::
        ((d.children f.id).flatMap d.outerMarks ++ [.close f.tag]) := by
  obtain ⟨⟨as, hf⟩, hvoid, -⟩ := h.spine
  have helement : d.element? f.id = some ⟨f.tag, as⟩ := by
    rw [element?, hf]
    rfl
  cases hn : d.node? f.id with
  | none => simp [content?, hn] at hf
  | some n =>
    have hcontent : n.content = .element ⟨f.tag, as⟩ := by
      simpa [content?, hn] using hf
    rw [outerMarks_eq h.ordered hn, nodeMarks, hcontent]
    simp [hvoid, attributes, helement, children, hn]

/-- Closing an element adds its end tag. -/
theorem opened_tail (h : Growing d (f :: outer)) :
    d.opened outer = d.opened (f :: outer) ++ [.close f.tag] := by
  obtain ⟨before, hbefore⟩ := h.spine.2.2.1
  rw [opened, opened, openedWith, hbefore, List.dropLast_concat, openedWith_append,
    List.flatMap_singleton, h.outerMarks_frame]
  simp [current]

theorem marks_eq (h : Growing d frames) :
    d.marks = d.opened frames ++ frames.map fun f => .close f.tag := by
  induction frames with
  | nil => simp [marks, opened, openedWith, current]
  | cons f outer ih =>
    rw [ih h.tail, h.opened_tail]
    simp

/-- The parent of an open element is the document or an open element. -/
theorem parent_frame (h : Growing d frames) (hf : f ∈ frames) :
    ∃ p : Nat, d.parent? f.id = some p ∧ (p = Dom.root ∨ ∃ g ∈ frames, g.id = p) := by
  induction frames with
  | nil => cases hf
  | cons g outer ih =>
    rcases List.mem_cons.1 hf with rfl | hf
    · refine ⟨_, h.linked _ _ h.mem_children, ?_⟩
      cases outer with
      | nil => exact .inl rfl
      | cons g outer => exact .inr ⟨g, by simp, rfl⟩
    · obtain ⟨p, hp, hpg⟩ := ih h.tail hf
      refine ⟨p, hp, hpg.imp_right ?_⟩
      rintro ⟨g', hg', rfl⟩
      exact ⟨g', by simp [hg'], rfl⟩

theorem current_cases (frames : List Frame) :
    current frames = Dom.root ∨ ∃ f ∈ frames, f.id = current frames := by
  cases frames with
  | nil => exact .inl rfl
  | cons f outer => exact .inr ⟨f, by simp, rfl⟩

theorem nodeMarks_addChild (h : Growing d frames) {n : Node}
    (hn : ∀ p : Nat, n.parent = some p → p < d.size) (inner : List Mark) :
    (d.addChild (current frames) c).nodeMarks n inner = d.nodeMarks n inner := by
  unfold nodeMarks
  cases n.content with
  | text data =>
    have htag : n.parent.bind (d.addChild (current frames) c).tag? = n.parent.bind d.tag? := by
      cases hp : n.parent with
      | none => rfl
      | some p =>
        exact tag?_addChild h.current_lt (Nat.ne_of_lt (hn p hp))
    dsimp only
    rw [htag]
  | _ => rfl

/-- Nodes that are finished keep their marks. -/
theorem outerMarks_addChild (h : Growing d frames) {i : Nat} (hi : i < d.size)
    (hroot : i ≠ Dom.root) (hframes : ∀ f ∈ frames, f.id ≠ i) :
    (d.addChild (current frames) c).outerMarks i = d.outerMarks i := by
  have hlt := h.current_lt
  induction hk : d.size - i using Nat.strongRecOn generalizing i with
  | ind k ih =>
    have hcurrent : i ≠ current frames := by
      intro heq
      rcases current_cases frames with hc | ⟨f, hf, hc⟩
      · exact hroot (heq.trans hc)
      · exact hframes f hf (hc.trans heq.symm)
    have hnode : (d.addChild (current frames) c).node? i = d.node? i := by
      rw [node?_addChild hlt, if_neg (by omega), if_neg hcurrent]
    obtain ⟨n, hn⟩ := exists_node hi
    rw [outerMarks_eq h.addChild.ordered (hnode.trans hn), outerMarks_eq h.ordered hn,
      h.nodeMarks_addChild fun p hp => h.parents i p (by simp [parent?, hn, hp])]
    congr 1
    apply List.flatMap_congr
    intro k hk
    have hmem : k ∈ d.children i := by simpa [children, hn] using hk
    have hlt := h.ordered i k hmem
    refine ih (d.size - k) (by omega) hlt.2 ?_ ?_ rfl
    · exact Nat.ne_of_gt (Nat.lt_of_le_of_lt (Nat.zero_le _) hlt.1)
    · rintro f hf rfl
      obtain ⟨p, hp, hpf⟩ := h.parent_frame hf
      rw [h.linked _ _ hmem] at hp
      cases hp
      rcases hpf with hpf | ⟨g, hg, hgi⟩
      · exact hroot hpf
      · exact hframes g hg hgi

theorem attributes_addChild {p i : Nat} (hp : p < d.size) (hi : i < d.size) :
    (d.addChild p c).attributes i = d.attributes i := by
  rw [attributes, attributes, element?, content?_addChild hp (Nat.ne_of_lt hi)]
  rfl

theorem pairwise_id (h : Growing d frames) : frames.Pairwise fun f g => g.id < f.id := by
  induction frames with
  | nil => exact .nil
  | cons f outer ih =>
    refine List.pairwise_cons.2 ⟨fun g hg => ?_, ih h.tail⟩
    exact Nat.lt_of_le_of_lt (h.tail.id_le_current g hg) h.current_tail_lt

/-- What lies before an open element is not on the way to it. -/
theorem off_of_mem_dropLast {inner : List Frame} (h : Growing d (inner ++ f :: outer))
    (hf : Growing d (f :: outer)) {k : Nat} (hk : k ∈ (d.children (current outer)).dropLast) :
    k < d.size ∧ k ≠ Dom.root ∧ ∀ g ∈ inner ++ f :: outer, g.id ≠ k := by
  obtain ⟨before, hbefore⟩ := hf.spine.2.2.1
  have hchildren := hf.ordered (current outer) k (List.dropLast_subset _ hk)
  have hkf : k < f.id := by
    have hsorted := hf.sorted (current outer)
    rw [hbefore, List.dropLast_concat] at hk
    rw [hbefore, List.pairwise_append] at hsorted
    exact hsorted.2.2 k hk f.id (by simp)
  refine ⟨hchildren.2, Nat.ne_of_gt (Nat.lt_of_le_of_lt (Nat.zero_le _) hchildren.1), ?_⟩
  intro g hg
  rcases List.mem_append.1 hg with hg | hg
  · have := (List.pairwise_append.1 h.pairwise_id).2.2 g hg f (by simp)
    exact Nat.ne_of_gt (Nat.lt_trans hkf this)
  · rcases List.mem_cons.1 hg with rfl | hg
    · exact Nat.ne_of_gt hkf
    · have := hf.tail.id_le_current g hg
      exact Nat.ne_of_lt (Nat.lt_of_le_of_lt this hchildren.1)

theorem openedWith_addChild {inner : List Frame} (h : Growing d (inner ++ frames))
    (hframes : Growing d frames) {cs : List NodeId}
    (hcs : ∀ k ∈ cs, k < d.size ∧ k ≠ Dom.root ∧ ∀ g ∈ inner ++ frames, g.id ≠ k) :
    (d.addChild (current (inner ++ frames)) c).openedWith frames cs = d.openedWith frames cs := by
  have hmarks : cs.flatMap (d.addChild (current (inner ++ frames)) c).outerMarks =
      cs.flatMap d.outerMarks := by
    apply List.flatMap_congr
    intro k hk
    obtain ⟨hlt, hroot, hoff⟩ := hcs k hk
    exact h.outerMarks_addChild hlt hroot hoff
  induction frames generalizing inner cs with
  | nil => exact hmarks
  | cons f outer ih =>
    have hf : f.id ≤ current (inner ++ f :: outer) := h.id_le_current f (by simp)
    have hsize := h.current_lt
    rw [openedWith, openedWith, hmarks, hframes.children_tail_addChild hsize hf,
      attributes_addChild hsize (Nat.lt_of_le_of_lt hf hsize)]
    have happend : inner ++ f :: outer = (inner ++ [f]) ++ outer := by simp
    have hoff := fun k hk => h.off_of_mem_dropLast hframes (k := k) hk
    rw [happend] at h hoff ⊢
    rw [ih h hframes.tail hoff]
    apply List.flatMap_congr
    intro k hk
    obtain ⟨hlt, hroot, hoff⟩ := hoff k hk
    exact h.outerMarks_addChild hlt hroot hoff

/-- A new node adds its marks at the open end. -/
theorem opened_addChild (h : Growing d frames) :
    (d.addChild (current frames) c).opened frames =
      d.opened frames ++ d.nodeMarks ⟨c, some (current frames), []⟩ [] := by
  have hsize := h.current_lt
  have hcs : ∀ k ∈ d.children (current frames),
      k < d.size ∧ k ≠ Dom.root ∧ ∀ g ∈ [] ++ frames, g.id ≠ k := by
    intro k hk
    have hlt := h.ordered _ _ hk
    refine ⟨hlt.2, Nat.ne_of_gt (Nat.lt_of_le_of_lt (Nat.zero_le _) hlt.1), fun g hg => ?_⟩
    exact Nat.ne_of_lt (Nat.lt_of_le_of_lt (h.id_le_current g hg) hlt.1)
  have hnode : (d.addChild (current frames) c).node? d.size =
      some ⟨c, some (current frames), []⟩ := by
    rw [node?_addChild hsize, if_pos rfl]
  rw [opened, opened, children_addChild hsize, if_pos rfl, openedWith_append]
  have hold := openedWith_addChild (c := c) h h hcs
  rw [List.nil_append] at hold
  rw [hold, List.flatMap_singleton, outerMarks_eq h.addChild.ordered hnode, h.nodeMarks_addChild]
  · rfl
  · rintro p hp
    cases hp
    exact hsize

/-- An element with content that is opened adds its start tag. -/
theorem opened_push (h : Growing d frames) {e : Element} (he : isVoidTag e.tag = false) :
    (d.addChild (current frames) (.element e)).opened (⟨d.size, e.tag⟩ :: frames) =
      d.opened frames ++ [.start e] := by
  have hadd := h.opened_addChild (c := .element e)
  rw [(h.push he).opened_tail] at hadd
  simp only [nodeMarks, he, Bool.false_eq_true, if_false, List.nil_append] at hadd
  apply (List.append_left_inj [Mark.close e.tag]).1
  rw [hadd]
  simp

theorem tag?_current (h : Growing d frames) :
    d.tag? (current frames) = (frames.map (·.tag)).head? := by
  cases frames with
  | nil =>
    show d.tag? Dom.root = none
    rw [tag?, element?, h.root]
    rfl
  | cons f outer =>
    obtain ⟨as, hf⟩ := h.spine.1
    show d.tag? f.id = some f.tag
    rw [tag?, element?, hf]
    rfl

end Growing

end Restyle.Dom
