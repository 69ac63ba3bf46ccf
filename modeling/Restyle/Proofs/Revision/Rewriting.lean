import Restyle.Proofs.Revision.StyleTexts

/-!
# Trees with elements taken out and style texts replaced

`Dom.Rewrites` relates a tidy tree to what is left of it when some elements are taken off their
parents and some `style` elements get new texts. It is kept by each step of a pass
(`Rewrites.detach`, `Rewrites.setText`), and it determines the new tree: the links between elements
(`Rewrites.parent?_eq`), the elements of the document (`Rewrites.elements_eq`), the texts of the
`style` elements (`Rewrites.textContent_eq`) and the marks (`Rewrites.marks_eq`).
-/

namespace Restyle.Dom

variable {d d' d'' : Dom} {gone : List NodeId} {texts : NodeId → Option String}

/-! ## Elements that hold one text -/

/-- Whether a text is all that is in a node. No node stands for an empty text. -/
def HoldsText (d : Dom) (id : NodeId) (text : String) : Prop :=
  text = "" ∧ d.children id = [] ∨
    ∃ c, d.children id = [c] ∧ d.content? c = some (.text text) ∧ d.children c = []

theorem text?_of_tag? {id : NodeId} {tag : String} (htag : d.tag? id = some tag) :
    d.text? id = none := by
  rw [tag?, element?, Option.map_eq_some_iff] at htag
  obtain ⟨e, he, -⟩ := htag
  obtain ⟨x, hx, he⟩ := Option.bind_eq_some_iff.1 he
  rw [text?, hx, Option.bind_some]
  cases x <;> first | rfl | cases he

theorem HoldsText.congr {id : NodeId} {text : String} (h : d.HoldsText id text)
    (hchildren : d'.children id = d.children id)
    (hcontent : ∀ c ∈ d.children id, d'.content? c = d.content? c)
    (hleaves : ∀ c ∈ d.children id, d.children c = [] → d'.children c = []) :
    d'.HoldsText id text := by
  rcases h with ⟨hempty, hnil⟩ | ⟨c, hone, hc, hleaf⟩
  · exact .inl ⟨hempty, hchildren.trans hnil⟩
  · have hmem : c ∈ d.children id := by simp [hone]
    exact .inr ⟨c, hchildren.trans hone, (hcontent c hmem).trans hc, hleaves c hmem hleaf⟩

theorem HoldsText.textContent (hd : d.WellFormed) {id : NodeId} {tag : String}
    (htag : d.tag? id = some tag) {text : String} (h : d.HoldsText id text) :
    d.textContent id = text := by
  rw [Dom.textContent, text?_of_tag? htag, hd.descendants_eq]
  rcases h with ⟨rfl, hnil⟩ | ⟨c, hone, hcontent, hleaf⟩
  · rw [hnil]
    rfl
  · have htext : d.text? c = some text := by rw [text?, hcontent]; rfl
    rw [hone, List.flatMap_singleton, hd.descendants_eq, hleaf]
    simp [htext]

theorem outerMarks_eq_nil {i : NodeId} (h : d.content? i = none) : d.outerMarks i = [] := by
  refine marksTo_eq_of_size_le (Array.getElem?_eq_none_iff.1 ?_) d.size
  rwa [content?, Option.map_eq_none_iff] at h

/-- Nodes with the same content in the same element have the same marks if what is in them has. -/
theorem outerMarks_congr (hd : d.Ordered) (hd' : d'.Ordered) {i : NodeId}
    (hcontent : d.content? i = d'.content? i)
    (hparent : (d.parent? i).bind d.tag? = (d'.parent? i).bind d'.tag?)
    (hinner : (d.children i).flatMap d.outerMarks = (d'.children i).flatMap d'.outerMarks) :
    d.outerMarks i = d'.outerMarks i := by
  cases hx : d.content? i with
  | none => rw [outerMarks_eq_nil hx, outerMarks_eq_nil (hcontent.symm.trans hx)]
  | some x =>
    obtain ⟨n, hn, hnx⟩ := Option.map_eq_some_iff.1 hx
    obtain ⟨n', hn', hnx'⟩ := Option.map_eq_some_iff.1 (hcontent.symm.trans hx)
    simp only [parent?, children, hn, hn', Option.bind_some, Option.map_some,
      Option.getD_some] at hparent hinner
    rw [outerMarks_eq hd hn, outerMarks_eq hd' hn', hinner]
    simp only [nodeMarks, hnx, hnx', hparent]

/-- The marks of a text are its characters. -/
theorem HoldsText.flatMap_outerMarks (hd : d.WellFormed) (hord : d.Ordered) {id : NodeId}
    {text : String} (h : d.HoldsText id text) :
    (d.children id).flatMap d.outerMarks = text.toList.map (.text (d.tag? id)) := by
  rcases h with ⟨rfl, hnil⟩ | ⟨c, hone, hcontent, -⟩
  · rw [hnil]
    rfl
  · obtain ⟨n, hn, hnx⟩ := Option.map_eq_some_iff.1 hcontent
    have hparent : d.parent? c = some id := (hd.mem_children_iff id c).1 (by simp [hone])
    rw [parent?, hn, Option.bind_some] at hparent
    rw [hone, List.flatMap_singleton, outerMarks_eq hord hn, nodeMarks, hnx, hparent,
      Option.bind_some]

/-- The text of a `style` element is all that is in it. -/
theorem Tidy.holdsText (h : d.Tidy) {id : NodeId} (htag : d.tag? id = some "style") :
    d.HoldsText id (d.textContent id) := by
  obtain ⟨data, -, htext, -, -, hdata, hempty⟩ := h.exists_text htag rfl
  rw [htext]
  cases hchildren : d.children id with
  | nil => exact .inl ⟨hempty hchildren, hchildren⟩
  | cons c cs =>
    have hlength := h.single id "style" htag rfl
    rw [hchildren, List.length_cons] at hlength
    obtain rfl : cs = [] := List.eq_nil_of_length_eq_zero (by omega)
    have hc : c ∈ d.children id := by simp [hchildren]
    refine .inr ⟨c, hchildren, hdata c hc, h.children_eq_nil hc fun tag htag => ?_⟩
    rw [tag?_of_content? (hdata c hc)] at htag
    cases htag

/-- What has children is the document or an element. -/
theorem Tidy.parent_cases (h : d.Tidy) {p c : NodeId} (hc : c ∈ d.children p) :
    p = root ∨ d.isElement p := by
  obtain ⟨n, -, -, -, -, hfits⟩ := h.exists_content hc
  refine hfits.holder.imp_right fun ⟨tag, htag, _⟩ => ?_
  rw [tag?, Option.map_eq_some_iff] at htag
  obtain ⟨e, he, -⟩ := htag
  rw [isElement, he]
  rfl

theorem HoldsText.not_isElement {id c : NodeId} {text : String} (h : d.HoldsText id text)
    (hc : c ∈ d.children id) : d.isElement c = false := by
  rcases h with ⟨-, hnil⟩ | ⟨k, hone, hcontent, -⟩
  · rw [hnil] at hc
    cases hc
  · rw [hone, List.mem_singleton] at hc
    rw [hc, isElement, element?, hcontent]
    rfl

theorem WellFormed.not_isElement_root (h : d.WellFormed) : d.isElement Dom.root = false := by
  rw [isElement, element?, h.root]
  rfl

theorem WellFormed.mem_elements_iff (h : d.WellFormed) {id : NodeId} :
    id ∈ d.elements ↔ d.isConnected id ∧ d.isElement id := by
  rw [elements, List.mem_filter, h.mem_descendants_iff, h.isConnected_iff, atOrAbove_iff]
  refine and_congr_left fun hid => (or_iff_right ?_).symm
  rintro rfl
  rw [h.not_isElement_root] at hid
  cases hid

theorem Tidy.not_above_root (h : d.Tidy) {i : NodeId} : ¬ d.Above i root := by
  intro habove
  obtain ⟨p, hp, -⟩ := above_iff.1 habove
  exact h.root_notMem_children p ((h.wellFormed.mem_children_iff _ _).2 hp)

theorem HoldsText.not_isElement_of_mem_preorderTo {id c i : NodeId} {text : String}
    (h : d.HoldsText id text) (hc : c ∈ d.children id) {depth : Nat}
    (hi : i ∈ d.preorderTo depth c) : d.isElement i = false := by
  have hnot := h.not_isElement hc
  rcases h with ⟨-, hnil⟩ | ⟨k, hone, -, hleaf⟩
  · rw [hnil] at hc
    cases hc
  · obtain rfl : c = k := by rwa [hone, List.mem_singleton] at hc
    obtain rfl : i = c := by cases depth <;> simpa [preorderTo, hleaf] using hi
    exact hnot

theorem flatMap_filter_eq {α β : Type} {keep : α → Bool} {f g : α → List β} {xs : List α}
    (hkeep : ∀ x ∈ xs, keep x → f x = g x) (hdrop : ∀ x ∈ xs, keep x = false → g x = []) :
    (xs.filter keep).flatMap f = xs.flatMap g := by
  induction xs with
  | nil => rfl
  | cons x xs ih =>
    rw [List.forall_mem_cons] at hkeep hdrop
    have ih := ih hkeep.2 hdrop.2
    rw [List.filter_cons, List.flatMap_cons, ← ih]
    cases hx : keep x with
    | true => rw [if_pos rfl, List.flatMap_cons, hkeep.1 hx]
    | false => simp [hdrop.1 hx]

theorem Tidy.distinct_attributes (h : d.Tidy) {id : NodeId} (hid : id ∈ d.elements) {e : Element}
    (he : d.content? id = some (.element e)) : Attribute.Distinct e.attributes := by
  have hmem := List.mem_of_mem_filter hid
  obtain ⟨p, hp, -⟩ := above_iff.1 (h.wellFormed.mem_descendants_iff.1 hmem)
  exact (h.fits p id _ ((h.wellFormed.mem_children_iff p id).2 hp) he).legible.2.2

/-! ## What is taken out -/

/-- Whether a node is one of some nodes or lies below one of them. -/
def isWithin (d : Dom) (ids : List NodeId) (id : NodeId) : Bool :=
  ids.any fun g => g == id || d.isDescendantOf id g

theorem WellFormed.isWithin_iff (hd : d.WellFormed) {ids : List NodeId} {id : NodeId} :
    d.isWithin ids id ↔ ∃ g ∈ ids, d.AtOrAbove g id := by
  simp only [isWithin, List.any_eq_true, Bool.or_eq_true, beq_iff_eq, isDescendantOf,
    List.contains_iff_mem, hd.mem_ancestors_iff, atOrAbove_iff]

theorem lt_size_of_isElement {i : NodeId} (hi : d.isElement i) : i < d.size := by
  obtain ⟨e, he⟩ := Option.isSome_iff_exists.1 hi
  obtain ⟨x, hx, -⟩ := Option.bind_eq_some_iff.1 he
  exact lt_size_of_content? hx

/-! ## The relation -/

/-- Whether a tree is left of another one when the elements `gone` are taken off their parents and
the `style` elements with a text in `texts` get that text. -/
structure Rewrites (d : Dom) (gone : List NodeId) (texts : NodeId → Option String) (d' : Dom) :
    Prop where
  /-- The new tree is one. -/
  wellFormed : d'.WellFormed
  /-- No node is lost. -/
  size_le : d.size ≤ d'.size
  /-- The old nodes stand for what they stood for. -/
  content : ∀ i < d.size, d'.content? i = d.content? i
  /-- No new node is an element. -/
  fresh : ∀ i, d.size ≤ i → d'.element? i = none
  /-- What is taken off is an element with a parent. -/
  removed : ∀ g ∈ gone, d.isElement g ∧ (d.parent? g).isSome
  /-- Nothing is taken off twice. -/
  nodup : gone.Nodup
  /-- A node without a new text keeps the children that are not taken off. -/
  children : ∀ i, texts i = none → d'.children i = (d.children i).filter (· ∉ gone)
  /-- A new text is all that is in a `style` element, and its node is new. -/
  text : ∀ i text, texts i = some text →
    d.tag? i = some "style" ∧ d'.HoldsText i text ∧ ∀ c ∈ d'.children i, d.size ≤ c

namespace Rewrites

theorem refl (hd : d.WellFormed) : d.Rewrites [] (fun _ => none) d where
  wellFormed := hd
  size_le := Nat.le_refl _
  content _ _ := rfl
  fresh i hi := by
    rw [element?, content?, node?_eq_none hi]
    rfl
  removed _ hg := by cases hg
  nodup := List.nodup_nil
  children i _ := by simp
  text _ _ h := by cases h

/-! ### Contents -/

section

variable (h : d.Rewrites gone texts d')

include h

theorem element?_eq (i : NodeId) : d'.element? i = d.element? i := by
  rcases Nat.lt_or_ge i d.size with hi | hi
  · rw [element?, h.content i hi]
    rfl
  · rw [h.fresh i hi, element?, content?, node?_eq_none hi]
    rfl

theorem isElement_eq (i : NodeId) : d'.isElement i = d.isElement i := by
  rw [isElement, h.element?_eq, isElement]

theorem tag?_eq (i : NodeId) : d'.tag? i = d.tag? i := by
  rw [tag?, h.element?_eq, tag?]

theorem attributeValue?_eq (i : NodeId) (name : String) :
    d'.attributeValue? i name = d.attributeValue? i name := by
  rw [attributeValue?, h.element?_eq, attributeValue?]

theorem isStyleElement_eq (i : NodeId) : d'.isStyleElement i = d.isStyleElement i := by
  rw [isStyleElement, h.tag?_eq, h.attributeValue?_eq, isStyleElement]

end

/-! ### Links between elements -/

section

variable (h : d.Rewrites gone texts d')

include h

/-- The old nodes in a node are those that were there, that are not taken off and whose place is not
taken by a text. -/
theorem old_mem_children_iff {p c : NodeId} (hc : c < d.size) :
    c ∈ d'.children p ↔ texts p = none ∧ c ∈ d.children p ∧ c ∉ gone := by
  cases hp : texts p with
  | none =>
    rw [h.children p hp, List.mem_filter]
    simp
  | some text =>
    have hnot : c ∉ d'.children p := fun hmem =>
      Nat.not_le_of_lt hc ((h.text p text hp).2.2 c hmem)
    simp [hnot]

variable (hd : d.Tidy)

include hd

/-- The elements in a node are those that were there and are not taken off. -/
theorem mem_children_iff {p c : NodeId} (hc : d.isElement c) :
    c ∈ d'.children p ↔ c ∈ d.children p ∧ c ∉ gone := by
  rw [h.old_mem_children_iff (lt_size_of_isElement hc), and_iff_right_of_imp]
  rintro ⟨hmem, -⟩
  refine Option.eq_none_iff_forall_ne_some.2 fun text hp => ?_
  have hnot := (hd.holdsText (h.text p text hp).1).not_isElement hmem
  rw [hc] at hnot
  cases hnot

/-- Elements keep their children that are elements and are not taken off, in order. -/
theorem filter_children_eq (i : NodeId) :
    (d'.children i).filter d'.isElement =
      (d.children i).filter fun c => d.isElement c && !gone.contains c := by
  cases htext : texts i with
  | none =>
    rw [h.children i htext, List.filter_filter]
    refine List.filter_congr fun c _ => ?_
    rw [h.isElement_eq, List.contains_eq_mem, decide_not]
  | some text =>
    obtain ⟨htag, hholds, -⟩ := h.text i text htext
    rw [List.filter_eq_nil_iff.2 fun c hc => ?_, List.filter_eq_nil_iff.2 fun c hc => ?_]
    · simp [(hd.holdsText htag).not_isElement hc]
    · simp [hholds.not_isElement hc]

/-- Elements keep their parents unless they are taken off. -/
theorem parent?_eq {i : NodeId} (hi : d.isElement i) :
    d'.parent? i = if i ∈ gone then none else d.parent? i := by
  refine Option.ext fun p => ?_
  rw [← h.wellFormed.mem_children_iff, h.mem_children_iff hd hi, hd.wellFormed.mem_children_iff]
  split_ifs with hgone <;> simp [hgone]

theorem isParent_iff {p i : NodeId} (hi : d.isElement i) :
    d'.IsParent p i ↔ d.IsParent p i ∧ i ∉ gone := by
  rw [IsParent, ← h.wellFormed.mem_children_iff, h.mem_children_iff hd hi,
    hd.wellFormed.mem_children_iff, IsParent]

theorem root_notMem_children (p : NodeId) : root ∉ d'.children p := by
  intro hmem
  cases hp : texts p with
  | none =>
    rw [h.children p hp] at hmem
    exact hd.root_notMem_children p (List.mem_of_mem_filter hmem)
  | some text =>
    have hlt := hd.wellFormed.size_pos
    have hle := (h.text p text hp).2.2 root hmem
    simp only [root] at hle
    omega

theorem not_atOrAbove_root {g : NodeId} (hg : g ∈ gone) : ¬ d.AtOrAbove g root := by
  intro habove
  rcases atOrAbove_iff.1 habove with rfl | habove
  · have hroot := hd.wellFormed.not_isElement_root
    rw [(h.removed _ hg).1] at hroot
    cases hroot
  · exact hd.not_above_root habove

/-! ### The elements of the document -/

/-- An element is still connected unless it is taken out or lies below one that is. -/
theorem isConnected_iff {i : NodeId} (hi : d.isElement i) :
    d'.isConnected i ↔ d.isConnected i ∧ d.isWithin gone i = false := by
  rw [h.wellFormed.isConnected_iff, hd.wellFormed.isConnected_iff, Bool.eq_false_iff, ne_eq,
    hd.wellFormed.isWithin_iff]
  constructor
  · intro hpath
    -- Each link of the path is an old one, and its lower end is not taken off.
    suffices hall : ∀ j, d'.AtOrAbove root j → (j = root ∨ d.isElement j) →
        d.AtOrAbove root j ∧ ∀ g ∈ gone, ¬ d.AtOrAbove g j by
      obtain ⟨hold, hnone⟩ := hall i hpath (.inr hi)
      exact ⟨hold, fun ⟨g, hg, hgi⟩ => hnone g hg hgi⟩
    intro j hj hcase
    induction hj with
    | refl => exact ⟨.refl, fun g hg => h.not_atOrAbove_root hd hg⟩
    | @tail p c _ hlink ih =>
      have hc : d.isElement c := by
        refine hcase.resolve_left ?_
        rintro rfl
        exact h.root_notMem_children hd p ((h.wellFormed.mem_children_iff _ _).2 hlink)
      obtain ⟨hparent, hkept⟩ := (h.isParent_iff hd hc).1 hlink
      obtain ⟨hold, hnone⟩ :=
        ih (hd.parent_cases ((hd.wellFormed.mem_children_iff _ _).2 hparent))
      refine ⟨hold.tail hparent, fun g hg habove => ?_⟩
      rcases atOrAbove_iff.1 habove with rfl | habove
      · exact hkept hg
      · obtain ⟨q, hq, hgq⟩ := above_iff.1 habove
        obtain rfl : q = p := Option.some.inj (hq.symm.trans hparent)
        exact hnone g hg hgq
  · rintro ⟨hpath, hnone⟩
    induction hpath with
    | refl => exact .refl
    | @tail p c _ hlink ih =>
      have hlink' := (h.isParent_iff hd hi).2 ⟨hlink, fun hgone => hnone ⟨c, hgone, .refl⟩⟩
      rcases hd.parent_cases ((hd.wellFormed.mem_children_iff _ _).2 hlink) with rfl | hp
      · exact .single hlink'
      · exact (ih hp fun ⟨g, hg, hgp⟩ => hnone ⟨g, hg, hgp.tail hlink⟩).tail hlink'

/-- Below a node that stays, the elements are those that were there, without those taken out and
those below them. -/
theorem filter_preorderTo (depth : Nat) {id : NodeId} (hid : d.isWithin gone id = false) :
    (d'.preorderTo depth id).filter d'.isElement =
      (d.preorderTo depth id).filter fun i => d.isElement i && !d.isWithin gone i := by
  induction depth generalizing id with
  | zero => simp [preorderTo, h.isElement_eq, List.filter_cons, hid]
  | succ depth ih =>
    have hbelow : (d'.children id).flatMap (fun c => (d'.preorderTo depth c).filter d'.isElement) =
        (d.children id).flatMap fun c =>
          (d.preorderTo depth c).filter fun i => d.isElement i && !d.isWithin gone i := by
      cases htext : texts id with
      | none =>
        rw [h.children id htext]
        refine flatMap_filter_eq (fun c hc hkeep => ih ?_) fun c hc hdrop => ?_
        · rw [Bool.eq_false_iff, ne_eq, hd.wellFormed.isWithin_iff]
          rintro ⟨g, hg, hgc⟩
          rcases atOrAbove_iff.1 hgc with rfl | habove
          · simp [hg] at hkeep
          · obtain ⟨q, hq, hgq⟩ := above_iff.1 habove
            obtain rfl : q = id :=
              Option.some.inj (hq.symm.trans ((hd.wellFormed.mem_children_iff _ _).1 hc))
            rw [hd.wellFormed.isWithin_iff.2 ⟨g, hg, hgq⟩] at hid
            cases hid
        · have hwithin : ∀ i ∈ d.preorderTo depth c, d.isWithin gone i := fun i hi =>
            hd.wellFormed.isWithin_iff.2
              ⟨c, by simpa using hdrop, hd.wellFormed.atOrAbove_of_mem_preorderTo hi⟩
          refine List.filter_eq_nil_iff.2 fun i hi => ?_
          simp [hwithin i hi]
      | some text =>
        -- A `style` element holds a text before and after, which is no element.
        obtain ⟨htag, hholds, -⟩ := h.text id text htext
        rw [List.flatMap_eq_nil_iff.2, List.flatMap_eq_nil_iff.2]
        · intro c hc
          refine List.filter_eq_nil_iff.2 fun i hi => ?_
          simp [(hd.holdsText htag).not_isElement_of_mem_preorderTo hc hi]
        · intro c hc
          refine List.filter_eq_nil_iff.2 fun i hi => ?_
          simp [hholds.not_isElement_of_mem_preorderTo hc hi]
    rw [preorderTo, preorderTo, List.filter_cons, List.filter_cons, h.isElement_eq, hid,
      List.filter_flatMap, List.filter_flatMap, hbelow, Bool.not_false, Bool.and_true]

/-- The elements of the document are those that were, without those taken out and those below
them. -/
theorem elements_eq : d'.elements = d.elements.filter fun id => !d.isWithin gone id := by
  have hroot : d.isWithin gone root = false := by
    rw [Bool.eq_false_iff, ne_eq, hd.wellFormed.isWithin_iff]
    rintro ⟨g, hg, habove⟩
    exact h.not_atOrAbove_root hd hg habove
  have hpreorder := h.filter_preorderTo hd d'.size hroot
  have hsize := h.size_le
  have hd' := h.wellFormed
  rw [hd.wellFormed.preorderTo_congr (n := d.size) (by omega) (by omega), ← preorder, ← preorder,
    hd'.preorder_eq_cons_descendants, hd.wellFormed.preorder_eq_cons_descendants,
    List.filter_cons, List.filter_cons, h.isElement_eq,
    hd.wellFormed.not_isElement_root] at hpreorder
  rw [elements, elements, List.filter_filter]
  simpa [Bool.and_comm] using hpreorder

/-- The elements of the document are those that were and that are still connected. -/
theorem elements_eq_filter_isConnected : d'.elements = d.elements.filter d'.isConnected := by
  rw [h.elements_eq hd]
  refine List.filter_congr fun id hid => ?_
  obtain ⟨hconnected, helement⟩ := hd.wellFormed.mem_elements_iff.1 hid
  rw [Bool.eq_iff_iff, h.isConnected_iff hd helement, Bool.not_eq_true']
  exact (and_iff_right hconnected).symm

theorem styleElements_eq : d'.styleElements = d.styleElements.filter d'.isConnected := by
  rw [styleElements, h.elements_eq_filter_isConnected hd, styleElements, List.filter_filter,
    List.filter_filter]
  refine List.filter_congr fun id _ => ?_
  rw [h.isStyleElement_eq, Bool.and_comm]

/-- What a `style` element holds is the new text, if it has one. -/
theorem holdsText {id : NodeId} (htag : d.tag? id = some "style") :
    d'.HoldsText id ((texts id).getD (d.textContent id)) := by
  cases htext : texts id with
  | some text => exact (h.text id text htext).2.1
  | none =>
    have hchildren := h.children id htext
    rcases hd.holdsText htag with ⟨hempty, hnil⟩ | ⟨c, hone, hcontent, hleaf⟩
    · exact .inl ⟨hempty, by rw [hchildren, hnil]; rfl⟩
    · have hnot : d.tag? c = none := by rw [tag?_of_content? hcontent]; rfl
      have hkept : c ∉ gone := by
        intro hc
        have helement := (h.removed c hc).1
        rw [isElement, element?, hcontent] at helement
        cases helement
      have hnone : texts c = none := by
        refine Option.eq_none_iff_forall_ne_some.2 fun text hc => ?_
        rw [(h.text c text hc).1] at hnot
        cases hnot
      refine .inr ⟨c, ?_, (h.content c (lt_size_of_content? hcontent)).trans hcontent, ?_⟩
      · rw [hchildren, hone]
        simp [hkept]
      · rw [h.children c hnone, hleaf]
        rfl

theorem textContent_eq {id : NodeId} (htag : d.tag? id = some "style") :
    d'.textContent id = (texts id).getD (d.textContent id) :=
  (h.holdsText hd htag).textContent h.wellFormed ((h.tag?_eq id).trans htag)

/-! ### Steps -/

/-- An element that has a parent can be taken off it. -/
theorem detach {id p : NodeId} (hid : d.isElement id) (hp : d'.parent? id = some p) :
    d.Rewrites (id :: gone) texts (d'.detach id) := by
  have hmem : id ∈ d'.children p := (h.wellFormed.mem_children_iff p id).2 hp
  obtain ⟨hmem₀, hnew⟩ := (h.mem_children_iff hd hid).1 hmem
  have hparent := (hd.wellFormed.mem_children_iff p id).1 hmem₀
  have hdetach : d'.detach id = d'.removeChild p id := by rw [Dom.detach, hp]
  have hcontent : ∀ i, (d'.detach id).content? i = d'.content? i := by
    intro i
    rw [hdetach, content?_removeChild]
  have hchildren : ∀ i, (d'.detach id).children i =
      if i = p then (d'.children p).erase id else d'.children i := by
    intro i
    rw [hdetach, children_removeChild]
  have hsize : (d'.detach id).size = d'.size := by rw [hdetach, size_removeChild]
  exact {
    wellFormed := h.wellFormed.detach id
    size_le := hsize ▸ h.size_le
    content := fun i hi => (hcontent i).trans (h.content i hi)
    fresh := fun i hi => by
      rw [element?, hcontent]
      exact h.fresh i hi
    removed := List.forall_mem_cons.2 ⟨⟨hid, by rw [hparent]; rfl⟩, h.removed⟩
    nodup := List.nodup_cons.2 ⟨hnew, h.nodup⟩
    children := by
      intro i hi
      rw [hchildren]
      split_ifs with hip
      · subst hip
        rw [(h.wellFormed.nodup_children i).erase_eq_filter, h.children i hi, List.filter_filter]
        refine List.filter_congr fun c _ => ?_
        rw [Bool.eq_iff_iff]
        simp
      · rw [h.children i hi]
        refine List.filter_congr fun c hc => ?_
        have hne : c ≠ id := by
          rintro rfl
          exact hip (Option.some.inj
            (((hd.wellFormed.mem_children_iff i c).1 hc).symm.trans hparent))
        simp [hne]
    text := by
      intro i text hi
      obtain ⟨htag, hholds, hfresh⟩ := h.text i text hi
      have hip : i ≠ p := by
        rintro rfl
        have hnot := hholds.not_isElement hmem
        rw [h.isElement_eq, hid] at hnot
        cases hnot
      have hsame : (d'.detach id).children i = d'.children i := by rw [hchildren, if_neg hip]
      refine ⟨htag, hholds.congr hsame (fun c _ => hcontent c) fun c _ hleaf => ?_, hsame ▸ hfresh⟩
      rw [hchildren]
      split_ifs with hcp
      · rw [← hcp, hleaf]
        rfl
      · exact hleaf }

end

section

variable (h : d.Rewrites gone texts d')

include h

/-- A `style` element can be emptied. -/
theorem clear {id : NodeId} (htag : d.tag? id = some "style") :
    d.Rewrites gone (Function.update texts id (some ""))
      ((d'.children id).foldl (fun d c => d.removeChild id c) d') := by
  have hchildren := children_foldl_removeChild (d := d') (p := id) rfl
  have hcontent := content?_foldl_removeChild d' id (d'.children id)
  have hsize := size_foldl_removeChild d' id (d'.children id)
  have hwf := (Trims.foldl_removeChild h.wellFormed id (d'.children id)).wellFormed
  generalize (d'.children id).foldl (fun d c => d.removeChild id c) d' = bare at *
  exact {
    wellFormed := hwf
    size_le := hsize ▸ h.size_le
    content := fun i hi => (hcontent i).trans (h.content i hi)
    fresh := fun i hi => by
      rw [element?, hcontent]
      exact h.fresh i hi
    removed := h.removed
    nodup := h.nodup
    children := by
      intro i hi
      rw [Function.update_apply] at hi
      split_ifs at hi with hid
      rw [hchildren, if_neg hid, h.children i hi]
    text := by
      intro i text hi
      rw [Function.update_apply] at hi
      split_ifs at hi with hid
      · cases hi
        have hnil : bare.children i = [] := by rw [hchildren, if_pos hid]
        exact ⟨hid ▸ htag, .inl ⟨rfl, hnil⟩, by simp [hnil]⟩
      · obtain ⟨htag', hholds, hfresh⟩ := h.text i text hi
        have hsame : bare.children i = d'.children i := by rw [hchildren, if_neg hid]
        refine ⟨htag', hholds.congr hsame (fun c _ => hcontent c) fun c _ hleaf => ?_,
          hsame ▸ hfresh⟩
        rw [hchildren]
        split_ifs
        · rfl
        · exact hleaf }

/-- A text can be put into an empty `style` element. -/
theorem addText {id : NodeId} (htag : d.tag? id = some "style") (hnil : d'.children id = [])
    (text : String) :
    d.Rewrites gone (Function.update texts id (some text)) (d'.addChild id (.text text)) := by
  have hid : id < d.size := lt_size_of_tag? htag
  have hid' : id < d'.size := Nat.lt_of_lt_of_le hid h.size_le
  have hchildren := children_addChild (c := .text text) hid'
  have hleaf : d'.children d'.size = [] := children_eq_nil_of_size_le (Nat.le_refl _)
  have hnew : (d'.addChild id (.text text)).content? d'.size = some (.text text) := by
    rw [content?, node?_addChild hid', if_pos rfl]
    rfl
  exact {
    wellFormed := h.wellFormed.addChild hid' _
    size_le := by
      rw [size_addChild hid']
      exact Nat.le_succ_of_le h.size_le
    content := fun i hi => by
      rw [content?_addChild hid' (Nat.ne_of_lt (Nat.lt_of_lt_of_le hi h.size_le))]
      exact h.content i hi
    fresh := by
      intro i hi
      by_cases hlast : i = d'.size
      · rw [element?, hlast, hnew]
        rfl
      · rw [element?, content?_addChild hid' hlast]
        exact h.fresh i hi
    removed := h.removed
    nodup := h.nodup
    children := by
      intro i hi
      rw [Function.update_apply] at hi
      split_ifs at hi with hne
      rw [hchildren, if_neg hne, h.children i hi]
    text := by
      intro i new hi
      rw [Function.update_apply] at hi
      split_ifs at hi with hne
      · cases hi
        have hone : (d'.addChild id (.text text)).children i = [d'.size] := by
          rw [hchildren, if_pos hne, hnil]
          rfl
        refine ⟨hne ▸ htag, .inr ⟨_, hone, hnew, ?_⟩, by simpa [hone] using h.size_le⟩
        rw [hchildren, if_neg (Nat.ne_of_gt hid'), hleaf]
      · obtain ⟨htag', hholds, hfresh⟩ := h.text i new hi
        have hsame : (d'.addChild id (.text text)).children i = d'.children i := by
          rw [hchildren, if_neg hne]
        refine ⟨htag', hholds.congr hsame (fun c hc => ?_) (fun c hc hleaf => ?_), hsame ▸ hfresh⟩
        · exact content?_addChild hid' (Nat.ne_of_lt (h.wellFormed.child_lt i c hc))
        · rw [hchildren, if_neg (Nat.ne_of_gt (Nat.lt_of_lt_of_le hid (hfresh c hc))), hleaf] }

/-- The text of a `style` element can be replaced. -/
theorem setText {id : NodeId} (htag : d.tag? id = some "style") (text : String) :
    d.Rewrites gone (Function.update texts id (some text)) (d'.setText id text) := by
  have hbare := h.clear htag
  have hnil := children_foldl_removeChild (d := d') (p := id) rfl id
  rw [if_pos rfl] at hnil
  unfold Dom.setText
  dsimp only
  split_ifs with hempty
  · rw [String.isEmpty_iff.1 hempty]
    exact hbare
  · have hadd := hbare.addText htag hnil text
    rwa [Function.update_idem] at hadd

end

/-! ### New texts only -/

/-- New texts leave the elements of the document. -/
theorem elements_nil (h : d.Rewrites [] texts d') (hd : d.Tidy) : d'.elements = d.elements := by
  rw [h.elements_eq hd]
  exact List.filter_eq_self.2 fun _ _ => rfl

/-- Without a new text a node keeps what is in it. -/
theorem children_nil (h : d.Rewrites [] texts d') {id : NodeId} (hid : texts id = none) :
    d'.children id = d.children id := by
  rw [h.children id hid]
  exact List.filter_eq_self.2 (by simp)

theorem isConnected_nil (h : d.Rewrites [] texts d') (hd : d.Tidy) {id : NodeId}
    (hid : id ∈ d.elements) : d'.isConnected id := by
  rw [← h.elements_nil hd] at hid
  exact (h.wellFormed.mem_elements_iff.1 hid).1

/-! ### Marks -/

theorem ordered (h : d.Rewrites gone texts d') (hd : d.Tidy) : d'.Ordered := by
  intro i c hc
  refine ⟨?_, h.wellFormed.child_lt i c hc⟩
  cases htext : texts i with
  | none =>
    rw [h.children i htext] at hc
    exact (hd.ordered i c (List.mem_of_mem_filter hc)).1
  | some text =>
    obtain ⟨htag, -, hfresh⟩ := h.text i text htext
    exact Nat.lt_of_lt_of_le (lt_size_of_tag? htag) (hfresh c hc)

/-- The tree is determined by what is taken out of it and by the new texts, up to the numbers of new
nodes. -/
theorem marks_eq (h : d.Rewrites gone texts d') (h' : d.Rewrites gone texts d'') (hd : d.Tidy) :
    d'.marks = d''.marks := by
  suffices hall : ∀ i < d.size,
      (d'.children i).flatMap d'.outerMarks = (d''.children i).flatMap d''.outerMarks from
    hall root hd.wellFormed.size_pos
  intro i hi
  induction hm : d.size - i using Nat.strongRecOn generalizing i with
  | ind m ih =>
    cases htext : texts i with
    | some text =>
      rw [(h.text i text htext).2.1.flatMap_outerMarks h.wellFormed (h.ordered hd),
        (h'.text i text htext).2.1.flatMap_outerMarks h'.wellFormed (h'.ordered hd), h.tag?_eq,
        h'.tag?_eq]
    | none =>
      rw [h.children i htext, h'.children i htext]
      refine List.flatMap_congr fun c hc => ?_
      obtain ⟨hic, hc⟩ := hd.ordered i c (List.mem_of_mem_filter hc)
      refine outerMarks_congr (h.ordered hd) (h'.ordered hd)
        ((h.content c hc).trans (h'.content c hc).symm) ?_ (ih (d.size - c) (by omega) c hc rfl)
      have hparent : d'.parent? c = d''.parent? c := by
        refine Option.ext fun p => ?_
        rw [← h.wellFormed.mem_children_iff, h.old_mem_children_iff hc,
          ← h'.wellFormed.mem_children_iff, h'.old_mem_children_iff hc]
      rw [hparent]
      exact congrArg _ (funext fun p => (h.tag?_eq p).trans (h'.tag?_eq p).symm)

theorem markup_eq (h : d.Rewrites gone texts d') (h' : d.Rewrites gone texts d'') (hd : d.Tidy) :
    d'.markup = d''.markup := by
  rw [← String.toList_inj, toList_markup, toList_markup, h.marks_eq h' hd]

end Rewrites

end Restyle.Dom
