import Restyle.Proofs.Revision.Rewriting
import Restyle.Proofs.Selector.Emptiness

/-!
# Trees that differ in the texts of style elements

Two trees that are left of one tree when only `style` elements get new texts have the same elements
in the same places (`Rewrites.sameElements`). They differ in which `style` elements hold nothing but
white space (`Rewrites.vacates`) and in their markup: texts that are shorter make it shorter
(`Rewrites.textContent_eq_of_markup_eq`).
-/

namespace Restyle.Dom

open Selector

variable {d d' d'' : Dom} {texts texts' : NodeId → Option String}

/-! ## The same elements -/

namespace Rewrites

section

variable (h : d.Rewrites [] texts d') (hd : d.Tidy)

include h hd

theorem filter_children_nil (i : NodeId) :
    (d'.children i).filter d'.isElement = (d.children i).filter d.isElement := by
  rw [h.filter_children_eq hd]
  exact List.filter_congr fun c _ => by simp

theorem parent?_nil {i : NodeId} (hi : d.isElement i) : d'.parent? i = d.parent? i := by
  rw [h.parent?_eq hd hi, if_neg List.not_mem_nil]

/-- What lies at or above an element or the document still does. -/
theorem atOrAbove_iff {a b : NodeId} (hb : b = root ∨ d.isElement b) :
    d'.AtOrAbove a b ↔ d.AtOrAbove a b := by
  constructor <;> intro hpath
  · induction hpath with
    | refl => exact .refl
    | @tail p c _ hlink ih =>
      have hc : d.isElement c := by
        refine hb.resolve_left ?_
        rintro rfl
        exact h.root_notMem_children hd p ((h.wellFormed.mem_children_iff _ _).2 hlink)
      have hold := ((h.isParent_iff hd hc).1 hlink).1
      exact (ih (hd.parent_cases ((hd.wellFormed.mem_children_iff _ _).2 hold))).tail hold
  · induction hpath with
    | refl => exact .refl
    | @tail p c _ hlink ih =>
      have hmem := (hd.wellFormed.mem_children_iff _ _).2 hlink
      have hc : d.isElement c := by
        refine hb.resolve_left ?_
        rintro rfl
        exact hd.root_notMem_children p hmem
      exact (ih (hd.parent_cases hmem)).tail ((h.isParent_iff hd hc).2 ⟨hlink, List.not_mem_nil⟩)

theorem mem_ancestors_iff {a b : NodeId} (hb : d.isElement b) :
    a ∈ d'.ancestors b ↔ a ∈ d.ancestors b := by
  rw [h.wellFormed.mem_ancestors_iff, hd.wellFormed.mem_ancestors_iff, above_iff, above_iff,
    h.parent?_nil hd hb]
  refine exists_congr fun p => and_congr_right fun hp => h.atOrAbove_iff hd ?_
  exact hd.parent_cases ((hd.wellFormed.mem_children_iff p b).2 hp)

/-- The elements before and after an element are the same. -/
theorem siblingElements_eq {i : NodeId} (hi : d.isElement i) :
    precedingElements d' i = precedingElements d i ∧
      followingElements d' i = followingElements d i := by
  rw [precedingElements, precedingElements, followingElements, followingElements,
    precedingSiblings, precedingSiblings, followingSiblings, followingSiblings]
  cases hp : d.parent? i with
  | none =>
    rw [siblings_of_parent?_eq_none hp,
      siblings_of_parent?_eq_none ((h.parent?_nil hd hi).trans hp)]
    exact ⟨rfl, rfl⟩
  | some p =>
    have hp' := (h.parent?_nil hd hi).trans hp
    obtain ⟨before, after, hsplit⟩ :=
      List.append_of_mem ((hd.wellFormed.mem_children_iff _ _).2 hp)
    obtain ⟨before', after', hsplit'⟩ :=
      List.append_of_mem ((h.wellFormed.mem_children_iff _ _).2 hp')
    have hnodup' := h.wellFormed.nodup_children p
    rw [hsplit', List.nodup_middle, List.nodup_cons, List.mem_append, not_or] at hnodup'
    have hfilter := h.filter_children_nil hd p
    rw [hsplit, hsplit', List.filter_append, List.filter_append,
      List.filter_cons_of_pos (h.isElement_eq i ▸ hi), List.filter_cons_of_pos hi] at hfilter
    obtain ⟨hbefore, -, hafter⟩ := (List.append_cons_inj_of_notMem
      (fun hmem => hnodup'.1.1 (List.mem_of_mem_filter hmem))
      (fun hmem => hnodup'.1.2 (List.mem_of_mem_filter hmem))).1 hfilter
    rw [hd.wellFormed.siblings_eq hsplit, h.wellFormed.siblings_eq hsplit', List.filter_reverse,
      List.filter_reverse, hbefore, hafter]
    exact ⟨rfl, rfl⟩

/-- New texts leave all elements in their places. -/
theorem sameElements : SameElements d d' where
  element := h.element?_eq
  elements := h.elements_nil hd
  documentElement := by
    rw [documentElement?, documentElement?, ← List.head?_filter, ← List.head?_filter,
      h.filter_children_nil hd]
  parent _ hid := h.parent?_nil hd hid
  ancestors _ hid _ := h.mem_ancestors_iff hd hid
  preceding _ hid := (h.siblingElements_eq hd hid).1
  following _ hid := (h.siblingElements_eq hd hid).2

end

end Rewrites

/-! ## White space -/

theorem HoldsText.isVacant_eq {id : NodeId} {text : String} (h : d.HoldsText id text) :
    isVacant d id = text.toList.all Text.isSpace := by
  rcases h with ⟨rfl, hnil⟩ | ⟨c, hone, hcontent, -⟩
  · rw [isVacant, hnil]
    rfl
  · rw [isVacant, hone, List.all_cons, List.all_nil, Bool.and_true, isNegligible, hcontent]

namespace Rewrites

/-- Only `style` elements get texts. -/
theorem children_eq (h : d.Rewrites [] texts d') {id : NodeId} (htag : d.tag? id ≠ some "style") :
    d'.children id = d.children id := by
  refine h.children_nil (Option.eq_none_iff_forall_ne_some.2 fun text heq => ?_)
  exact htag (h.text id text heq).1

theorem isVacant_eq (h : d.Rewrites [] texts d') (hd : d.WellFormed) {id : NodeId}
    (htag : d.tag? id ≠ some "style") : isVacant d' id = isVacant d id := by
  rw [isVacant, isVacant, h.children_eq htag, Bool.eq_iff_iff, List.all_eq_true, List.all_eq_true]
  refine forall₂_congr fun c hc => ?_
  rw [isNegligible, h.content c (hd.child_lt id c hc), isNegligible]

theorem isVacant_style_eq (h : d.Rewrites [] texts d') (hd : d.Tidy) {id : NodeId}
    (htag : d.tag? id = some "style") :
    isVacant d' id = (d'.textContent id).toList.all Text.isSpace := by
  rw [(h.holdsText hd htag).isVacant_eq, h.textContent_eq hd htag]

/-- Where blank texts stay blank, elements that are empty stay empty. -/
theorem vacates (h : d.Rewrites [] texts d') (h' : d.Rewrites [] texts' d'') (hd : d.Tidy)
    (hblank : ∀ id, d.tag? id = some "style" → (d'.textContent id).toList.all Text.isSpace →
      (d''.textContent id).toList.all Text.isSpace) : Vacates d' d'' := by
  intro id _ hvacant
  by_cases htag : d.tag? id = some "style"
  · rw [h.isVacant_style_eq hd htag] at hvacant
    rw [h'.isVacant_style_eq hd htag]
    exact hblank id htag hvacant
  · rwa [h'.isVacant_eq hd.wellFormed htag, ← h.isVacant_eq hd.wellFormed htag]

end Rewrites

/-! ## The length of the markup -/

theorem length_flatMap_le {α β : Type} {f g : α → List β} {xs : List α}
    (h : ∀ x ∈ xs, (f x).length ≤ (g x).length) :
    (xs.flatMap f).length ≤ (xs.flatMap g).length ∧
      ((xs.flatMap f).length = (xs.flatMap g).length →
        ∀ x ∈ xs, (f x).length = (g x).length) := by
  induction xs with
  | nil => simp
  | cons x xs ih =>
    rw [List.forall_mem_cons] at h
    obtain ⟨hle, heq⟩ := ih h.2
    have hx := h.1
    rw [List.flatMap_cons, List.flatMap_cons, List.length_append, List.length_append,
      List.forall_mem_cons]
    exact ⟨by omega, fun hsum => ⟨by omega, heq (by omega)⟩⟩

/-- The markup of what is in a node. -/
def inside (d : Dom) (id : NodeId) : List Char :=
  ((d.children id).flatMap d.outerMarks).flatMap Mark.markup

/-- The markup of a node with what is in it. -/
def outside (d : Dom) (id : NodeId) : List Char :=
  (d.outerMarks id).flatMap Mark.markup

theorem inside_eq (id : NodeId) : d.inside id = (d.children id).flatMap d.outside :=
  List.flatMap_assoc

theorem toList_markup_eq : d.markup.toList = d.inside root :=
  toList_markup

theorem HoldsText.inside_eq (hd : d.WellFormed) (hord : d.Ordered) {id : NodeId} {text : String}
    (htag : d.tag? id = some "style") (h : d.HoldsText id text) : d.inside id = text.toList := by
  rw [inside, h.flatMap_outerMarks hd hord, htag, List.flatMap_map]
  simp only [Mark.markup]
  exact List.flatMap_singleton' text.toList

/-- Nodes with the same content in the same element are written alike around what is in them, or it
is not written at all. -/
theorem outside_cases (hd : d.Ordered) (hd' : d'.Ordered) {c : NodeId} {x : Content}
    (hx : d.content? c = some x) (hx' : d'.content? c = some x)
    (hparent : (d.parent? c).bind d.tag? = (d'.parent? c).bind d'.tag?) :
    (∃ front back, d.outside c = front ++ d.inside c ++ back ∧
        d'.outside c = front ++ d'.inside c ++ back) ∨
      d.outside c = d'.outside c ∧ ∀ tag, d.tag? c = some tag → isVoidTag tag := by
  have htag := tag?_of_content? hx
  obtain ⟨n, hn, rfl⟩ := Option.map_eq_some_iff.1 hx
  obtain ⟨n', hn', hcontent⟩ := Option.map_eq_some_iff.1 hx'
  simp only [parent?, hn, hn', Option.bind_some] at hparent
  simp only [outside, inside, children, outerMarks_eq hd hn, outerMarks_eq hd' hn', hn, hn',
    Option.map_some, Option.getD_some, nodeMarks, hcontent, hparent]
  cases hkind : n.content with
  | document => exact .inl ⟨[], [], by simp, by simp⟩
  | doctype _ | comment _ | text _ => exact .inr ⟨rfl, by simp [htag, hkind, Content.element?]⟩
  | element e =>
    dsimp only
    split_ifs with hvoid
    · exact .inr ⟨rfl, by simpa [htag, hkind, Content.element?] using hvoid⟩
    · exact .inl ⟨(Mark.start e).markup, (Mark.close e.tag).markup, by simp, by simp⟩

/-- No element lies below a `style` element. -/
theorem Tidy.eq_of_atOrAbove (hd : d.Tidy) {i j : NodeId} (htag : d.tag? i = some "style")
    {tag : String} (hj : d.tag? j = some tag) (habove : d.AtOrAbove i j) : i = j := by
  refine (Dom.atOrAbove_iff.1 habove).resolve_right fun habove => ?_
  obtain ⟨c, hc, hcj⟩ := above_iff_child.1 habove
  have hnot := (hd.holdsText htag).not_isElement_of_mem_preorderTo
    ((hd.wellFormed.mem_children_iff _ _).2 hc) (hd.wellFormed.mem_preorder_iff.2 hcj)
  obtain ⟨e, he, -⟩ := Option.map_eq_some_iff.1 hj
  rw [isElement, he] at hnot
  cases hnot

namespace Rewrites

theorem length_inside_style (h : d.Rewrites [] texts d') (hd : d.Tidy) {i : NodeId}
    (htag : d.tag? i = some "style") : (d'.inside i).length = (d'.textContent i).length := by
  rw [(h.holdsText hd htag).inside_eq h.wellFormed (h.ordered hd) ((h.tag?_eq i).trans htag),
    h.textContent_eq hd htag, String.length_toList]

theorem tag?_parent?_eq (h : d.Rewrites [] texts d') {p c : NodeId}
    (htag : d.tag? p ≠ some "style") (hc : c ∈ d.children p) :
    (d'.parent? c).bind d'.tag? = d.tag? p := by
  rw [← h.children_eq htag] at hc
  rw [(h.wellFormed.mem_children_iff _ _).1 hc]
  exact h.tag?_eq p

section

variable (h : d.Rewrites [] texts d') (h' : d.Rewrites [] texts' d'') (hd : d.Tidy)

include h h' hd

/-- A node that does not stand in a `style` element gets as much shorter as what is in it. -/
theorem length_outside_cases {p c : NodeId} (htag : d.tag? p ≠ some "style")
    (hc : c ∈ d.children p) :
    (d''.outside c).length + (d'.inside c).length =
        (d'.outside c).length + (d''.inside c).length ∨
      d''.outside c = d'.outside c ∧ ∀ tag, d.tag? c = some tag → isVoidTag tag := by
  have hlt := hd.wellFormed.child_lt p c hc
  obtain ⟨n, -, -, -, hcontent, -⟩ := hd.exists_content hc
  have hcases := outside_cases (h.ordered hd) (h'.ordered hd) ((h.content c hlt).trans hcontent)
    ((h'.content c hlt).trans hcontent)
    ((h.tag?_parent?_eq htag hc).trans (h'.tag?_parent?_eq htag hc).symm)
  refine hcases.imp ?_ fun ⟨hout, hvoid⟩ => ⟨hout.symm, fun tag hj => hvoid tag ?_⟩
  · rintro ⟨front, back, hout, hout'⟩
    rw [hout, hout']
    simp only [List.length_append]
    omega
  · rwa [h.tag?_eq]

/-- Shorter texts make what is in a node shorter. -/
theorem length_inside_le
    (hshorter : ∀ id, d.tag? id = some "style" →
      (d''.textContent id).length ≤ (d'.textContent id).length) {i : NodeId} (hi : i < d.size) :
    (d''.inside i).length ≤ (d'.inside i).length ∧
      ((d''.inside i).length = (d'.inside i).length → ∀ j, d.tag? j = some "style" →
        d.AtOrAbove i j → (d''.textContent j).length = (d'.textContent j).length) := by
  induction hm : d.size - i using Nat.strongRecOn generalizing i with
  | ind m ih =>
    by_cases htag : d.tag? i = some "style"
    · rw [h.length_inside_style hd htag, h'.length_inside_style hd htag]
      refine ⟨hshorter i htag, fun heq j hj habove => ?_⟩
      rwa [← hd.eq_of_atOrAbove htag hj habove]
    · have hstep : ∀ c ∈ d.children i, (d''.outside c).length ≤ (d'.outside c).length ∧
          ((d''.outside c).length = (d'.outside c).length → ∀ j, d.tag? j = some "style" →
            d.AtOrAbove c j → (d''.textContent j).length = (d'.textContent j).length) := by
        intro c hc
        obtain ⟨hic, hlt⟩ := hd.ordered i c hc
        obtain ⟨hle, heq⟩ := ih (d.size - c) (by omega) hlt rfl
        rcases h.length_outside_cases h' hd htag hc with hlength | ⟨hout, hvoid⟩
        · exact ⟨by omega, fun hsum => heq (by omega)⟩
        · refine ⟨by rw [hout], fun _ j hj habove => ?_⟩
          rcases Dom.atOrAbove_iff.1 habove with rfl | habove
          · exact absurd (hvoid _ hj) (by decide)
          · obtain ⟨k, hk, -⟩ := above_iff_child.1 habove
            have hmem := (hd.wellFormed.mem_children_iff _ _).2 hk
            rw [hd.children_eq_nil hc hvoid] at hmem
            cases hmem
      rw [inside_eq, inside_eq, h.children_eq htag, h'.children_eq htag]
      obtain ⟨hle, heq⟩ := length_flatMap_le fun c hc => (hstep c hc).1
      refine ⟨hle, fun hsum j hj habove => ?_⟩
      have hbelow := (Dom.atOrAbove_iff.1 habove).resolve_left fun hij => htag (hij ▸ hj)
      obtain ⟨c, hc, hcj⟩ := above_iff_child.1 hbelow
      have hmem := (hd.wellFormed.mem_children_iff _ _).2 hc
      exact (hstep c hmem).2 (heq hsum c hmem) j hj hcj

/-- If each text is the same or shorter, the markup is the same only if all texts are. -/
theorem textContent_eq_of_markup_eq
    (hshorter : ∀ id, d.tag? id = some "style" → d''.textContent id = d'.textContent id ∨
      (d''.textContent id).length < (d'.textContent id).length)
    (hmarkup : d''.markup = d'.markup) {id : NodeId} (hid : id ∈ d.elements)
    (htag : d.tag? id = some "style") : d''.textContent id = d'.textContent id := by
  have hle : ∀ id, d.tag? id = some "style" →
      (d''.textContent id).length ≤ (d'.textContent id).length := fun id htag =>
    (hshorter id htag).elim (fun heq => by rw [heq]) Nat.le_of_lt
  have hinside : d''.inside root = d'.inside root := by
    rw [← toList_markup_eq, ← toList_markup_eq, hmarkup]
  have habove := hd.wellFormed.isConnected_iff.1 (hd.wellFormed.mem_elements_iff.1 hid).1
  have heq := (h.length_inside_le h' hd hle hd.wellFormed.size_pos).2
    (congrArg List.length hinside) id htag habove
  exact (hshorter id htag).resolve_right (by omega)

end

end Rewrites

end Restyle.Dom
