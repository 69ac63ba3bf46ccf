import Restyle.Proofs.Dom.Removal
import Restyle.Proofs.Revision.Rewriting

/-!
# Elements that their own attribute hides

Before `PassKind.removeHidden` goes over the style sheets, it takes the elements out of the document
that their own attribute hides. It goes through them in tree order and skips those that are no
longer in the document, so it takes off the outermost ones (`foldl_removeElement`). Main
statement: what is left of the document is what lies neither at nor below one of the hidden
elements, the outermost ones are counted, and what is in them stays in them
(`prepare_removeHidden`).
-/

namespace Restyle

namespace Dom

open Revision

/-- The elements of the document that their attribute `style` hides, in tree order. -/
def hiddenElements (d : Dom) (t : HiddenTarget) : List NodeId :=
  d.elements.filter fun id => (d.attributeValue? id "style").any t.matchesInline

theorem isElement_of_attributeValue? {d : Dom} {id : NodeId} {name value : String}
    (h : d.attributeValue? id name = some value) : d.isElement id := by
  obtain ⟨e, he, -⟩ := Option.bind_eq_some_iff.1 h
  rw [isElement, he]
  rfl

variable {d : Dom} {id : NodeId}

/-- What is hidden is connected and has an attribute with the pattern in it. -/
theorem WellFormed.mem_hiddenElements_iff (hd : d.WellFormed) (t : HiddenTarget) :
    id ∈ d.hiddenElements t ↔
      d.isConnected id ∧ ∃ style, d.attributeValue? id "style" = some style ∧
        t.matchesInline style := by
  rw [hiddenElements, List.mem_filter, hd.mem_elements_iff, and_assoc, Option.any_eq_true]
  refine and_congr_right fun _ => and_iff_right_of_imp ?_
  rintro ⟨style, hstyle, -⟩
  exact isElement_of_attributeValue? hstyle

theorem hiddenElements_sublist (d : Dom) (t : HiddenTarget) :
    (d.hiddenElements t).Sublist (d.descendants Dom.root) :=
  List.filter_sublist.trans List.filter_sublist

end Dom

namespace Revision.Session

open Dom

variable {s : Session} {ids : List NodeId} {id : NodeId}

/-! ## The run over a list of elements -/

/-- Takes some nodes out of the document and counts them. -/
def removeElements (s : Session) (ids : List NodeId) : Session :=
  { s with
    dom := s.dom.detachAll ids
    report := { s.report with elementsRemoved := s.report.elementsRemoved + ids.length } }

theorem removeElements_append_singleton (s : Session) (ids : List NodeId) (id : NodeId) :
    s.removeElements (ids ++ [id]) = (s.removeElements ids).removeElement id := by
  simp only [removeElements, removeElement, detachAll_append_singleton, List.length_append,
    List.length_singleton, Nat.add_assoc]

/-- A node that comes after others in tree order is taken out unless one of them is above it. -/
theorem removeElement_outermost (hd : s.dom.WellFormed)
    (h : (ids ++ [id]).Sublist (s.dom.descendants Dom.root)) :
    (if (s.removeElements (s.dom.outermost ids)).dom.isConnected id then
        (s.removeElements (s.dom.outermost ids)).removeElement id
      else s.removeElements (s.dom.outermost ids)) =
      s.removeElements (s.dom.outermost (ids ++ [id])) := by
  have hconnected := hd.isConnected_detachAll_outermost_of_sublist h
  rw [hd.outermost_append_singleton h]
  cases hany : ids.any (s.dom.isDescendantOf id) with
  | false =>
    exact (if_pos (hconnected.2 hany)).trans (s.removeElements_append_singleton _ id).symm
  | true =>
    rw [hany] at hconnected
    rw [if_pos rfl, List.append_nil]
    exact if_neg fun hc => Bool.noConfusion (hconnected.1 hc)

/-- The elements are taken out one after the other, but those below one of them go with it. -/
theorem foldl_removeElement (hd : s.dom.WellFormed)
    (h : ids.Sublist (s.dom.descendants Dom.root)) :
    ids.foldl (fun s id => if s.dom.isConnected id then s.removeElement id else s) s =
      s.removeElements (s.dom.outermost ids) := by
  -- From the end: what was taken out before decides about the last one.
  induction ids using List.reverseRecOn with
  | nil => rfl
  | append_singleton ids id ih =>
    rw [List.foldl_append, ih ((List.sublist_append_left ids [id]).trans h)]
    exact removeElement_outermost hd h

theorem prepare_removeHidden_eq (hd : s.dom.WellFormed) (t : HiddenTarget) :
    s.prepare .removeHidden t =
      s.removeElements (s.dom.outermost (s.dom.hiddenElements t)) :=
  foldl_removeElement hd (s.dom.hiddenElements_sublist t)

/-! ## What is left -/

/-- What the removal of the elements that their own attribute hides does to a session. -/
structure HiddenTakenOut (t : HiddenTarget) (s s' : Session) : Prop where
  /-- The hidden elements are the connected nodes with the pattern in their attribute. -/
  hidden : ∀ id, id ∈ s.dom.hiddenElements t ↔ s.dom.isConnected id ∧
    ∃ style, s.dom.attributeValue? id "style" = some style ∧ t.matchesInline style
  /-- A node is still connected unless it is hidden or lies below a hidden element. -/
  connected : ∀ id, s'.dom.isConnected id ↔
    s.dom.isConnected id ∧ ∀ g ∈ s.dom.hiddenElements t, ¬ s.dom.AtOrAbove g id
  /-- The nodes that are still connected are in the old order. -/
  order : s'.dom.descendants Dom.root =
    (s.dom.descendants Dom.root).filter s'.dom.isConnected
  /-- The hidden elements with no hidden one above them are counted. -/
  report : s'.report = { s.report with
    elementsRemoved := s.report.elementsRemoved +
      (s.dom.outermost (s.dom.hiddenElements t)).length }
  /-- Those elements lose their parents, and no other node does. -/
  parent : ∀ id, s'.dom.parent? id =
    if id ∈ s.dom.outermost (s.dom.hiddenElements t) then none else s.dom.parent? id
  /-- Nodes keep their other children in order. -/
  children : ∀ id, s'.dom.children id =
    (s.dom.children id).filter (· ∉ s.dom.outermost (s.dom.hiddenElements t))
  /-- Whatever is below those elements is still there. -/
  below : ∀ o ∈ s.dom.outermost (s.dom.hiddenElements t),
    s'.dom.descendants o = s.dom.descendants o
  /-- The other hidden elements are below one of them. -/
  nested : ∀ g ∈ s.dom.hiddenElements t, g ∉ s.dom.outermost (s.dom.hiddenElements t) →
    ∃ o ∈ s.dom.outermost (s.dom.hiddenElements t), g ∈ s'.dom.descendants o
  /-- All nodes stand for what they stood for. -/
  content : ∀ id, s'.dom.content? id = s.dom.content? id
  /-- No node is made. -/
  size : s'.dom.size = s.dom.size
  /-- Nothing is logged. -/
  log : s'.log = s.log

/-- The removal of hidden elements takes out those with no hidden one above them, and with each of
them what is below it. -/
theorem prepare_removeHidden (hd : s.dom.WellFormed) (t : HiddenTarget) :
    HiddenTakenOut t s (s.prepare .removeHidden t) := by
  have hids : ∀ g ∈ s.dom.hiddenElements t, s.dom.Above Dom.root g := fun g hg =>
    hd.mem_descendants_iff.1 ((s.dom.hiddenElements_sublist t).subset hg)
  rw [prepare_removeHidden_eq hd]
  exact {
    hidden := fun _ => hd.mem_hiddenElements_iff t
    connected := fun _ => hd.isConnected_detachAll_outermost hids
    order := hd.descendants_root_detachAll _
    report := rfl
    parent := hd.parent?_detachAll _
    children := hd.children_detachAll _
    below := fun _ => hd.descendants_detachAll_outermost
    nested := by
      intro g hg hnot
      obtain ⟨o, ho, hog⟩ := hd.exists_outermost hg
      refine ⟨o, ho, ?_⟩
      have hne : o ≠ g := by
        rintro rfl
        exact hnot ho
      change g ∈ (s.dom.detachAll _).descendants o
      rw [hd.descendants_detachAll_outermost ho, hd.mem_descendants_iff,
        hd.above_iff_atOrAbove_and_ne]
      exact ⟨hog, hne⟩
    content := content?_detachAll _ _
    size := size_detachAll _ _
    log := rfl }

/-- A hidden element in a hidden one stays in it and is not counted. -/
theorem prepare_removeHidden_nested :
    let x : Content := .element ⟨"p", [⟨"style", "display: none"⟩]⟩
    let d := ((Dom.empty.addChild 0 x).addChild 1 x).addChild 0 x
    let s := Session.start d .empty
    let s' := s.prepare .removeHidden .standard
    s.dom.WellFormed ∧ s.dom.hiddenElements .standard = [1, 2, 3] ∧
      s'.report.elementsRemoved = 2 ∧ ¬ s'.dom.isConnected 2 ∧ s'.dom.descendants 1 = [2] := by
  intro x d s s'
  have hempty := WellFormed.empty
  have hd : d.WellFormed :=
    ((hempty.addChild (by decide) x).addChild (by decide +kernel) x).addChild (by decide +kernel) x
  have hhidden : s.dom.hiddenElements .standard = [1, 2, 3] := by decide +kernel
  have houtermost : s.dom.outermost [1, 2, 3] = [1, 3] := by decide +kernel
  have hbelow : s.dom.descendants 1 = [2] := by decide +kernel
  -- What follows needs no more of the tree, and would unfold it.
  clear_value d
  have h : HiddenTakenOut .standard s s' := prepare_removeHidden hd .standard
  refine ⟨hd, hhidden, ?_, fun hconnected => ?_, ?_⟩
  · rw [h.report, hhidden, houtermost]
    rfl
  · exact ((h.connected 2).1 hconnected).2 2 (by simp [hhidden]) .refl
  · rw [h.below 1 (by simp [hhidden, houtermost]), hbelow]

end Revision.Session

end Restyle
