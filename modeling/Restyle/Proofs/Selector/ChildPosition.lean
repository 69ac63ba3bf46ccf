import Mathlib.Logic.ExistsUnique
import Restyle.Proofs.Dom.Walks
import Restyle.Proofs.Selector.Matching

/-!
# Selectors of a place among the children

The children of a node that are elements are those before an element, the element and those after
it, whatever texts and comments lie between (`childElements_eq`). So `:first-child` and its like
choose by the place in that list, and each of them chooses one child (`selects_place`). The elements
after a node can as well be found by going on from sibling to sibling (`passes_iff`).
-/

namespace Restyle

namespace Dom

/-- What is met on the way from sibling to sibling until there is no further one. -/
inductive Passes (d : Dom) : Option NodeId → List NodeId → Prop
  | done : Passes d none []
  | visit (id : NodeId) {out : List NodeId} (rest : Passes d (d.nextSibling? id) out) :
      Passes d (some id) (id :: out)

/-- The children of a node that are elements, in order. -/
def childElements (d : Dom) (p : NodeId) : List NodeId :=
  (d.children p).filter d.isElement

/-- The elements among the children of a node with the given tag, up to the case of letters. -/
def childrenOfType (d : Dom) (p : NodeId) (tag : String) : List NodeId :=
  (d.childElements p).filter fun id => (d.tag? id).map Text.lower == some (Text.lower tag)

variable {d : Dom} {id p : Nat}

theorem mem_childElements_iff : id ∈ d.childElements p ↔ id ∈ d.children p ∧ d.isElement id := by
  rw [childElements, List.mem_filter]

theorem mem_childrenOfType_iff {tag : String} :
    id ∈ d.childrenOfType p tag ↔ id ∈ d.children p ∧
      ∃ e, d.element? id = some e ∧ Text.lower e.tag = Text.lower tag := by
  rw [childrenOfType, List.mem_filter, mem_childElements_iff, isElement, tag?]
  cases d.element? id <;> simp

namespace WellFormed

variable (hd : d.WellFormed)

include hd

theorem nodup_childElements (p : NodeId) : (d.childElements p).Nodup :=
  (hd.nodup_children p).filter _

/-- The way from the first of some last children meets all of them. -/
theorem passes_head?_iff {before after out : List NodeId} (h : d.children p = before ++ after) :
    d.Passes after.head? out ↔ out = after := by
  induction after generalizing before out with
  | nil =>
    rw [List.head?_nil]
    constructor
    · rintro ⟨⟩
      rfl
    · rintro rfl
      exact .done
  | cons a after ih =>
    have hnext : d.nextSibling? a = after.head? := by
      rw [nextSibling?, followingSiblings, hd.siblings_eq h]
    have hrest (out : List NodeId) : d.Passes after.head? out ↔ out = after :=
      ih (show d.children p = before ++ [a] ++ after by simp [h])
    rw [List.head?_cons]
    constructor
    · rintro ⟨⟩
      rename_i out hout
      rw [hnext, hrest] at hout
      rw [hout]
    · rintro rfl
      exact .visit a (by rw [hnext, hrest])

/-- The way from sibling to sibling ends, and it meets the siblings after a node. -/
theorem passes_iff {out : List NodeId} :
    d.Passes (d.nextSibling? id) out ↔ out = d.followingSiblings id := by
  cases hp : d.parent? id with
  | none =>
    rw [nextSibling?, followingSiblings, siblings_of_parent?_eq_none hp]
    exact hd.passes_head?_iff (show d.children id = d.children id ++ [] by simp)
  | some p =>
    obtain ⟨before, after, hsplit⟩ := List.append_of_mem ((hd.mem_children_iff p id).2 hp)
    rw [nextSibling?, followingSiblings, hd.siblings_eq hsplit]
    exact hd.passes_head?_iff (show d.children p = before ++ [id] ++ after by simp [hsplit])

end WellFormed

end Dom

namespace Selector

open Dom

/-- Whether a node matches a selector text. -/
def Selects (d : Dom) (text : String) (id : NodeId) : Prop :=
  ∃ cs, parse text = .ok cs ∧ ∃ c ∈ cs, c.holds d id

variable {d : Dom} {id p : Nat} {e : Element}

/-! ## The place of an element among the children -/

/-- What can stand at one place of a list, before it and after it. -/
theorem head?_middle_iff {front back : List NodeId} (h : (front ++ id :: back).Nodup) :
    (front ++ id :: back).head? = some id ↔ front = [] := by
  cases front with
  | nil => simp
  | cons a front =>
    have hne : a ≠ id := by
      rintro rfl
      simp at h
    simp [hne]

theorem getLast?_middle_iff {front back : List NodeId} (h : (front ++ id :: back).Nodup) :
    (front ++ id :: back).getLast? = some id ↔ back = [] := by
  rw [← List.head?_reverse, List.reverse_append, List.reverse_cons, List.append_assoc,
    List.singleton_append, head?_middle_iff, List.reverse_eq_nil_iff]
  simpa using List.nodup_reverse.2 h

theorem eq_singleton_middle_iff {front back : List NodeId} :
    front ++ id :: back = [id] ↔ front = [] ∧ back = [] := by
  cases front <;> simp

section

variable (hd : d.WellFormed) (hp : d.parent? id = some p) (he : d.element? id = some e)

include hd hp he

/-- The children that are elements are those before an element, the element, and those after it. -/
theorem childElements_eq :
    d.childElements p = (precedingElements d id).reverse ++ id :: followingElements d id := by
  obtain ⟨before, after, hsplit⟩ := List.append_of_mem ((hd.mem_children_iff p id).2 hp)
  have helement : d.isElement id = true := by rw [isElement, he, Option.isSome_some]
  rw [precedingElements, followingElements, precedingSiblings, followingSiblings,
    hd.siblings_eq hsplit, ← List.filter_reverse, List.reverse_reverse, childElements, hsplit,
    List.filter_append, List.filter_cons_of_pos helement]

theorem childrenOfType_eq :
    d.childrenOfType p e.tag = ((precedingElements d id).filter (hasTag d e.tag)).reverse ++
      id :: (followingElements d id).filter (hasTag d e.tag) := by
  have htag : (fun i => (d.tag? i).map Text.lower == some (Text.lower e.tag)) =
      hasTag d e.tag := by
    funext i
    rw [hasTag]
    cases d.tag? i with
    | none => rfl
    | some tag => simp [Text.sameLetters, BEq.comm]
  have hself : hasTag d e.tag id = true := by
    simp [hasTag, tag?, he, Text.sameLetters]
  rw [childrenOfType, childElements_eq hd hp he, htag, List.filter_append,
    List.filter_cons_of_pos hself, List.filter_reverse]

/-- What a condition on the place of an element says of the list of its parent's children. -/
theorem holds_place :
    (PseudoClass.firstChild.holds d id e ↔ (d.childElements p).head? = some id) ∧
      (PseudoClass.lastChild.holds d id e ↔ (d.childElements p).getLast? = some id) ∧
      (PseudoClass.onlyChild.holds d id e ↔ d.childElements p = [id]) ∧
      (PseudoClass.firstOfType.holds d id e ↔ (d.childrenOfType p e.tag).head? = some id) ∧
      (PseudoClass.lastOfType.holds d id e ↔ (d.childrenOfType p e.tag).getLast? = some id) := by
  have hnodup := hd.nodup_childElements p
  have hnodupType : (d.childrenOfType p e.tag).Nodup := hnodup.filter _
  rw [childrenOfType_eq hd hp he] at hnodupType ⊢
  rw [childElements_eq hd hp he] at hnodup ⊢
  rw [head?_middle_iff hnodup, getLast?_middle_iff hnodup, eq_singleton_middle_iff,
    head?_middle_iff hnodupType, getLast?_middle_iff hnodupType]
  simp [PseudoClass.holds, List.filter_eq_nil_iff]

end

/-! ## What a selector text chooses -/

theorem selects_iff {text : String} {q : PseudoClass}
    (hparse : parse text = .ok [⟨[.pseudo q], []⟩]) :
    Selects d text id ↔ ∃ e, d.element? id = some e ∧ q.holds d id e := by
  simp [Selects, hparse, Complex.holds, Compound.holds, chainHolds, allHold, Simple.holds,
    Option.any_eq_true]

/-- A condition that holds at one place of a list only chooses one node. -/
theorem existsUnique_selects {text : String} {q : PseudoClass} {ids : List NodeId}
    {place : Option NodeId} (hparse : parse text = .ok [⟨[.pseudo q], []⟩])
    (hholds : ∀ y e, y ∈ ids → d.element? y = some e → (q.holds d y e ↔ place = some y))
    (hplace : ∃ y e, y ∈ ids ∧ d.element? y = some e ∧ place = some y) :
    ∃! y, y ∈ ids ∧ Selects d text y := by
  obtain ⟨y, e, hy, he, rfl⟩ := hplace
  refine ⟨y, ⟨hy, (selects_iff hparse).2 ⟨e, he, (hholds y e hy he).2 rfl⟩⟩, ?_⟩
  rintro z ⟨hz, hselects⟩
  obtain ⟨e', he', hq⟩ := (selects_iff hparse).1 hselects
  exact (Option.some.inj ((hholds z e' hz he').1 hq)).symm

theorem childrenOfType_congr {tag tag' : String} (h : Text.lower tag = Text.lower tag') :
    d.childrenOfType p tag = d.childrenOfType p tag' := by
  rw [childrenOfType, childrenOfType, h]

theorem parse_place :
    parse ":first-child" = .ok [⟨[.pseudo .firstChild], []⟩] ∧
      parse ":last-child" = .ok [⟨[.pseudo .lastChild], []⟩] ∧
      parse ":only-child" = .ok [⟨[.pseudo .onlyChild], []⟩] ∧
      parse ":first-of-type" = .ok [⟨[.pseudo .firstOfType], []⟩] ∧
      parse ":last-of-type" = .ok [⟨[.pseudo .lastOfType], []⟩] := by
  refine ⟨?_, ?_, ?_, ?_, ?_⟩ <;> with_unfolding_all rfl

section

variable (hd : d.WellFormed)

include hd

theorem selects_iff_place (hp : d.parent? id = some p) (he : d.element? id = some e) :
    (Selects d ":first-child" id ↔ (d.childElements p).head? = some id) ∧
      (Selects d ":last-child" id ↔ (d.childElements p).getLast? = some id) ∧
      (Selects d ":only-child" id ↔ d.childElements p = [id]) ∧
      (Selects d ":first-of-type" id ↔ (d.childrenOfType p e.tag).head? = some id) ∧
      (Selects d ":last-of-type" id ↔ (d.childrenOfType p e.tag).getLast? = some id) := by
  have hself {text : String} {q : PseudoClass} (hparse : parse text = .ok [⟨[.pseudo q], []⟩]) :
      Selects d text id ↔ q.holds d id e := by
    rw [selects_iff hparse, he]
    simp
  obtain ⟨hfirst, hlast, honly, hfirstType, hlastType⟩ := parse_place
  rw [hself hfirst, hself hlast, hself honly, hself hfirstType, hself hlastType]
  exact holds_place hd hp he

theorem existsUnique_child (h : d.childElements p ≠ []) :
    (∃! id, id ∈ d.children p ∧ Selects d ":first-child" id) ∧
      ∃! id, id ∈ d.children p ∧ Selects d ":last-child" id := by
  have hplace {y : NodeId} {e : Element} (hy : y ∈ d.children p) (he : d.element? y = some e) :=
    holds_place hd ((hd.mem_children_iff p y).1 hy) he
  have hmem {y : NodeId} (hy : y ∈ d.childElements p) :
      ∃ e, y ∈ d.children p ∧ d.element? y = some e := by
    obtain ⟨hy, helement⟩ := mem_childElements_iff.1 hy
    obtain ⟨e, he⟩ := Option.isSome_iff_exists.1 helement
    exact ⟨e, hy, he⟩
  constructor
  · obtain ⟨e, hy, he⟩ := hmem (List.head_mem h)
    exact existsUnique_selects parse_place.1 (fun y e hy he => (hplace hy he).1)
      ⟨_, e, hy, he, List.head?_eq_some_head h⟩
  · obtain ⟨e, hy, he⟩ := hmem (List.getLast_mem h)
    exact existsUnique_selects parse_place.2.1 (fun y e hy he => (hplace hy he).2.1)
      ⟨_, e, hy, he, List.getLast?_eq_some_getLast h⟩

theorem existsUnique_ofType {tag : String} (h : d.childrenOfType p tag ≠ []) :
    (∃! id, id ∈ d.childrenOfType p tag ∧ Selects d ":first-of-type" id) ∧
      ∃! id, id ∈ d.childrenOfType p tag ∧ Selects d ":last-of-type" id := by
  have hplace {y : NodeId} {e : Element} (hy : y ∈ d.childrenOfType p tag)
      (he : d.element? y = some e) :
      (PseudoClass.firstOfType.holds d y e ↔ (d.childrenOfType p tag).head? = some y) ∧
        (PseudoClass.lastOfType.holds d y e ↔ (d.childrenOfType p tag).getLast? = some y) := by
    obtain ⟨hy, e', he', htag⟩ := mem_childrenOfType_iff.1 hy
    obtain rfl : e = e' := Option.some.inj (he.symm.trans he')
    rw [← childrenOfType_congr htag]
    exact (holds_place hd ((hd.mem_children_iff p y).1 hy) he).2.2.2
  have hmem {y : NodeId} (hy : y ∈ d.childrenOfType p tag) : ∃ e, d.element? y = some e := by
    obtain ⟨-, e, he, -⟩ := mem_childrenOfType_iff.1 hy
    exact ⟨e, he⟩
  constructor
  · obtain ⟨e, he⟩ := hmem (List.head_mem h)
    exact existsUnique_selects parse_place.2.2.2.1 (fun y e hy he => (hplace hy he).1)
      ⟨_, e, List.head_mem h, he, List.head?_eq_some_head h⟩
  · obtain ⟨e, he⟩ := hmem (List.getLast_mem h)
    exact existsUnique_selects parse_place.2.2.2.2 (fun y e hy he => (hplace hy he).2)
      ⟨_, e, List.getLast_mem h, he, List.getLast?_eq_some_getLast h⟩

/-- A selector of a place chooses an element by its place among the children of its parent that are
elements, or among those of them with its tag. So each selector of a first or last place chooses one
child, where there is one to choose. The siblings after a node that it reads are met by going on
from one to the next. -/
theorem selects_place (p : NodeId) :
    (∀ id e, d.parent? id = some p → d.element? id = some e →
      (Selects d ":first-child" id ↔ (d.childElements p).head? = some id) ∧
      (Selects d ":last-child" id ↔ (d.childElements p).getLast? = some id) ∧
      (Selects d ":only-child" id ↔ d.childElements p = [id]) ∧
      (Selects d ":first-of-type" id ↔ (d.childrenOfType p e.tag).head? = some id) ∧
      (Selects d ":last-of-type" id ↔ (d.childrenOfType p e.tag).getLast? = some id)) ∧
    (d.childElements p ≠ [] →
      (∃! id, id ∈ d.children p ∧ Selects d ":first-child" id) ∧
        ∃! id, id ∈ d.children p ∧ Selects d ":last-child" id) ∧
    (∀ tag, d.childrenOfType p tag ≠ [] →
      (∃! id, id ∈ d.childrenOfType p tag ∧ Selects d ":first-of-type" id) ∧
        ∃! id, id ∈ d.childrenOfType p tag ∧ Selects d ":last-of-type" id) ∧
    ∀ id out, d.Passes (d.nextSibling? id) out ↔ out = d.followingSiblings id :=
  ⟨fun _ _ => selects_iff_place hd, existsUnique_child hd, fun _ => existsUnique_ofType hd,
    fun _ _ => hd.passes_iff⟩

end

/-- Texts and comments stand before, between and after the elements, and `b` and `B` are of one
type. -/
theorem selects_place_between_texts :
    let d := ((((((Dom.empty.addChild 0 (.element ⟨"i", []⟩)).addChild 1 (.text "x")).addChild 1
      (.element ⟨"b", []⟩)).addChild 1 (.comment "c")).addChild 1 (.element ⟨"p", []⟩)).addChild 1
      (.element ⟨"B", []⟩)).addChild 1 (.text "y")
    d.WellFormed ∧ d.childElements 1 = [3, 5, 6] ∧ d.childrenOfType 1 "b" = [3, 6] ∧
      Selects d ":first-child" 3 ∧ Selects d ":last-child" 6 ∧ ¬ Selects d ":only-child" 5 ∧
      Selects d ":first-of-type" 5 ∧ ¬ Selects d ":first-of-type" 6 ∧
      (∃! id, id ∈ d.childrenOfType 1 "b" ∧ Selects d ":last-of-type" id) ∧
      d.Passes (d.nextSibling? 3) [4, 5, 6, 7] := by
  intro d
  have hd : d.WellFormed :=
    ((((((Dom.WellFormed.empty.addChild (by decide) _).addChild (by decide) _).addChild
      (by decide) _).addChild (by decide) _).addChild (by decide) _).addChild
      (by decide) _).addChild (by decide) _
  obtain ⟨hchild, -, htype, hpasses⟩ := selects_place hd 1
  have hb := hchild 3 ⟨"b", []⟩ (by decide) (by decide)
  have hp := hchild 5 ⟨"p", []⟩ (by decide) (by decide)
  have hB := hchild 6 ⟨"B", []⟩ (by decide) (by decide)
  exact ⟨hd, by decide, by decide, hb.1.2 (by decide), hB.2.1.2 (by decide),
    fun h => absurd (hp.2.2.1.1 h) (by decide), hp.2.2.2.1.2 (by decide),
    fun h => absurd (hB.2.2.2.1.1 h) (by decide), (htype "b" (by decide)).2,
    (hpasses 3 _).2 (by decide)⟩

end Selector

end Restyle
