import Restyle.Revision.Pass

/-!
# Selectors and empty elements

Two documents with the same elements may differ in which of them are empty, and a selector can tell
them apart by `:empty` only. Main statement: if elements only become empty, what a selector matches
it goes on matching, unless `:empty` stands in it inside of an odd number of `:not`
(`Complex.holds_mono`, `Stylesheet.isAlive_mono`).
-/

namespace Restyle

namespace Selector

/-! ## Documents with the same elements -/

/-- Whether two documents have the same elements in the same places. -/
structure SameElements (d d' : Dom) : Prop where
  /-- All elements are what they are. -/
  element : ∀ id, d'.element? id = d.element? id
  /-- They stand in the same order. -/
  elements : d'.elements = d.elements
  /-- The document element is the same. -/
  documentElement : d'.documentElement? = d.documentElement?
  /-- Elements have the same parents. -/
  parent : ∀ id, d.isElement id → d'.parent? id = d.parent? id
  /-- Elements have the same ancestors. -/
  ancestors : ∀ id, d.isElement id → ∀ a, a ∈ d'.ancestors id ↔ a ∈ d.ancestors id
  /-- Elements have the same elements before them. -/
  preceding : ∀ id, d.isElement id → precedingElements d' id = precedingElements d id
  /-- Elements have the same elements after them. -/
  following : ∀ id, d.isElement id → followingElements d' id = followingElements d id

/-- Whether nothing but white space and comments is in a node. -/
def isVacant (d : Dom) (id : NodeId) : Bool :=
  (d.children id).all (isNegligible d)

/-- Whether the elements that are empty in one document are so in another one. -/
def Vacates (d d' : Dom) : Prop :=
  ∀ id, d.isElement id → isVacant d id → isVacant d' id

theorem isElement_of_element? {d : Dom} {id : NodeId} {e : Element} (h : d.element? id = some e) :
    d.isElement id := by
  rw [Dom.isElement, h]
  rfl

namespace SameElements

variable {d d' d'' : Dom}

theorem isElement_eq (h : SameElements d d') (id : NodeId) : d'.isElement id = d.isElement id := by
  rw [Dom.isElement, h.element, Dom.isElement]

theorem symm (h : SameElements d d') : SameElements d' d where
  element id := (h.element id).symm
  elements := h.elements.symm
  documentElement := h.documentElement.symm
  parent id hid := (h.parent id (h.isElement_eq id ▸ hid)).symm
  ancestors id hid a := (h.ancestors id (h.isElement_eq id ▸ hid) a).symm
  preceding id hid := (h.preceding id (h.isElement_eq id ▸ hid)).symm
  following id hid := (h.following id (h.isElement_eq id ▸ hid)).symm

theorem trans (h : SameElements d d') (h' : SameElements d' d'') : SameElements d d'' where
  element id := (h'.element id).trans (h.element id)
  elements := h'.elements.trans h.elements
  documentElement := h'.documentElement.trans h.documentElement
  parent id hid := (h'.parent id (h.isElement_eq id ▸ hid)).trans (h.parent id hid)
  ancestors id hid a := (h'.ancestors id (h.isElement_eq id ▸ hid) a).trans (h.ancestors id hid a)
  preceding id hid := (h'.preceding id (h.isElement_eq id ▸ hid)).trans (h.preceding id hid)
  following id hid := (h'.following id (h.isElement_eq id ▸ hid)).trans (h.following id hid)

theorem hasTag_eq (h : SameElements d d') (tag : String) : hasTag d' tag = hasTag d tag := by
  funext id
  rw [hasTag, Dom.tag?, h.element, hasTag, Dom.tag?]

/-- Only emptiness can tell the documents apart. -/
theorem pseudoHolds_eq (h : SameElements d d') {id : NodeId} {e : Element}
    (he : d.element? id = some e) {p : PseudoClass} (hp : p ≠ .empty) :
    p.holds d' id e = p.holds d id e := by
  have hid := isElement_of_element? he
  cases p with
  | empty => exact absurd rfl hp
  | root => rw [PseudoClass.holds, h.documentElement, PseudoClass.holds]
  | firstChild => rw [PseudoClass.holds, h.preceding id hid, PseudoClass.holds]
  | lastChild => rw [PseudoClass.holds, h.following id hid, PseudoClass.holds]
  | onlyChild =>
    rw [PseudoClass.holds, h.preceding id hid, h.following id hid, PseudoClass.holds]
  | firstOfType => rw [PseudoClass.holds, h.preceding id hid, h.hasTag_eq, PseudoClass.holds]
  | lastOfType => rw [PseudoClass.holds, h.following id hid, h.hasTag_eq, PseudoClass.holds]
  | link | enabled | disabled | checked => rfl

end SameElements

/-! ## Where emptiness is asked for -/

mutual

/-- Whether `:empty` stands in a condition inside of an odd number of `:not`, or of an even number
of them. -/
def Simple.asksEmpty (odd : Bool) : Simple → Bool
  | .pseudo p => !odd && p == .empty
  | .not compounds => anyAskEmpty (!odd) compounds
  | .type _ | .className _ | .id _ | .universal | .attributeTest _ => false

/-- Whether it stands so in one of some conditions. -/
def asksEmpty (odd : Bool) : List Simple → Bool
  | [] => false
  | x :: xs => Simple.asksEmpty odd x || asksEmpty odd xs

/-- Whether it stands so in one of some lists of conditions. -/
def anyAskEmpty (odd : Bool) : List (List Simple) → Bool
  | [] => false
  | c :: cs => asksEmpty odd c || anyAskEmpty odd cs

end

/-- Whether `:empty` stands in a selector inside of an odd or an even number of `:not`. -/
def Complex.asksEmpty (odd : Bool) (c : Complex) : Bool :=
  Selector.asksEmpty odd c.subject || anyAskEmpty odd (c.chain.map Prod.snd)

/-- Whether a selector text can be evaluated and asks for elements that are not empty: `:empty`
stands in it inside of an odd number of `:not`. -/
def deniesEmpty (selector : String) : Bool :=
  match parse selector with
  | .ok cs => cs.any (Complex.asksEmpty true)
  | .error _ => false

/-! ## Matching -/

mutual

/-- The conditions inside of `:not` are compared the other way round, which is why both documents
vary here. -/
theorem Simple.holds_mono : ∀ (x : Simple) {d d' : Dom} {id : NodeId} {e : Element},
    SameElements d d' → d.element? id = some e → (x.asksEmpty false → Vacates d d') →
      (x.asksEmpty true → Vacates d' d) → x.holds d id e → x.holds d' id e
  | .type _, _, _, _, _, _, _, _, _, h | .className _, _, _, _, _, _, _, _, _, h
  | .id _, _, _, _, _, _, _, _, _, h | .attributeTest _, _, _, _, _, _, _, _, _, h => h
  | .universal, _, _, _, _, _, _, _, _, _ => rfl
  | .pseudo p, _, _, _, _, hsame, he, heven, _, h => by
    rw [Simple.holds] at h ⊢
    by_cases hp : p = .empty
    · subst hp
      exact heven rfl _ (isElement_of_element? he) h
    · rwa [hsame.pseudoHolds_eq he hp]
  | .not cs, d, d', id, e, hsame, he, heven, hodd, h => by
    rw [Simple.holds, Bool.not_eq_true'] at h ⊢
    rw [Bool.eq_false_iff] at h ⊢
    have he' := (hsame.element id).trans he
    exact fun h' => h (anyHolds_mono cs hsame.symm he' hodd heven h')

theorem allHold_mono : ∀ (xs : List Simple) {d d' : Dom} {id : NodeId} {e : Element},
    SameElements d d' → d.element? id = some e → (asksEmpty false xs → Vacates d d') →
      (asksEmpty true xs → Vacates d' d) → allHold d id e xs → allHold d' id e xs
  | [], _, _, _, _, _, _, _, _, _ => rfl
  | x :: xs, _, _, _, _, hsame, he, heven, hodd, h => by
    simp only [asksEmpty, Bool.or_eq_true, or_imp] at heven hodd
    rw [allHold, Bool.and_eq_true] at h ⊢
    exact ⟨Simple.holds_mono x hsame he heven.1 hodd.1 h.1,
      allHold_mono xs hsame he heven.2 hodd.2 h.2⟩

theorem anyHolds_mono : ∀ (cs : List (List Simple)) {d d' : Dom} {id : NodeId} {e : Element},
    SameElements d d' → d.element? id = some e → (anyAskEmpty false cs → Vacates d d') →
      (anyAskEmpty true cs → Vacates d' d) → anyHolds d id e cs → anyHolds d' id e cs
  | [], _, _, _, _, _, _, _, _, h => h
  | c :: cs, _, _, _, _, hsame, he, heven, hodd, h => by
    simp only [anyAskEmpty, Bool.or_eq_true, or_imp] at heven hodd
    rw [anyHolds, Bool.or_eq_true] at h ⊢
    exact h.imp (allHold_mono c hsame he heven.1 hodd.1)
      (anyHolds_mono cs hsame he heven.2 hodd.2)

end

section

variable {d d' : Dom} (hsame : SameElements d d')

include hsame

theorem Compound.holds_mono {c : Compound} (heven : asksEmpty false c → Vacates d d')
    (hodd : asksEmpty true c → Vacates d' d) {id : NodeId} (h : Compound.holds d c id) :
    Compound.holds d' c id := by
  obtain ⟨e, he, h⟩ := (Option.any_eq_true _ _).1 h
  rw [Compound.holds, hsame.element id, he]
  exact allHold_mono c hsame he heven hodd h

/-- What is around an element is the same in both documents. -/
theorem SameElements.any_reach_mono {k : Combinator} {id : NodeId} (hid : d.isElement id)
    {p p' : NodeId → Bool} (hp : ∀ other, p other → p' other) (h : (k.reach d id).any p) :
    (k.reach d' id).any p' := by
  obtain ⟨other, hmem, hother⟩ := List.any_eq_true.1 h
  refine List.any_eq_true.2 ⟨other, ?_, hp other hother⟩
  cases k with
  | descendant => exact (hsame.ancestors id hid other).2 hmem
  | child => rwa [Combinator.reach, hsame.parent id hid]
  | nextSibling | subsequentSibling => rwa [Combinator.reach, hsame.preceding id hid]

theorem chainHolds_mono {chain : List (Combinator × Compound)}
    (heven : anyAskEmpty false (chain.map Prod.snd) → Vacates d d')
    (hodd : anyAskEmpty true (chain.map Prod.snd) → Vacates d' d) {id : NodeId}
    (hid : d.isElement id) (h : chainHolds d chain id) : chainHolds d' chain id := by
  induction chain generalizing id with
  | nil => rfl
  | cons kc chain ih =>
    obtain ⟨k, c⟩ := kc
    simp only [List.map_cons, anyAskEmpty, Bool.or_eq_true, or_imp] at heven hodd
    rw [chainHolds] at h ⊢
    refine hsame.any_reach_mono hid (fun other hother => ?_) h
    rw [Bool.and_eq_true] at hother ⊢
    obtain ⟨e, he, -⟩ := (Option.any_eq_true _ _).1 hother.1
    exact ⟨Compound.holds_mono hsame heven.1 hodd.1 hother.1,
      ih heven.2 hodd.2 (isElement_of_element? he) hother.2⟩

/-- A selector goes on matching when elements become empty, if that is not what it denies. -/
theorem Complex.holds_mono {c : Complex} (heven : c.asksEmpty false → Vacates d d')
    (hodd : c.asksEmpty true → Vacates d' d) {id : NodeId} (h : c.holds d id) : c.holds d' id := by
  simp only [Complex.asksEmpty, Bool.or_eq_true, or_imp] at heven hodd
  rw [Complex.holds, Bool.and_eq_true] at h ⊢
  obtain ⟨e, he, -⟩ := (Option.any_eq_true _ _).1 h.1
  exact ⟨Compound.holds_mono hsame heven.1 hodd.1 h.1,
    chainHolds_mono hsame heven.2 hodd.2 (isElement_of_element? he) h.2⟩

theorem selectAny_mono {cs : List Complex} (heven : Vacates d d')
    (hodd : cs.any (Complex.asksEmpty true) → Vacates d' d) (h : selectAny d cs) :
    selectAny d' cs := by
  rw [selectAny, selectFirst?, List.find?_isSome] at h ⊢
  obtain ⟨id, hid, hmatch⟩ := h
  obtain ⟨c, hc, hmatch⟩ := List.any_eq_true.1 hmatch
  refine ⟨id, hsame.elements ▸ hid, List.any_eq_true.2 ⟨c, hc, ?_⟩⟩
  exact Complex.holds_mono hsame (fun _ => heven) (fun h => hodd (List.any_eq_true.2 ⟨c, hc, h⟩))
    hmatch

end

end Selector

namespace Css.Stylesheet

open Selector

variable {d d' : Dom} (hsame : SameElements d d')

include hsame

/-- A selector that is alive stays alive when elements become empty, if that is not what it
denies. -/
theorem isAlive_mono {selector : String} (heven : Vacates d d')
    (hodd : deniesEmpty selector → Vacates d' d) (h : isAlive d selector) :
    isAlive d' selector := by
  unfold isAlive Dom.selectAny at h ⊢
  unfold deniesEmpty at hodd
  cases hparse : Selector.parse selector with
  | error e => rfl
  | ok cs =>
    rw [hparse] at h hodd
    exact selectAny_mono hsame heven hodd h

/-- Where the same elements are empty, the same selectors are alive. -/
theorem isAlive_eq (hvacates : Vacates d d') (hvacates' : Vacates d' d) :
    isAlive d' = isAlive d := by
  funext selector
  rw [Bool.eq_iff_iff]
  exact ⟨isAlive_mono hsame.symm hvacates' fun _ => hvacates,
    isAlive_mono hsame hvacates fun _ => hvacates'⟩

end Css.Stylesheet

end Restyle
