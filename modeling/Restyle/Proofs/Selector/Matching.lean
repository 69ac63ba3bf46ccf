import Restyle.Proofs.Dom.Changes
import Restyle.Selector.Matching

/-!
# What a selector means

`Complex.Matches` says which nodes a selector matches: there are elements, one for each compound,
each met by its element, and each reached from the one before by the combinator between them. The
search of `Complex.holds` finds them whenever they exist (`Complex.holds_iff`), so looking for the
elements of a document that match a selector text gives all of them in tree order
(`matching_iff`).
-/

namespace Restyle.Selector

variable {d : Dom} {n : Nat}

/-! ## Conditions on one element -/

/-- Whether the value of an attribute is in the relation that an operator asks for. -/
def AttributeOperator.Relates (expected actual : String) : AttributeOperator → Prop
  | present => True
  | equals => actual = expected
  | includes => expected ∈ Text.words actual
  | dashMatch => actual = expected ∨ expected.toList ++ ['-'] <+: actual.toList
  | startsWith => expected ≠ "" ∧ expected.toList <+: actual.toList
  | endsWith => expected ≠ "" ∧ expected.toList <:+ actual.toList
  | contains => expected ≠ "" ∧ expected.toList <:+: actual.toList

/-- Whether an element has the attribute that a test asks for. -/
def AttributeTest.IsMet (t : AttributeTest) (e : Element) : Prop :=
  ∃ actual, e.get? t.name = some actual ∧
    if t.ignoresCase then t.operator.Relates (Text.lower t.value) (Text.lower actual)
    else t.operator.Relates t.value actual

/-- Whether a node is an element with the given tag, up to the case of letters. -/
def IsOfType (d : Dom) (tag : String) (id : NodeId) : Prop :=
  ∃ e, d.element? id = some e ∧ Text.lower tag = Text.lower e.tag

/-- Whether a node is a comment, or a text of white space. -/
def IsBlank (d : Dom) (id : NodeId) : Prop :=
  (∃ data, d.content? id = some (.comment data)) ∨
    ∃ data, d.content? id = some (.text data) ∧ ∀ c ∈ data.toList, Text.isSpace c = true

/-- Whether the element `e`, which is the node `id`, has the place or the state that is asked
for. -/
def PseudoClass.IsMet (d : Dom) (id : NodeId) (e : Element) : PseudoClass → Prop
  | root => ∃ before after, d.children Dom.root = before ++ id :: after ∧
      ∀ x ∈ before, ¬ d.isElement x
  | firstChild => ∀ x between, d.InRow x between id → ¬ d.isElement x
  | lastChild => ∀ x between, d.InRow id between x → ¬ d.isElement x
  | onlyChild => ∀ x between, d.InRow x between id ∨ d.InRow id between x → ¬ d.isElement x
  | firstOfType => ∀ x between, d.InRow x between id → ¬ IsOfType d e.tag x
  | lastOfType => ∀ x between, d.InRow id between x → ¬ IsOfType d e.tag x
  | empty => ∀ c, d.parent? c = some id → IsBlank d c
  | link => e.tag ∈ ["a", "area"] ∧ e.has "href"
  | enabled => e.tag ∈ formControls ∧ ¬ e.has "disabled"
  | disabled => e.tag ∈ formControls ∧ e.has "disabled"
  | checked => e.tag = "option" ∧ e.has "selected" ∨ e.tag = "input" ∧ e.has "checked" ∧
      ∃ t, e.get? "type" = some t ∧ Text.lower t ∈ ["checkbox", "radio"]

/-- Whether the element `e`, which is the node `id`, meets a condition. -/
def Simple.IsMet (d : Dom) (id : NodeId) (e : Element) : Simple → Prop
  | .type tag => Text.lower e.tag = Text.lower tag
  | .className name => name ∈ e.classes
  | .id name => e.get? "id" = some name
  | .universal => True
  | .attributeTest test => test.IsMet e
  | .pseudo p => p.IsMet d id e
  | .not compounds => ∀ c ∈ compounds, ∃ x, ∃ _ : x ∈ c, ¬ x.IsMet d id e
termination_by x => x
decreasing_by
  have hx := List.sizeOf_lt_of_mem ‹x ∈ c›
  have hc := List.sizeOf_lt_of_mem ‹c ∈ compounds›
  simp only [not.sizeOf_spec]
  omega

/-- Whether a node is an element that meets every condition of a compound. -/
def Compound.IsMet (d : Dom) (c : Compound) (id : NodeId) : Prop :=
  ∃ e, d.element? id = some e ∧ ∀ x ∈ c, x.IsMet d id e

theorem occursIn_iff {word s : List Char} : Text.occursIn word s = true ↔ word <:+: s := by
  induction s with
  | nil => simp [Text.occursIn]
  | cons c s ih =>
    rw [Text.occursIn, Bool.or_eq_true, List.isPrefixOf_iff_prefix, ih, List.infix_cons_iff]

theorem AttributeOperator.compare_iff (op : AttributeOperator) (expected actual : String) :
    op.compare expected actual = true ↔ op.Relates expected actual := by
  have hempty : (!expected.toList.isEmpty) = true ↔ expected ≠ "" := by simp
  cases op with
  | present => simp [compare, Relates]
  | equals => exact beq_iff_eq
  | includes => exact List.contains_iff_mem
  | dashMatch =>
    simp only [compare, Relates, Bool.or_eq_true, beq_iff_eq, List.isPrefixOf_iff_prefix]
  | startsWith =>
    simp only [compare, Relates, Bool.and_eq_true, hempty, List.isPrefixOf_iff_prefix]
  | endsWith =>
    simp only [compare, Relates, Bool.and_eq_true, hempty, List.isSuffixOf_iff_suffix]
  | contains => simp only [compare, Relates, Bool.and_eq_true, hempty, occursIn_iff]

theorem AttributeTest.holds_iff (t : AttributeTest) (e : Element) :
    t.holds e = true ↔ t.IsMet e := by
  rw [holds, IsMet]
  cases e.get? t.name with
  | none => simp
  | some actual =>
    simp only [Option.some.injEq, exists_eq_left']
    split_ifs <;> exact t.operator.compare_iff _ _

theorem sameLetters_iff {a b : String} :
    Text.sameLetters a b = true ↔ Text.lower a = Text.lower b :=
  beq_iff_eq

theorem hasTag_iff {tag : String} {id : Nat} : hasTag d tag id = true ↔ IsOfType d tag id := by
  rw [hasTag, IsOfType, Dom.tag?]
  cases d.element? id with
  | none => simp
  | some e => simp [sameLetters_iff]

theorem isNegligible_iff {id : Nat} : isNegligible d id = true ↔ IsBlank d id := by
  rw [isNegligible, IsBlank]
  cases d.content? id with
  | none => simp
  | some x => cases x <;> simp

theorem isElement_of_isOfType {tag : String} {id : Nat} (h : IsOfType d tag id) :
    d.isElement id = true := by
  obtain ⟨e, he, -⟩ := h
  rw [Dom.isElement, he]
  rfl

variable (hd : d.WellFormed)

include hd

theorem mem_precedingElements_iff {x : Nat} :
    x ∈ precedingElements d n ↔ (∃ between, d.InRow x between n) ∧ d.isElement x := by
  rw [precedingElements, List.mem_filter, hd.mem_precedingSiblings_iff]

theorem mem_followingElements_iff {x : Nat} :
    x ∈ followingElements d n ↔ (∃ between, d.InRow n between x) ∧ d.isElement x := by
  rw [followingElements, List.mem_filter, hd.mem_followingSiblings_iff]

theorem isEmpty_precedingElements_iff :
    (precedingElements d n).isEmpty = true ↔
      ∀ x between, d.InRow x between n → ¬ d.isElement x := by
  rw [List.isEmpty_iff, List.eq_nil_iff_forall_not_mem]
  refine forall_congr' fun x => ?_
  rw [mem_precedingElements_iff hd]
  exact ⟨fun h between hrow hx => h ⟨⟨between, hrow⟩, hx⟩,
    fun h hx => hx.1.elim fun between hrow => h between hrow hx.2⟩

theorem isEmpty_followingElements_iff :
    (followingElements d n).isEmpty = true ↔
      ∀ x between, d.InRow n between x → ¬ d.isElement x := by
  rw [List.isEmpty_iff, List.eq_nil_iff_forall_not_mem]
  refine forall_congr' fun x => ?_
  rw [mem_followingElements_iff hd]
  exact ⟨fun h between hrow hx => h ⟨⟨between, hrow⟩, hx⟩,
    fun h hx => hx.1.elim fun between hrow => h between hrow hx.2⟩

theorem any_precedingElements_iff {tag : String} :
    (precedingElements d n).any (hasTag d tag) = true ↔
      ∃ x between, d.InRow x between n ∧ IsOfType d tag x := by
  rw [List.any_eq_true]
  refine exists_congr fun x => ?_
  rw [mem_precedingElements_iff hd, hasTag_iff]
  exact ⟨fun h => h.1.1.imp fun _ hrow => ⟨hrow, h.2⟩,
    fun ⟨between, hrow, hx⟩ => ⟨⟨⟨between, hrow⟩, isElement_of_isOfType hx⟩, hx⟩⟩

theorem any_followingElements_iff {tag : String} :
    (followingElements d n).any (hasTag d tag) = true ↔
      ∃ x between, d.InRow n between x ∧ IsOfType d tag x := by
  rw [List.any_eq_true]
  refine exists_congr fun x => ?_
  rw [mem_followingElements_iff hd, hasTag_iff]
  exact ⟨fun h => h.1.1.imp fun _ hrow => ⟨hrow, h.2⟩,
    fun ⟨between, hrow, hx⟩ => ⟨⟨⟨between, hrow⟩, isElement_of_isOfType hx⟩, hx⟩⟩

theorem PseudoClass.holds_iff {e : Element} (he : d.element? n = some e) (p : PseudoClass) :
    p.holds d n e = true ↔ p.IsMet d n e := by
  have helement : d.isElement n = true := by
    rw [Dom.isElement, he]
    rfl
  cases p with
  | root =>
    rw [holds, IsMet, beq_iff_eq, Dom.documentElement?, List.find?_eq_some_iff_append]
    simp [helement]
  | firstChild => exact isEmpty_precedingElements_iff hd
  | lastChild => exact isEmpty_followingElements_iff hd
  | onlyChild =>
    rw [holds, IsMet, Bool.and_eq_true, isEmpty_precedingElements_iff hd,
      isEmpty_followingElements_iff hd]
    exact ⟨fun h x between hrow => hrow.elim (h.1 x between) (h.2 x between),
      fun h => ⟨fun x between hrow => h x between (.inl hrow),
        fun x between hrow => h x between (.inr hrow)⟩⟩
  | firstOfType =>
    rw [holds, IsMet, Bool.not_eq_true', ← Bool.not_eq_true, any_precedingElements_iff hd]
    simp
  | lastOfType =>
    rw [holds, IsMet, Bool.not_eq_true', ← Bool.not_eq_true, any_followingElements_iff hd]
    simp
  | empty =>
    rw [holds, IsMet, List.all_eq_true]
    refine forall_congr' fun c => ?_
    rw [hd.mem_children_iff, isNegligible_iff]
  | link => simp [holds, IsMet]
  | enabled => simp [holds, IsMet]
  | disabled => simp [holds, IsMet]
  | checked =>
    rw [holds, IsMet, isChecked]
    have hbox : Text.lower "checkbox" = "checkbox" := by decide
    have hradio : Text.lower "radio" = "radio" := by decide
    split_ifs with hinput
    · rw [beq_iff_eq] at hinput
      simp [hinput, Option.any_eq_true, sameLetters_iff, hbox, hradio]
    · rw [beq_iff_eq] at hinput
      simp [hinput]

omit hd

mutual

theorem Simple.holds_iff (hd : d.WellFormed) {e : Element} (he : d.element? n = some e) :
    ∀ x : Simple, x.holds d n e = true ↔ x.IsMet d n e
  | .type tag => by rw [Simple.holds, Simple.IsMet, sameLetters_iff]
  | .className name => by simp [Simple.holds, Simple.IsMet, Element.hasClass]
  | .id name => by simp [Simple.holds, Simple.IsMet]
  | .universal => by simp [Simple.holds, Simple.IsMet]
  | .attributeTest test => by rw [Simple.holds, Simple.IsMet, test.holds_iff]
  | .pseudo p => by rw [Simple.holds, Simple.IsMet, p.holds_iff hd he]
  | .not compounds => by
    rw [Simple.holds, Simple.IsMet, Bool.not_eq_true', ← Bool.not_eq_true,
      anyHolds_iff hd he compounds]
    simp

theorem allHold_iff (hd : d.WellFormed) {e : Element} (he : d.element? n = some e) :
    ∀ xs : List Simple, allHold d n e xs = true ↔ ∀ x ∈ xs, x.IsMet d n e
  | [] => by simp [allHold]
  | x :: xs => by
    rw [allHold, Bool.and_eq_true, x.holds_iff hd he, allHold_iff hd he xs, List.forall_mem_cons]

theorem anyHolds_iff (hd : d.WellFormed) {e : Element} (he : d.element? n = some e) :
    ∀ cs : List (List Simple), anyHolds d n e cs = true ↔ ∃ c ∈ cs, ∀ x ∈ c, x.IsMet d n e
  | [] => by simp [anyHolds]
  | c :: cs => by
    simp only [anyHolds, Bool.or_eq_true, allHold_iff hd he c, anyHolds_iff hd he cs,
      List.exists_mem_cons_iff]

end

theorem Compound.holds_iff (hd : d.WellFormed) (c : Compound) :
    c.holds d n = true ↔ c.IsMet d n := by
  rw [holds, IsMet, Option.any_eq_true]
  refine exists_congr fun e => and_congr_right fun he => ?_
  exact allHold_iff hd he c

/-! ## What is around an element -/

/-- Whether a combinator leads from a node to another one. -/
def Combinator.Leads (d : Dom) (k : Combinator) (id other : NodeId) : Prop :=
  match k with
  | descendant => d.Above other id
  | child => d.parent? id = some other
  | nextSibling => d.isElement other ∧
      ∃ between, d.InRow other between id ∧ ∀ x ∈ between, ¬ d.isElement x
  | subsequentSibling => d.isElement other ∧ ∃ between, d.InRow other between id

/-- Whether a selector matches a node: the node meets the subject, and the compounds of the chain
are met by nodes that are reached from it one after the other. -/
def Complex.Matches (d : Dom) (c : Complex) (id : NodeId) : Prop :=
  ∃ ids : Nat → NodeId, ids 0 = id ∧ c.subject.IsMet d (ids 0) ∧
    ∀ i, ∀ hi : i < c.chain.length, c.chain[i].1.Leads d (ids i) (ids (i + 1)) ∧
      c.chain[i].2.IsMet d (ids (i + 1))

theorem isElement_of_isMet {c : Compound} (h : c.IsMet d n) : d.isElement n = true := by
  obtain ⟨e, he, -⟩ := h
  rw [Dom.isElement, he]
  rfl

include hd

theorem Combinator.mem_reach_iff (k : Combinator) {other : Nat} (h : d.isElement other = true) :
    other ∈ k.reach d n ↔ k.Leads d n other := by
  cases k with
  | descendant => exact hd.mem_ancestors_iff
  | child => simp [reach, Leads]
  | nextSibling =>
    rw [reach, Leads, List.take_one, Option.mem_toList, precedingElements, List.head?_filter,
      List.find?_eq_some_iff_append]
    constructor
    · rintro ⟨-, between, before, hrow, hbetween⟩
      obtain ⟨p, after, hp⟩ := hd.precedingSiblings_eq_iff.1 hrow
      refine ⟨h, between.reverse, ⟨p, before.reverse, after, hp⟩, fun x hx => ?_⟩
      simpa using hbetween x (List.mem_reverse.1 hx)
    · rintro ⟨-, between, ⟨p, before, after, hp⟩, hbetween⟩
      refine ⟨h, between.reverse, before.reverse, ?_, fun x hx => ?_⟩
      · exact hd.precedingSiblings_eq_iff.2 ⟨p, after, by simpa using hp⟩
      · simpa using hbetween x (List.mem_reverse.1 hx)
  | subsequentSibling => rw [reach, Leads, mem_precedingElements_iff hd, and_comm]

theorem chainHolds_iff (chain : List (Combinator × Compound)) :
    chainHolds d chain n = true ↔ ∃ ids : Nat → NodeId, ids 0 = n ∧
      ∀ i, ∀ hi : i < chain.length, chain[i].1.Leads d (ids i) (ids (i + 1)) ∧
        chain[i].2.IsMet d (ids (i + 1)) := by
  induction chain generalizing n with
  | nil => simpa [chainHolds] using ⟨fun _ => n, rfl⟩
  | cons kc chain ih =>
    obtain ⟨k, c⟩ := kc
    rw [chainHolds, List.any_eq_true]
    constructor
    · rintro ⟨other, hreach, h⟩
      rw [Bool.and_eq_true, c.holds_iff hd, ih] at h
      obtain ⟨hc, ids, hids, hchain⟩ := h
      refine ⟨fun i => i.casesOn n ids, rfl, fun i hi => ?_⟩
      cases i with
      | zero =>
        simp only [List.getElem_cons_zero, hids]
        exact ⟨(k.mem_reach_iff hd (isElement_of_isMet hc)).1 hreach, hc⟩
      | succ i => exact hchain i (Nat.lt_of_succ_lt_succ hi)
    · rintro ⟨ids, rfl, hchain⟩
      obtain ⟨hleads, hc⟩ := hchain 0 (Nat.succ_pos _)
      refine ⟨ids 1, (k.mem_reach_iff hd (isElement_of_isMet hc)).2 hleads, ?_⟩
      rw [Bool.and_eq_true, c.holds_iff hd, ih]
      exact ⟨hc, fun i => ids (i + 1), rfl, fun i hi => hchain (i + 1) (Nat.succ_lt_succ hi)⟩

/-- The search finds the elements that a selector asks for if there are any. -/
theorem Complex.holds_iff (c : Complex) : c.holds d n = true ↔ c.Matches d n := by
  rw [holds, Bool.and_eq_true, c.subject.holds_iff hd, chainHolds_iff hd]
  constructor
  · rintro ⟨hsubject, ids, rfl, hchain⟩
    exact ⟨ids, rfl, hsubject, hchain⟩
  · rintro ⟨ids, rfl, hsubject, hchain⟩
    exact ⟨hsubject, ids, rfl, hchain⟩

/-! ## Looking for elements -/

theorem any_holds_iff (cs : List Complex) :
    (cs.any fun c => c.holds d n) = true ↔ ∃ c ∈ cs, c.Matches d n := by
  simp only [List.any_eq_true, Complex.holds_iff hd]

theorem mem_elements_iff : n ∈ d.elements ↔ d.isElement n ∧ d.AtOrAbove Dom.root n := by
  rw [Dom.elements, List.mem_filter, hd.mem_descendants_iff, Dom.atOrAbove_iff, and_comm]
  refine and_congr_right fun hn => ⟨.inr, fun h => h.resolve_left ?_⟩
  rintro rfl
  simp [Dom.isElement, Dom.element?, hd.root, Content.element?] at hn

theorem mem_select_iff (cs : List Complex) :
    n ∈ select d cs ↔ (d.isElement n ∧ d.AtOrAbove Dom.root n) ∧ ∃ c ∈ cs, c.Matches d n := by
  rw [select, List.mem_filter, mem_elements_iff hd, any_holds_iff hd]

theorem nodup_select (cs : List Complex) : (select d cs).Nodup :=
  ((hd.nodup_descendants _).filter _).filter _

theorem pairwise_before_select (cs : List Complex) : (select d cs).Pairwise d.Before :=
  ((hd.pairwise_before_descendants _).filter _).filter _

omit hd

theorem selectFirst?_eq_head? (cs : List Complex) : selectFirst? d cs = (select d cs).head? := by
  rw [selectFirst?, select, List.head?_filter]

theorem selectAny_eq (cs : List Complex) : selectAny d cs = !(select d cs).isEmpty := by
  rw [selectAny, selectFirst?_eq_head?]
  cases select d cs <;> rfl

/-- A selector matches the nodes it means, and looking for a selector text that can be read gives
the elements of the document that one of its selectors means, each once and in tree order. -/
theorem matching_iff (hd : d.WellFormed) :
    (∀ (c : Complex) (n : NodeId), c.holds d n = true ↔ c.Matches d n) ∧
      ∀ (text : String) (cs : List Complex), parse text = .ok cs →
        ∃ ids : List NodeId, d.selectAll text = .ok ids ∧
          (∀ n, n ∈ ids ↔
            (d.isElement n ∧ d.AtOrAbove Dom.root n) ∧ ∃ c ∈ cs, c.Matches d n) ∧
          ids.Nodup ∧ ids.Pairwise d.Before ∧
          d.selectFirst text = .ok ids.head? ∧ d.selectAny text = .ok (!ids.isEmpty) := by
  refine ⟨fun c n => c.holds_iff hd, fun text cs hcs => ⟨select d cs, ?_, ?_, ?_, ?_, ?_, ?_⟩⟩
  · rw [Dom.selectAll, hcs]
    rfl
  · exact fun n => mem_select_iff hd cs
  · exact nodup_select hd cs
  · exact pairwise_before_select hd cs
  · rw [Dom.selectFirst, hcs, ← selectFirst?_eq_head?]
    rfl
  · rw [Dom.selectAny, hcs, ← selectAny_eq]
    rfl

/-- Neither a text between two elements nor the document above the outer one counts as an
element. -/
theorem matching_over_text :
    let d := (((Dom.empty.addChild 0 (.element ⟨"i", []⟩)).addChild 1 (.element ⟨"b", []⟩)).addChild
      1 (.text "x")).addChild 1 (.element ⟨"p", []⟩)
    let c : Complex :=
      ⟨[.type "p"], [(.nextSibling, [.type "b"]), (.descendant, [.type "i"])]⟩
    d.WellFormed ∧ parse "i b + p" = .ok [c] ∧ c.Matches d 4 ∧
      ¬ (⟨[.type "i"], [(.descendant, [.universal])]⟩ : Complex).Matches d 1 ∧
      ∃ ids, d.selectAll "i b + p" = .ok ids ∧ 4 ∈ ids := by
  intro d c
  have hd : d.WellFormed :=
    (((Dom.WellFormed.empty.addChild (by decide) _).addChild (by decide) _).addChild
      (by decide) _).addChild (by decide) _
  have hparse : parse "i b + p" = .ok [c] := by with_unfolding_all rfl
  have hmatch : c.Matches d 4 := ((matching_iff hd).1 c 4).1 (by decide)
  obtain ⟨ids, hids, hmem, -⟩ := (matching_iff hd).2 _ _ hparse
  refine ⟨hd, hparse, hmatch, fun h => ?_, ids, hids, (hmem 4).2 ⟨⟨?_, ?_⟩, ?_⟩⟩
  · exact absurd (((matching_iff hd).1 _ 1).2 h) (by decide)
  · decide
  · exact hd.isConnected_iff.1 (by decide)
  · exact ⟨c, List.mem_singleton_self c, hmatch⟩

end Restyle.Selector
