import Restyle.Proofs.Revision.DeadCode
import Restyle.Proofs.Revision.Grayscale
import Restyle.Proofs.Revision.Rewriting

/-!
# The turns of the style elements

A pass goes over the `style` elements of a document one after the other, and each turn can change
the document in which the next one takes place. `Session.turns` lists the elements with the session
at the turn of each. Main statements: at its turn an element still holds its first text, and any
other element either its first or its last one (`revises_turns`, and `revises_styleElements` for
passes that take out no element); and a count that grows at each turn grows by the sum over the
turns (`count_turns`).
-/

namespace Restyle.Revision

open Css Dom

/-- Whether a pass can go on from a document without the elements `gone` to one without `gone'`. -/
def PassKind.GoesOn (k : PassKind) (gone gone' : List NodeId) : Prop :=
  gone ⊆ gone' ∧ (k ≠ .removeHidden → gone' = gone)

namespace PassKind.GoesOn

variable {k : PassKind} {gone gone' gone'' : List NodeId}

theorem refl (k : PassKind) (gone : List NodeId) : k.GoesOn gone gone :=
  ⟨List.Subset.refl _, fun _ => rfl⟩

theorem trans (h : k.GoesOn gone gone') (h' : k.GoesOn gone' gone'') : k.GoesOn gone gone'' :=
  ⟨List.Subset.trans h.1 h'.1, fun hk => (h'.2 hk).trans (h.2 hk)⟩

end PassKind.GoesOn

namespace Session

variable {d : Dom} {gone : List NodeId} {texts : NodeId → Option String} {s : Session}

/-! ## What was done to a document -/

/-- Whether the document of a session is `d` without the elements `gone`, which are those that the
report counts, and with some new texts of `style` elements. -/
structure Revises (d : Dom) (gone : List NodeId) (texts : NodeId → Option String) (s : Session) :
    Prop where
  /-- What is left of the document. -/
  rewrites : d.Rewrites gone texts s.dom
  /-- The elements that are gone are counted. -/
  counted : s.report.elementsRemoved = gone.length

theorem revises_start (hd : d.WellFormed) (log : Log) :
    Revises d [] (fun _ => none) (start d log) :=
  ⟨Rewrites.refl hd, rfl⟩

theorem Revises.congr (h : Revises d gone texts s) {s' : Session} (hdom : s'.dom = s.dom)
    (hcount : s'.report.elementsRemoved = s.report.elementsRemoved) :
    Revises d gone texts s' :=
  ⟨hdom ▸ h.rewrites, hcount.trans h.counted⟩

theorem mem_elements_of_findFirst? {id : NodeId} (selector : String) (log : Log)
    (h : (d.findFirst? selector log).1 = some id) : id ∈ d.elements := by
  rw [findFirst?, selectFirst] at h
  cases hparse : Selector.parse selector with
  | error e =>
    rw [hparse] at h
    cases h
  | ok cs =>
    rw [hparse] at h
    exact List.mem_of_find?_eq_some h

section

variable (hd : d.Tidy) (h : Revises d gone texts s)

include hd h

/-- An element of the document is taken out and counted. -/
theorem revises_removeElement {id : NodeId} (hid : d.isElement id)
    (hconnected : s.dom.isConnected id) : Revises d (id :: gone) texts (s.removeElement id) := by
  have hne : id ≠ root := by
    rintro rfl
    rw [hd.wellFormed.not_isElement_root] at hid
    cases hid
  have habove := atOrAbove_iff.1 (h.rewrites.wellFormed.isConnected_iff.1 hconnected)
  obtain ⟨p, hp, -⟩ := above_iff.1 (habove.resolve_left hne.symm)
  refine ⟨h.rewrites.detach hd hid hp, ?_⟩
  rw [List.length_cons, ← h.counted]
  rfl

theorem revises_removeMatch (selector : String) :
    ∃ gone', gone ⊆ gone' ∧ Revises d gone' texts (s.removeMatch selector) := by
  have hfound : ∀ id, _ → id ∈ s.dom.elements := fun _ =>
    mem_elements_of_findFirst? selector s.log
  unfold removeMatch
  dsimp only
  split
  · rename_i id hid
    obtain ⟨hconnected, helement⟩ := h.rewrites.wellFormed.mem_elements_iff.1 (hfound id hid)
    rw [h.rewrites.isElement_eq] at helement
    have h' : Revises d gone texts { s with log := (s.dom.findFirst? selector s.log).2 } :=
      h.congr rfl rfl
    exact ⟨_, List.subset_cons_self _ _, revises_removeElement hd h' helement hconnected⟩
  · exact ⟨gone, List.Subset.refl _, h.congr rfl rfl⟩

end

theorem revises_foldl {α : Type} {f : Session → α → Session} (as : List α)
    (hf : ∀ a ∈ as, ∀ (s : Session) (gone : List NodeId), Revises d gone texts s →
      ∃ gone', gone ⊆ gone' ∧ Revises d gone' texts (f s a))
    (h : Revises d gone texts s) :
    ∃ gone', gone ⊆ gone' ∧ Revises d gone' texts (as.foldl f s) := by
  induction as generalizing s gone with
  | nil => exact ⟨gone, List.Subset.refl _, h⟩
  | cons a as ih =>
    rw [List.forall_mem_cons] at hf
    obtain ⟨gone₁, hsub₁, h₁⟩ := hf.1 s gone h
    obtain ⟨gone₂, hsub₂, h₂⟩ := ih hf.2 h₁
    exact ⟨gone₂, List.Subset.trans hsub₁ hsub₂, h₂⟩

theorem foldl_eq_of_step {α β : Type} {f : Session → α → Session} (count : Session → β)
    (hf : ∀ s a, count (f s a) = count s) (as : List α) (s : Session) :
    count (as.foldl f s) = count s := by
  induction as generalizing s with
  | nil => rfl
  | cons a as ih => rw [List.foldl_cons, ih, hf]

/-- An element that is out of the document stays out. -/
theorem Revises.disconnected_mono (h : Revises d gone texts s) (hd : d.Tidy) {gone' : List NodeId}
    {texts' : NodeId → Option String} {s' : Session} (h' : Revises d gone' texts' s')
    (hsub : gone ⊆ gone') {id : NodeId} (hid : d.isElement id)
    (hout : s.dom.isConnected id = false) : s'.dom.isConnected id = false := by
  rw [Bool.eq_false_iff, ne_eq, h'.rewrites.isConnected_iff hd hid]
  rintro ⟨hconnected, hnot⟩
  rw [Bool.eq_false_iff, ne_eq, h.rewrites.isConnected_iff hd hid] at hout
  refine hout ⟨hconnected, Bool.eq_false_iff.2 fun hwithin => ?_⟩
  obtain ⟨g, hg, habove⟩ := hd.wellFormed.isWithin_iff.1 hwithin
  rw [hd.wellFormed.isWithin_iff.2 ⟨g, hsub hg, habove⟩] at hnot
  cases hnot

/-- Elements are taken out one after the other, those that are still in the document. -/
theorem revises_removeElements (hd : d.Tidy) (h : Revises d gone texts s) {ids : List NodeId}
    (hids : ∀ id ∈ ids, d.isElement id) :
    ∃ gone', gone ⊆ gone' ∧
      let s' := ids.foldl (fun s id => if s.dom.isConnected id then s.removeElement id else s) s
      Revises d gone' texts s' ∧ ∀ id ∈ ids, s'.dom.isConnected id = false := by
  induction ids generalizing s gone with
  | nil => exact ⟨gone, List.Subset.refl _, h, by simp⟩
  | cons id ids ih =>
    rw [List.forall_mem_cons] at hids
    obtain ⟨gone₁, hsub₁, h₁, hout₁⟩ : ∃ gone₁, gone ⊆ gone₁ ∧
        let s₁ := if s.dom.isConnected id then s.removeElement id else s
        Revises d gone₁ texts s₁ ∧ s₁.dom.isConnected id = false := by
      split_ifs with hconnected
      · have hremoved := revises_removeElement hd h hids.1 hconnected
        refine ⟨_, List.subset_cons_self _ _, hremoved, ?_⟩
        rw [Bool.eq_false_iff, ne_eq, hremoved.rewrites.isConnected_iff hd hids.1,
          Bool.eq_false_iff]
        rintro ⟨-, hnot⟩
        exact hnot (hd.wellFormed.isWithin_iff.2 ⟨id, List.mem_cons_self, .refl⟩)
      · exact ⟨gone, List.Subset.refl _, h, Bool.eq_false_iff.2 hconnected⟩
    obtain ⟨gone₂, hsub₂, h₂, hout₂⟩ := ih h₁ hids.2
    refine ⟨gone₂, List.Subset.trans hsub₁ hsub₂, h₂, List.forall_mem_cons.2 ⟨?_, hout₂⟩⟩
    exact h₁.disconnected_mono hd h₂ hsub₂ hids.1 hout₁

/-- Afterwards no element of the document is hidden by its own attribute. -/
theorem revises_removeHiddenElements (hd : d.Tidy) (h : Revises d gone texts s)
    (t : HiddenTarget) :
    ∃ gone', gone ⊆ gone' ∧ Revises d gone' texts (s.removeHiddenElements t) ∧
      ∀ id ∈ s.dom.elements, (s.dom.attributeValue? id "style").any t.matchesInline →
        (s.removeHiddenElements t).dom.isConnected id = false := by
  have hids : ∀ id ∈ s.dom.elements.filter fun id =>
      (s.dom.attributeValue? id "style").any t.matchesInline, d.isElement id := by
    intro id hid
    rw [← h.rewrites.isElement_eq]
    exact (h.rewrites.wellFormed.mem_elements_iff.1 (List.mem_of_mem_filter hid)).2
  obtain ⟨gone', hsub, h', hout⟩ := revises_removeElements hd h hids
  exact ⟨gone', hsub, h', fun id hid hmatch => hout id (List.mem_filter.2 ⟨hid, hmatch⟩)⟩

section

variable (hd : d.Tidy) (h : Revises d gone texts s) (k : PassKind) (t : HiddenTarget)

include hd h

theorem revises_reviseSheet (sheet : Stylesheet) :
    ∃ gone', k.GoesOn gone gone' ∧ Revises d gone' texts (s.reviseSheet k t sheet).2 := by
  cases k with
  | removeHidden =>
    obtain ⟨gone', hsub, h'⟩ := revises_foldl (s := s.countRules (sheet.withoutHidden t).2.length)
      ((sheet.withoutHidden t).2.flatMap (·.selectors))
      (fun selector _ _ _ hs => revises_removeMatch hd hs selector) (h.congr rfl rfl)
    exact ⟨gone', ⟨hsub, fun hk => absurd rfl hk⟩, h'⟩
  | grayscale | deadCode => exact ⟨gone, .refl _ _, h.congr rfl rfl⟩

end

/-! ## Turns -/

/-- What a pass does when the turn of a `style` element comes. -/
def turn (k : PassKind) (t : HiddenTarget) (s : Session) (id : NodeId) : Session :=
  if s.dom.isConnected id then s.reviseElement k t id else s

/-- The `style` elements of a list, each with the session at its turn. -/
def turns (k : PassKind) (t : HiddenTarget) : List NodeId → Session → List (NodeId × Session)
  | [], _ => []
  | id :: ids, s => (id, s) :: turns k t ids (s.turn k t id)

/-- The style sheet that a pass goes over at the turn of an element: none if the element is not in
the document any more or if its text is malformed. -/
def sheetAt? (s : Session) (id : NodeId) : Option Stylesheet :=
  if s.dom.isConnected id then (Stylesheet.parse (s.dom.textContent id)).toOption else none

/-- The text that an element gets at its turn, if it gets one. -/
def textAt? (k : PassKind) (t : HiddenTarget) (s : Session) (id : NodeId) : Option String :=
  (s.sheetAt? id).map fun sheet => (s.reviseSheet k t sheet).1.css

theorem sheetAt?_eq_some_iff {id : NodeId} {sheet : Stylesheet} :
    s.sheetAt? id = some sheet ↔
      s.dom.isConnected id ∧ Stylesheet.parse (s.dom.textContent id) = .ok sheet := by
  unfold sheetAt?
  cases s.dom.isConnected id with
  | false => simp
  | true => cases Stylesheet.parse (s.dom.textContent id) <;> simp [Except.toOption]

variable {k : PassKind} {t : HiddenTarget}

/-- All that can happen at a turn. -/
theorem turn_cases (k : PassKind) (t : HiddenTarget) (s : Session) (id : NodeId) :
    (∃ sheet, s.sheetAt? id = some sheet ∧ s.turn k t id =
      (s.reviseSheet k t sheet).2.writeBack fun d => d.setText id (s.reviseSheet k t sheet).1.css) ∨
    s.sheetAt? id = none ∧
      ((∃ e, s.dom.isConnected id ∧ Stylesheet.parse (s.dom.textContent id) = .error e ∧
          s.turn k t id = s.skip id .styleElement e) ∨
        s.dom.isConnected id = false ∧ s.turn k t id = s) := by
  unfold turn sheetAt?
  cases hconnected : s.dom.isConnected id with
  | false => exact .inr ⟨rfl, .inr ⟨rfl, rfl⟩⟩
  | true =>
    rw [if_pos rfl, if_pos rfl, reviseElement]
    cases hparse : Stylesheet.parse (s.dom.textContent id) with
    | error e => exact .inr ⟨rfl, .inl ⟨e, rfl, rfl, rfl⟩⟩
    | ok sheet => exact .inl ⟨sheet, rfl, rfl⟩

/-- A turn gives an element its text. -/
theorem revises_turn (hd : d.Tidy) (h : Revises d gone texts s) {id : NodeId}
    (hid : d.tag? id = some "style") (k : PassKind) (t : HiddenTarget) :
    ∃ gone', k.GoesOn gone gone' ∧
      Revises d gone' (Function.update texts id ((s.textAt? k t id).or (texts id)))
        (s.turn k t id) := by
  have hkept : Function.update texts id (texts id) = texts := Function.update_eq_self id texts
  unfold textAt?
  rcases turn_cases k t s id with ⟨sheet, hsheet, heq⟩ | ⟨hnone, ⟨e, -, -, heq⟩ | ⟨-, heq⟩⟩
  · obtain ⟨gone', hgoes, h'⟩ := revises_reviseSheet hd h k t sheet
    rw [heq, hsheet]
    exact ⟨gone', hgoes, h'.rewrites.setText hid _, h'.counted⟩
  · rw [heq, hnone, Option.map_none, Option.none_or, hkept]
    exact ⟨gone, .refl _ _, h.congr rfl rfl⟩
  · rw [heq, hnone, Option.map_none, Option.none_or, hkept]
    exact ⟨gone, .refl _ _, h⟩

/-- After its turn an element holds its last text. At its turn it still holds its first text, and
each other element holds either its first or its last text. -/
theorem revises_turns (hd : d.Tidy) (h : Revises d gone texts s) {ids : List NodeId}
    (hids : ∀ id ∈ ids, d.tag? id = some "style") (hnodup : ids.Nodup) :
    ∃ gone' texts', k.GoesOn gone gone' ∧ Revises d gone' texts' (ids.foldl (turn k t) s) ∧
      (∀ i, i ∉ ids → texts' i = texts i) ∧
      ∀ p ∈ turns k t ids s, p.1 ∈ ids ∧ texts' p.1 = (p.2.textAt? k t p.1).or (texts p.1) ∧
        ∃ gone₁ texts₁, k.GoesOn gone gone₁ ∧ Revises d gone₁ texts₁ p.2 ∧
          texts₁ p.1 = texts p.1 ∧ ∀ i, texts₁ i = texts i ∨ texts₁ i = texts' i := by
  induction ids generalizing s gone texts with
  | nil => exact ⟨gone, texts, .refl _ _, h, fun _ _ => rfl, by simp [turns]⟩
  | cons id ids ih =>
    rw [List.forall_mem_cons] at hids
    rw [List.nodup_cons] at hnodup
    obtain ⟨gone₁, hgoes₁, h₁⟩ := revises_turn hd h hids.1 k t
    obtain ⟨gone', texts', hgoes', h', hother, hturns⟩ := ih h₁ hids.2 hnodup.2
    have hown : texts' id = (s.textAt? k t id).or (texts id) := by
      rw [hother id hnodup.1, Function.update_self]
    refine ⟨gone', texts', hgoes₁.trans hgoes', h', fun i hi => ?_, ?_⟩
    · rw [List.mem_cons, not_or] at hi
      rw [hother i hi.2, Function.update_of_ne hi.1]
    rw [turns, List.forall_mem_cons]
    refine ⟨⟨List.mem_cons_self, hown, gone, texts, .refl _ _, h, rfl, fun i => .inl rfl⟩,
      fun p hp => ?_⟩
    obtain ⟨hmem, htext, gone₂, texts₂, hgoes₂, h₂, hfirst, hmixed⟩ := hturns p hp
    have hne : p.1 ≠ id := fun heq => hnodup.1 (heq ▸ hmem)
    rw [Function.update_of_ne hne] at htext hfirst
    refine ⟨List.mem_cons_of_mem _ hmem, htext, gone₂, texts₂, hgoes₁.trans hgoes₂, h₂, hfirst,
      fun i => ?_⟩
    by_cases hi : i = id
    · subst hi
      refine .inr ((hmixed i).elim (fun heq => ?_) id)
      rw [heq, Function.update_self, hown]
    · rw [← Function.update_of_ne hi ((s.textAt? k t id).or (texts id)) texts]
      exact hmixed i

/-- A count that grows at each turn grows by the sum over the turns. -/
theorem count_turns (count : Session → Nat) (amount : NodeId × Session → Nat)
    (hstep : ∀ (s : Session) (id : NodeId), count (s.turn k t id) = count s + amount (id, s))
    (ids : List NodeId) (s : Session) :
    count (ids.foldl (turn k t) s) = count s + ((turns k t ids s).map amount).sum := by
  induction ids generalizing s with
  | nil => rfl
  | cons id ids ih =>
    rw [List.foldl_cons, ih, hstep, turns, List.map_cons, List.sum_cons, Nat.add_assoc]

theorem map_fst_turns (k : PassKind) (t : HiddenTarget) (ids : List NodeId) (s : Session) :
    (turns k t ids s).map Prod.fst = ids := by
  induction ids generalizing s with
  | nil => rfl
  | cons id ids ih => rw [turns, List.map_cons, ih]

/-- Each element of the list has its turn. -/
theorem exists_mem_turns {ids : List NodeId} {id : NodeId} (hid : id ∈ ids) (s : Session) :
    ∃ s₁, (id, s₁) ∈ turns k t ids s := by
  rw [← map_fst_turns k t ids s] at hid
  obtain ⟨p, hp, rfl⟩ := List.mem_map.1 hid
  exact ⟨p.2, hp⟩

theorem nodup_styleElements (hd : d.WellFormed) : d.styleElements.Nodup :=
  ((hd.nodup_descendants root).filter _).filter _

theorem tag?_of_mem_styleElements {id : NodeId} (h : id ∈ d.styleElements) :
    d.tag? id = some "style" :=
  tag?_of_isStyleElement (List.mem_filter.1 h).2

/-! ## Passes that take out no element -/

/-- What is so at the turn of a `style` element of a document `d`, in a pass that takes out no
element and goes from the texts `texts` to the texts `texts'`. -/
structure AtTurn (k : PassKind) (t : HiddenTarget) (d : Dom) (texts texts' : NodeId → Option String)
    (p : NodeId × Session) : Prop where
  /-- The element is one of the document. -/
  mem : p.1 ∈ d.styleElements
  /-- The element is in the document still. -/
  connected : p.2.dom.isConnected p.1
  /-- The element holds its first text. -/
  holds : p.2.dom.textContent p.1 = (texts p.1).getD (d.textContent p.1)
  /-- The element gets its last text. -/
  gets : texts' p.1 = (p.2.textAt? k t p.1).or (texts p.1)
  /-- Each other element holds its first or its last text. -/
  mixed : ∃ texts₁, Revises d [] texts₁ p.2 ∧ texts₁ p.1 = texts p.1 ∧
    ∀ i, texts₁ i = texts i ∨ texts₁ i = texts' i

/-- A pass that takes out no element gives the `style` elements their texts. -/
theorem revises_styleElements (hd : d.Tidy) (h : Revises d [] texts s) (hk : k ≠ .removeHidden)
    (t : HiddenTarget) :
    ∃ texts', Revises d [] texts' (d.styleElements.foldl (turn k t) s) ∧
      (∀ i, i ∉ d.styleElements → texts' i = texts i) ∧
      ∀ p ∈ turns k t d.styleElements s, AtTurn k t d texts texts' p := by
  obtain ⟨gone', texts', hgoes, h', hother, hturns⟩ := revises_turns hd h
    (fun id => tag?_of_mem_styleElements) (nodup_styleElements hd.wellFormed) (k := k) (t := t)
  obtain rfl := hgoes.2 hk
  refine ⟨texts', h', hother, fun p hp => ?_⟩
  obtain ⟨hmem, hgets, gone₁, texts₁, hgoes₁, h₁, hfirst, hmixed⟩ := hturns p hp
  obtain rfl := hgoes₁.2 hk
  exact {
    mem := hmem
    connected := h₁.rewrites.isConnected_nil hd (List.mem_of_mem_filter hmem)
    holds := by rw [h₁.rewrites.textContent_eq hd (tag?_of_mem_styleElements hmem), hfirst]
    gets := hgets
    mixed := ⟨texts₁, h₁, hfirst, hmixed⟩ }

end Session

end Restyle.Revision
