import Restyle.Proofs.Revision.ReadsBack
import Restyle.Proofs.Revision.Turns

/-!
# Removing hidden content

The pass `PassKind.removeHidden` takes out the elements that their own attribute hides, and for each
rule that hides content the first element that each of its selectors matches. Main statement: after
a run no element of the document is hidden by its attribute, the report counts exactly the elements
that have lost their parent, nothing but them and what is below them has left the document, and each
`style` element that was still there at its turn holds its sheet without the rules that hide content
(`run_removeHidden`).
-/

namespace Restyle

open Html

namespace Css.Stylesheet

open Revision

variable (t : HiddenTarget)

theorem noted_hidden (rules removed : List StyleRule) :
    (noted (fun r removed => if r.declarations.any t.matchesDeclaration then removed ++ [r]
        else removed) rules removed).length + (rules.filterMap (visible? t)).length =
      removed.length + rules.length := by
  induction rules generalizing removed with
  | nil => rfl
  | cons r rules ih =>
    rw [noted, List.foldl_cons, ← noted, List.filterMap_cons, List.length_cons, visible?]
    split_ifs
    · rw [ih, List.length_append, List.length_singleton]
      omega
    · have := ih removed
      rw [List.length_cons]
      omega

/-- The rules that are taken out and those that stay are all the rules. -/
theorem withoutHidden_count (sheet : Stylesheet) :
    (sheet.withoutHidden t).2.length + (sheet.withoutHidden t).1.styleCount = sheet.styleCount := by
  rw [withoutHidden_eq, styleCount, styleCount, ← Rule.length_stylesAll, ← Rule.length_stylesAll,
    Rule.stylesAll_siftedAll, noted_hidden, List.length_nil, Nat.zero_add]

end Css.Stylesheet

namespace Dom

/-- The elements that have a parent in the first tree and none in the second. -/
def orphans (d d' : Dom) : List NodeId :=
  (List.range d.size).filter fun id =>
    d.isElement id && (d.parent? id).isSome && (d'.parent? id).isNone

variable {d d' : Dom} {gone : List NodeId} {texts : NodeId → Option String}

/-- The elements without a parent are those that were taken out. -/
theorem Rewrites.orphans_perm (h : d.Rewrites gone texts d') (hd : d.Tidy) :
    (d.orphans d').Perm gone := by
  refine (List.perm_ext_iff_of_nodup (List.nodup_range.filter _) h.nodup).2 fun id => ?_
  simp only [List.mem_filter, List.mem_range, Bool.and_eq_true]
  constructor
  · rintro ⟨-, ⟨helement, hparent⟩, hnone⟩
    by_contra hgone
    rw [h.parent?_eq hd helement, if_neg hgone] at hnone
    rw [Option.isNone_iff_eq_none.1 hnone] at hparent
    cases hparent
  · intro hgone
    obtain ⟨helement, hparent⟩ := h.removed id hgone
    refine ⟨lt_size_of_isElement helement, ⟨helement, hparent⟩, ?_⟩
    rw [h.parent?_eq hd helement, if_pos hgone]
    rfl

theorem isWithin_congr {ids ids' : List NodeId} (h : ids.Perm ids') (id : NodeId) :
    d.isWithin ids id = d.isWithin ids' id :=
  h.any_eq

end Dom

namespace Revision

open Css Dom

/-- The text of a style sheet without the rules that hide content; a malformed text stays. -/
def HiddenTarget.clearedText (t : HiddenTarget) (source : String) : String :=
  match Stylesheet.parse source with
  | .ok sheet => (⟨Rule.siftedAll (Stylesheet.visible? t) sheet.rules⟩ : Stylesheet).css
  | .error _ => source

/-- The number of style rules in a text that hide content; none in a malformed text. -/
def HiddenTarget.clearedCount (t : HiddenTarget) (source : String) : Nat :=
  match Stylesheet.parse source with
  | .ok sheet => sheet.styleCount -
      (⟨Rule.siftedAll (Stylesheet.visible? t) sheet.rules⟩ : Stylesheet).styleCount
  | .error _ => 0

namespace Session

/-- What a run that removes hidden content has done to a document. The list `turns` has the `style`
elements with the session at the turn of each. -/
structure HiddenRemoved (t : HiddenTarget) (d : Dom) (turns : List (NodeId × Session))
    (s : Session) : Prop where
  /-- No element of the document is hidden by its own attribute. -/
  visible : ∀ id ∈ s.dom.elements, (s.dom.attributeValue? id "style").any t.matchesInline = false
  /-- The report counts the elements that have lost their parent. -/
  counted : s.report.elementsRemoved = (d.orphans s.dom).length
  /-- Those elements and what is below them has left the document, and nothing else. -/
  elements : s.dom.elements = d.elements.filter fun id => !d.isWithin (d.orphans s.dom) id
  /-- All elements are what they were. -/
  element : ∀ id, s.dom.element? id = d.element? id
  /-- Other elements keep their parents. -/
  parent : ∀ id, d.isElement id → id ∉ d.orphans s.dom → s.dom.parent? id = d.parent? id
  /-- Elements keep their other children that are elements, in order. -/
  children : ∀ id, (s.dom.children id).filter s.dom.isElement =
    (d.children id).filter fun c => d.isElement c && !(d.orphans s.dom).contains c
  /-- A `style` element that is in the document at its turn loses the rules that hide content. -/
  cleared : ∀ p ∈ turns, p.2.dom.isConnected p.1 →
    s.dom.textContent p.1 = t.clearedText (d.textContent p.1)
  /-- Every other `style` element keeps its text. -/
  kept : ∀ id, d.isStyleElement id → (∀ p ∈ turns, p.1 = id → ¬ p.2.dom.isConnected id) →
    s.dom.textContent id = d.textContent id
  /-- The report counts the rules that went. -/
  rules : s.report.rulesRemoved = (turns.map fun p =>
    if p.2.dom.isConnected p.1 then t.clearedCount (d.textContent p.1) else 0).sum

variable {t : HiddenTarget}

/-! ## Turns -/

theorem textAt?_removeHidden {s : Session} {id : NodeId} (h : s.dom.isConnected id) :
    (s.textAt? .removeHidden t id).getD (s.dom.textContent id) =
      t.clearedText (s.dom.textContent id) := by
  rw [textAt?, sheetAt?, if_pos h, HiddenTarget.clearedText]
  cases Stylesheet.parse (s.dom.textContent id) with
  | error e => rfl
  | ok sheet => exact congrArg Stylesheet.css (Stylesheet.withoutHidden_rules t sheet)

theorem textAt?_of_not_isConnected {s : Session} {id : NodeId} (h : ¬ s.dom.isConnected id)
    (k : PassKind) : s.textAt? k t id = none := by
  rw [textAt?, sheetAt?, if_neg h]
  rfl

theorem rulesRemoved_removeMatch (s : Session) (selector : String) :
    (s.removeMatch selector).report.rulesRemoved = s.report.rulesRemoved := by
  unfold removeMatch
  dsimp only
  split <;> rfl

theorem rulesRemoved_removeHiddenElements (s : Session) (t : HiddenTarget) :
    (s.removeHiddenElements t).report.rulesRemoved = s.report.rulesRemoved := by
  refine foldl_eq_of_step (fun s => s.report.rulesRemoved) (fun s id => ?_) _ s
  split_ifs <;> rfl

/-- At each turn the report grows by the number of rules that go. -/
theorem rulesRemoved_turn (s : Session) (id : NodeId) :
    (s.turn .removeHidden t id).report.rulesRemoved = s.report.rulesRemoved +
      if s.dom.isConnected id then t.clearedCount (s.dom.textContent id) else 0 := by
  unfold HiddenTarget.clearedCount
  rcases turn_cases .removeHidden t s id with
    ⟨sheet, hsheet, heq⟩ | ⟨-, ⟨e, hconnected, hparse, heq⟩ | ⟨hout, heq⟩⟩
  · obtain ⟨hconnected, hparse⟩ := sheetAt?_eq_some_iff.1 hsheet
    have hcount := Stylesheet.withoutHidden_count t sheet
    rw [Stylesheet.withoutHidden_rules] at hcount
    have hremoved := foldl_eq_of_step (fun s => s.report.rulesRemoved)
      rulesRemoved_removeMatch ((sheet.withoutHidden t).2.flatMap (·.selectors))
      (s.countRules (sheet.withoutHidden t).2.length)
    rw [heq, if_pos hconnected, hparse]
    dsimp only
    rw [← hcount, Nat.add_sub_cancel]
    exact hremoved
  · rw [heq, if_pos hconnected, hparse]
    rfl
  · rw [heq, hout]
    rfl

/-! ## Runs -/

/-- A run that removes hidden content keeps the document, its style sheets and the report in
step. -/
theorem run_removeHidden (html : String) (t : HiddenTarget) (log : Log) :
    let d := (parse html).dom
    let prepared := (start d log).prepare .removeHidden t
    let turns := turns .removeHidden t prepared.dom.styleElements prepared
    turns.map Prod.fst = d.styleElements.filter prepared.dom.isConnected ∧
      HiddenRemoved t d turns ((start d log).run .removeHidden t) := by
  intro d prepared turns
  have hd : d.Tidy := tidy_parse html
  obtain ⟨gone₁, -, h₁, hout⟩ := revises_removeHiddenElements hd (revises_start hd.wellFormed log) t
  change Revises d gone₁ _ prepared at h₁
  set ids := prepared.dom.styleElements with hidseq
  have hids : ∀ id ∈ ids, d.tag? id = some "style" := fun id hid =>
    h₁.rewrites.tag?_eq id ▸ tag?_of_mem_styleElements hid
  obtain ⟨gone', texts', hgoes, h', hother, hturns⟩ := revises_turns hd h₁ hids
    (nodup_styleElements h₁.rewrites.wellFormed) (k := .removeHidden) (t := t)
  have hrun : ids.foldl (turn .removeHidden t) prepared = (start d log).run .removeHidden t := rfl
  rw [hrun] at h'
  have hrewrites := h'.rewrites
  have horphans := hrewrites.orphans_perm hd
  -- At its turn an element holds the text it had in the document.
  have hfirst : ∀ p ∈ turns, p.2.dom.textContent p.1 = d.textContent p.1 := by
    intro p hp
    obtain ⟨hmem, -, gone₂, texts₂, -, h₂, hfirst, -⟩ := hturns p hp
    rw [h₂.rewrites.textContent_eq hd (hids p.1 hmem), hfirst]
    rfl
  refine ⟨(map_fst_turns .removeHidden t ids prepared).trans (h₁.rewrites.styleElements_eq hd), ?_⟩
  exact {
    visible := by
      intro id hid
      obtain ⟨hconnected, helement⟩ := hrewrites.wellFormed.mem_elements_iff.1 hid
      rw [hrewrites.isElement_eq] at helement
      by_contra hmatch
      rw [Bool.not_eq_false, hrewrites.attributeValue?_eq] at hmatch
      have hmem := hd.wellFormed.mem_elements_iff.2
        ⟨((hrewrites.isConnected_iff hd helement).1 hconnected).1, helement⟩
      rw [h₁.disconnected_mono hd h' hgoes.1 helement (hout id hmem hmatch)] at hconnected
      cases hconnected
    counted := by rw [h'.counted, horphans.length_eq]
    elements := by
      rw [hrewrites.elements_eq hd]
      exact List.filter_congr fun id _ => by rw [isWithin_congr horphans]
    element := hrewrites.element?_eq
    parent := by
      intro id hid hkept
      rw [hrewrites.parent?_eq hd hid, if_neg fun hgone => hkept (horphans.mem_iff.2 hgone)]
    children := by
      intro id
      rw [hrewrites.filter_children_eq hd]
      refine List.filter_congr fun c _ => ?_
      rw [List.contains_eq_mem, List.contains_eq_mem, decide_eq_decide.2 horphans.mem_iff]
    cleared := by
      intro p hp hconnected
      obtain ⟨hmem, htext, -⟩ := hturns p hp
      rw [hrewrites.textContent_eq hd (hids p.1 hmem), htext, Option.or_none, ← hfirst p hp,
        textAt?_removeHidden hconnected]
    kept := by
      intro id hid hout
      rw [hrewrites.textContent_eq hd (tag?_of_isStyleElement hid)]
      suffices hnone : texts' id = none by
        rw [hnone]
        rfl
      by_cases hmem : id ∈ ids
      · obtain ⟨s₁, hs₁⟩ := exists_mem_turns hmem prepared
        obtain ⟨-, htext, -⟩ := hturns _ hs₁
        rw [htext, textAt?_of_not_isConnected (hout _ hs₁ rfl)]
        rfl
      · exact hother id hmem
    rules := by
      have hcount := count_turns (fun s => s.report.rulesRemoved)
        (fun p => if p.2.dom.isConnected p.1 then
          t.clearedCount (p.2.dom.textContent p.1) else 0) rulesRemoved_turn ids prepared
      have hprepared : prepared.report.rulesRemoved = 0 := rulesRemoved_removeHiddenElements _ t
      rw [hrun, hprepared, Nat.zero_add] at hcount
      refine hcount.trans ?_
      refine congrArg List.sum (List.map_congr_left fun p hp => ?_)
      rw [hfirst p hp] }

end Session

end Revision

end Restyle
