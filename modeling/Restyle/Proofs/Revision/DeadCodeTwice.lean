import Restyle.Proofs.Revision.KeptSelectors
import Restyle.Proofs.Revision.OtherTexts
import Restyle.Proofs.Revision.Turns

/-!
# Taking out dead selectors twice

A pass that takes out dead selectors goes through the `style` elements once. What it writes into one
of them can empty that element, so a selector that was alive at an earlier turn may be dead at the
end. Main statement: this happens only to selectors in which `:empty` stands inside of an odd number
of `:not`, and where the texts that the pass writes are read back, a second run changes the document
if and only if it has happened (`run_deadCode_again`).
-/

namespace Restyle.Revision.Session

open Css Dom Selector

/-- The style sheets that a pass writes into the elements of a document, each with its element. -/
def written (k : PassKind) (t : HiddenTarget) (s : Session) : List (NodeId × Stylesheet) :=
  (turns k t s.dom.styleElements s).filterMap fun p =>
    (p.2.sheetAt? p.1).map fun sheet => (p.1, (p.2.reviseSheet k t sheet).1)

theorem mem_written_iff {k : PassKind} {t : HiddenTarget} {s : Session} {id : NodeId}
    {sheet' : Stylesheet} :
    (id, sheet') ∈ written k t s ↔
      ∃ s₁ sheet, (id, s₁) ∈ turns k t s.dom.styleElements s ∧ s₁.sheetAt? id = some sheet ∧
        (s₁.reviseSheet k t sheet).1 = sheet' := by
  simp only [written, List.mem_filterMap, Option.map_eq_some_iff, Prod.mk.injEq, Prod.exists]
  constructor
  · rintro ⟨i, s₁, hp, sheet, hsheet, rfl, rfl⟩
    exact ⟨s₁, sheet, hp, hsheet, rfl⟩
  · rintro ⟨s₁, sheet, hp, hsheet, rfl⟩
    exact ⟨id, s₁, hp, sheet, hsheet, rfl, rfl⟩

variable {d : Dom} {texts texts' : NodeId → Option String} {s s' : Session} {t : HiddenTarget}

/-! ## Turns that take out dead selectors -/

/-- A blank text is replaced by an empty one. -/
theorem textAt?_of_blank {id : NodeId} (h : (s.dom.textContent id).toList.all Text.isSpace)
    {text : String} (htext : s.textAt? .deadCode t id = some text) : text = "" := by
  obtain ⟨sheet, hsheet, rfl⟩ := Option.map_eq_some_iff.1 htext
  have hparse := (sheetAt?_eq_some_iff.1 hsheet).2
  rw [Stylesheet.parse_blank h] at hparse
  cases hparse
  change ((⟨[]⟩ : Stylesheet).withoutDead s.dom).1.css = ""
  rw [Stylesheet.withoutDead_rules]
  rfl

theorem rulesRemoved_turn_deadCode {id : NodeId} {sheet : Stylesheet}
    (h : s.sheetAt? id = some sheet) :
    (s.turn .deadCode t id).report.rulesRemoved =
      s.report.rulesRemoved + (sheet.withoutDead s.dom).2 := by
  rcases turn_cases .deadCode t s id with ⟨sheet', hsheet, heq⟩ | ⟨hnone, -⟩
  · cases h.symm.trans hsheet
    rw [heq]
    rfl
  · cases h.symm.trans hnone

theorem rulesRemoved_turn_of_none {id : NodeId} (h : s.sheetAt? id = none) :
    (s.turn .deadCode t id).report.rulesRemoved = s.report.rulesRemoved := by
  rcases turn_cases .deadCode t s id with ⟨sheet, hsheet, -⟩ | ⟨-, ⟨e, -, -, heq⟩ | ⟨-, heq⟩⟩
  · cases h.symm.trans hsheet
  · rw [heq]
    rfl
  · rw [heq]

/-! ## Documents with other texts -/

theorem sameElements_of_revises (hd : d.Tidy) (h : Revises d [] texts s)
    (h' : Revises d [] texts' s') : SameElements s.dom s'.dom :=
  (h.rewrites.sameElements hd).symm.trans (h'.rewrites.sameElements hd)

/-- Where the texts are the same, the same selectors are alive. -/
theorem isAlive_eq_of_revises (hd : d.Tidy) (h : Revises d [] texts s) (h' : Revises d [] texts' s')
    (hsame : ∀ id, d.tag? id = some "style" → s'.dom.textContent id = s.dom.textContent id) :
    Stylesheet.isAlive s'.dom = Stylesheet.isAlive s.dom := by
  refine Stylesheet.isAlive_eq (sameElements_of_revises hd h h') ?_ ?_
  · exact h.rewrites.vacates h'.rewrites hd fun id htag hblank => by rwa [hsame id htag]
  · exact h'.rewrites.vacates h.rewrites hd fun id htag hblank => by rwa [← hsame id htag]

theorem styleElements_of_revises (hd : d.Tidy) (h : Revises d [] texts s) :
    s.dom.styleElements = d.styleElements := by
  rw [styleElements, h.rewrites.elements_nil hd, styleElements]
  exact List.filter_congr fun id _ => h.rewrites.isStyleElement_eq id

/-! ## The first run -/

/-- What a run that takes out dead selectors has done to a document: the texts that it has written
are those of some sheets, whose selectors were alive at that time. -/
structure Sifted (d : Dom) (texts : NodeId → Option String) (sheets : List (NodeId × Stylesheet))
    (s : Session) : Prop where
  /-- The document has the texts. -/
  revises : Revises d [] texts s
  /-- Only `style` elements of the document have new texts. -/
  other : ∀ id, id ∉ d.styleElements → texts id = none
  /-- A `style` element without a new text is malformed. -/
  malformed : ∀ id ∈ d.styleElements, texts id = none →
    ∃ e, Stylesheet.parse (d.textContent id) = .error e
  /-- New texts are those of the sheets. -/
  text : ∀ id text, texts id = some text → ∃ sheet, (id, sheet) ∈ sheets ∧ text = sheet.css
  /-- The sheets are in the document. -/
  held : ∀ q ∈ sheets, q.1 ∈ d.styleElements ∧ texts q.1 = some q.2.css
  /-- Each sheet is what is left of one at some time, since when elements have become empty only. -/
  alive : ∀ q ∈ sheets, ∃ (s₁ : Session) (texts₁ : NodeId → Option String) (sheet : Stylesheet),
    Revises d [] texts₁ s₁ ∧ Vacates s₁.dom s.dom ∧ q.2 = (sheet.withoutDead s₁.dom).1

/-- From the turn of an element on, elements have become empty only. -/
theorem vacates_of_turns (hd : d.Tidy) {s₀ : Session} {p : NodeId × Session}
    (h : Revises d [] texts s) (hother : ∀ i, i ∉ d.styleElements → texts i = none)
    (hturns : ∀ p ∈ turns .deadCode t d.styleElements s₀,
      AtTurn .deadCode t d (fun _ => none) texts p)
    (hp : p ∈ turns .deadCode t d.styleElements s₀) : Vacates p.2.dom s.dom := by
  obtain ⟨texts₁, h₁, -, hmixed⟩ := (hturns p hp).mixed
  refine h₁.rewrites.vacates h.rewrites hd fun i htag hblank => ?_
  rw [h₁.rewrites.textContent_eq hd htag] at hblank
  rw [h.rewrites.textContent_eq hd htag]
  rcases hmixed i with hfirst | hlast
  · -- A blank text is still there, or it was replaced by an empty one.
    rw [hfirst] at hblank
    cases htext : texts i with
    | none => exact hblank
    | some text =>
      have hi : i ∈ d.styleElements := by
        by_contra hi
        rw [hother i hi] at htext
        cases htext
      obtain ⟨s₂, hs₂⟩ := exists_mem_turns hi s₀
      have hgets := (hturns _ hs₂).gets
      have hholds : s₂.dom.textContent i = d.textContent i := (hturns _ hs₂).holds
      rw [htext, Option.or_none] at hgets
      rw [textAt?_of_blank (hholds ▸ hblank) hgets.symm]
      rfl
  · rwa [← hlast]

theorem sifted_run (hd : d.Tidy) (t : HiddenTarget) (log : Log) :
    ∃ texts,
      Sifted d texts (written .deadCode t (start d log)) ((start d log).run .deadCode t) := by
  obtain ⟨texts, h, hother, hturns⟩ := revises_styleElements hd (revises_start hd.wellFormed log)
    (k := .deadCode) (by decide) t
  have hwritten : ∀ id sheet', (id, sheet') ∈ written .deadCode t (start d log) ↔
      ∃ s₁ sheet, (id, s₁) ∈ turns .deadCode t d.styleElements (start d log) ∧
        s₁.sheetAt? id = some sheet ∧ (s₁.reviseSheet .deadCode t sheet).1 = sheet' :=
    fun _ _ => mem_written_iff
  have hgets : ∀ id s₁, (id, s₁) ∈ turns .deadCode t d.styleElements (start d log) →
      texts id = s₁.textAt? .deadCode t id := fun id s₁ hs₁ => by
    rw [(hturns _ hs₁).gets, Option.or_none]
  refine ⟨texts, ?_⟩
  exact {
    revises := h
    other := hother
    malformed := by
      intro id hid hnone
      obtain ⟨s₁, hs₁⟩ := exists_mem_turns hid (start d log)
      have hholds : s₁.dom.textContent id = d.textContent id := (hturns _ hs₁).holds
      rw [hgets id s₁ hs₁, textAt?, sheetAt?, if_pos (hturns _ hs₁).connected, hholds,
        Option.map_eq_none_iff] at hnone
      cases hparse : Stylesheet.parse (d.textContent id) with
      | error e => exact ⟨e, rfl⟩
      | ok sheet =>
        rw [hparse] at hnone
        cases hnone
    text := by
      intro id text htext
      have hid : id ∈ d.styleElements := by
        by_contra hid
        rw [hother id hid] at htext
        cases htext
      obtain ⟨s₁, hs₁⟩ := exists_mem_turns hid (start d log)
      rw [hgets id s₁ hs₁] at htext
      obtain ⟨sheet, hsheet, rfl⟩ := Option.map_eq_some_iff.1 htext
      exact ⟨_, (hwritten _ _).2 ⟨s₁, sheet, hs₁, hsheet, rfl⟩, rfl⟩
    held := by
      rintro ⟨id, sheet'⟩ hq
      obtain ⟨s₁, sheet, hs₁, hsheet, rfl⟩ := (hwritten _ _).1 hq
      refine ⟨(hturns _ hs₁).mem, (hgets id s₁ hs₁).trans ?_⟩
      rw [textAt?, hsheet]
      rfl
    alive := by
      rintro ⟨id, sheet'⟩ hq
      obtain ⟨s₁, sheet, hs₁, hsheet, rfl⟩ := (hwritten _ _).1 hq
      obtain ⟨texts₁, h₁, -, -⟩ := (hturns _ hs₁).mixed
      exact ⟨s₁, texts₁, sheet, h₁, vacates_of_turns hd h hother hturns hs₁, rfl⟩ }

/-- A selector that was alive when its sheet was written still is, unless it asks for elements that
are not empty. -/
theorem Sifted.isAlive_of_not_deniesEmpty {sheets : List (NodeId × Stylesheet)} (hd : d.Tidy)
    (h : Sifted d texts sheets s) {q : NodeId × Stylesheet} (hq : q ∈ sheets) {selector : String}
    (hselector : selector ∈ q.2.selectors) (hnot : deniesEmpty selector = false) :
    Stylesheet.isAlive s.dom selector := by
  obtain ⟨s₁, texts₁, sheet, h₁, hvacates, heq⟩ := h.alive q hq
  rw [heq] at hselector
  exact Stylesheet.isAlive_mono (sameElements_of_revises hd h₁ h.revises) hvacates
    (fun hdenies => by rw [hnot] at hdenies; cases hdenies)
    (Stylesheet.isAlive_of_mem_selectors hselector)

/-! ## The second run -/

section

variable {sheets : List (NodeId × Stylesheet)} (hd : d.Tidy) (h : Sifted d texts sheets s)

include hd h

theorem Sifted.sheetAt?_of_none (h' : Revises d [] texts' s') {id : NodeId}
    (hid : id ∈ d.styleElements) (hnone : texts id = none) (hsame : texts' id = texts id) :
    s'.sheetAt? id = none := by
  obtain ⟨e, he⟩ := h.malformed id hid hnone
  rw [sheetAt?, h'.rewrites.textContent_eq hd (tag?_of_mem_styleElements hid), hsame, hnone,
    Option.getD_none, he]
  split_ifs <;> rfl

variable (hread : ∀ q ∈ sheets, Stylesheet.parse q.2.css = .ok q.2)

include hread

/-- What was written is read when the turn of the element comes again. -/
theorem Sifted.sheetAt?_of_mem (h' : Revises d [] texts' s') {q : NodeId × Stylesheet}
    (hq : q ∈ sheets) (hsame : texts' q.1 = texts q.1) : s'.sheetAt? q.1 = some q.2 := by
  obtain ⟨hid, htext⟩ := h.held q hq
  refine sheetAt?_eq_some_iff.2 ⟨h'.rewrites.isConnected_nil hd (List.mem_of_mem_filter hid), ?_⟩
  rw [h'.rewrites.textContent_eq hd (tag?_of_mem_styleElements hid), hsame, htext,
    Option.getD_some, hread q hq]

/-- If all selectors are alive, another turn changes nothing. -/
theorem Sifted.turn_again
    (halive : ∀ q ∈ sheets, ∀ selector ∈ q.2.selectors, Stylesheet.isAlive s.dom selector)
    (h' : Revises d [] texts s') {id : NodeId} (hid : id ∈ d.styleElements) :
    Revises d [] texts (s'.turn .deadCode t id) ∧
      (s'.turn .deadCode t id).report.rulesRemoved = s'.report.rulesRemoved := by
  have halive' : Stylesheet.isAlive s'.dom = Stylesheet.isAlive s.dom := by
    refine isAlive_eq_of_revises hd h.revises h' fun i htag => ?_
    rw [h'.rewrites.textContent_eq hd htag, h.revises.rewrites.textContent_eq hd htag]
  obtain ⟨gone', hgoes, hturn⟩ :=
    revises_turn hd h' (tag?_of_mem_styleElements hid) .deadCode t
  obtain rfl := hgoes.2 (by decide)
  cases htext : texts id with
  | none =>
    have hsheet := h.sheetAt?_of_none hd h' hid htext rfl
    rw [textAt?, hsheet, Option.map_none, Option.none_or, Function.update_eq_self] at hturn
    exact ⟨hturn, rulesRemoved_turn_of_none hsheet⟩
  | some text =>
    obtain ⟨sheet, hq, rfl⟩ := h.text id text htext
    have hsheet := h.sheetAt?_of_mem hd hread h' hq rfl
    have hstay : sheet.withoutDead s'.dom = (sheet, 0) := by
      obtain ⟨s₁, -, whole, -, -, rfl⟩ := h.alive _ hq
      refine Stylesheet.withoutDead_withoutDead fun selector hselector => ?_
      rw [halive']
      exact halive _ hq selector hselector
    have hkept : s'.textAt? .deadCode t id = texts id := by
      rw [textAt?, hsheet, htext, Option.map_some]
      exact congrArg (fun p => some (Stylesheet.css (Prod.fst p))) hstay
    rw [hkept, Option.or_self, Function.update_eq_self] at hturn
    refine ⟨hturn, ?_⟩
    rw [rulesRemoved_turn_deadCode hsheet, hstay, Nat.add_zero]

/-- If all selectors are alive, the second run changes nothing. -/
theorem Sifted.run_again
    (halive : ∀ q ∈ sheets, ∀ selector ∈ q.2.selectors, Stylesheet.isAlive s.dom selector) :
    Revises d [] texts (s.run .deadCode t) ∧
      (s.run .deadCode t).report.rulesRemoved = s.report.rulesRemoved := by
  have hrun : s.run .deadCode t = d.styleElements.foldl (turn .deadCode t) s := by
    rw [← styleElements_of_revises hd h.revises]
    rfl
  suffices hall : ∀ ids : List NodeId, ids ⊆ d.styleElements → ∀ s' : Session,
      Revises d [] texts s' → Revises d [] texts (ids.foldl (turn .deadCode t) s') ∧
        (ids.foldl (turn .deadCode t) s').report.rulesRemoved = s'.report.rulesRemoved by
    rw [hrun]
    exact hall _ (List.Subset.refl _) s h.revises
  intro ids hsub
  induction ids with
  | nil => exact fun s' h' => ⟨h', rfl⟩
  | cons id ids ih =>
    intro s' h'
    rw [List.cons_subset] at hsub
    obtain ⟨hturn, hrules⟩ := h.turn_again hd hread halive h' hsub.1 (t := t)
    obtain ⟨hrest, hcount⟩ := ih hsub.2 _ hturn
    exact ⟨hrest, hcount.trans hrules⟩

/-- In the second run each sheet is sifted again, in a document where the other elements have the
texts of the first or of the second run. -/
theorem Sifted.revises_again :
    ∃ texts', Revises d [] texts' (s.run .deadCode t) ∧ (∀ i, texts i = none → texts' i = none) ∧
      ∀ q ∈ sheets, ∃ (s₁ : Session) (texts₁ : NodeId → Option String),
        Revises d [] texts₁ s₁ ∧ (∀ i, texts₁ i = texts i ∨ texts₁ i = texts' i) ∧
          texts' q.1 = some (q.2.withoutDead s₁.dom).1.css := by
  obtain ⟨texts', h', hother, hturns⟩ :=
    revises_styleElements hd h.revises (k := .deadCode) (by decide) t
  have hrun : d.styleElements.foldl (turn .deadCode t) s = s.run .deadCode t := by
    rw [← styleElements_of_revises hd h.revises]
    rfl
  rw [hrun] at h'
  refine ⟨texts', h', fun i hnone => ?_, fun q hq => ?_⟩
  · by_cases hi : i ∈ d.styleElements
    · obtain ⟨s₁, hs₁⟩ := exists_mem_turns (k := .deadCode) (t := t) hi s
      obtain ⟨texts₁, h₁, hfirst, -⟩ := (hturns _ hs₁).mixed
      rw [(hturns _ hs₁).gets, textAt?, h.sheetAt?_of_none hd h₁ hi hnone hfirst, hnone]
      rfl
    · rw [hother i hi, hnone]
  · obtain ⟨s₁, hs₁⟩ := exists_mem_turns (k := .deadCode) (t := t) (h.held q hq).1 s
    obtain ⟨texts₁, h₁, hfirst, hmixed⟩ := (hturns _ hs₁).mixed
    refine ⟨s₁, texts₁, h₁, hmixed, ?_⟩
    rw [(hturns _ hs₁).gets, textAt?, h.sheetAt?_of_mem hd hread h₁ hq hfirst]
    rfl

/-- If the second run leaves the markup, all selectors are alive. -/
theorem Sifted.alive_of_markup_eq (hmarkup : (s.run .deadCode t).dom.markup = s.dom.markup) :
    ∀ q ∈ sheets, ∀ selector ∈ q.2.selectors, Stylesheet.isAlive s.dom selector := by
  obtain ⟨texts', h', hnone, hsifted⟩ := h.revises_again hd hread (t := t)
  have hcases : ∀ q ∈ sheets, ∀ e : Dom,
      ((∀ selector ∈ q.2.selectors, Stylesheet.isAlive e selector) ∧
        q.2.withoutDead e = (q.2, 0)) ∨ (q.2.withoutDead e).1.css.length < q.2.css.length := by
    intro q hq e
    obtain ⟨s₁, -, whole, -, -, heq⟩ := h.alive q hq
    rw [heq]
    exact Stylesheet.withoutDead_cases s₁.dom e whole
  -- No text has got longer, so none has changed.
  have hshorter : ∀ id, d.tag? id = some "style" →
      (s.run .deadCode t).dom.textContent id = s.dom.textContent id ∨
        ((s.run .deadCode t).dom.textContent id).length < (s.dom.textContent id).length := by
    intro id htag
    rw [h'.rewrites.textContent_eq hd htag, h.revises.rewrites.textContent_eq hd htag]
    cases htext : texts id with
    | none => exact .inl (by rw [hnone id htext])
    | some text =>
      obtain ⟨sheet, hq, rfl⟩ := h.text id text htext
      obtain ⟨s₁, -, -, -, hnew⟩ := hsifted _ hq
      dsimp only at hnew
      rw [hnew]
      exact (hcases _ hq s₁.dom).imp_left fun hstay => by rw [hstay.2]
  have htexts : ∀ id, d.tag? id = some "style" →
      (s.run .deadCode t).dom.textContent id = s.dom.textContent id := by
    intro id htag
    by_cases hid : id ∈ d.styleElements
    · exact h.revises.rewrites.textContent_eq_of_markup_eq h'.rewrites hd hshorter hmarkup
        (List.mem_of_mem_filter hid) htag
    · rw [h'.rewrites.textContent_eq hd htag, h.revises.rewrites.textContent_eq hd htag,
        hnone id (h.other id hid), h.other id hid]
  intro q hq
  obtain ⟨hid, htext⟩ := h.held q hq
  obtain ⟨s₁, texts₁, h₁, hmixed, hnew⟩ := hsifted q hq
  have halive : Stylesheet.isAlive s₁.dom = Stylesheet.isAlive s.dom := by
    refine isAlive_eq_of_revises hd h.revises h₁ fun i htag => ?_
    rw [h₁.rewrites.textContent_eq hd htag]
    rcases hmixed i with hfirst | hlast
    · rw [hfirst, h.revises.rewrites.textContent_eq hd htag]
    · rw [hlast, ← h'.rewrites.textContent_eq hd htag, htexts i htag]
  have htag := tag?_of_mem_styleElements hid
  have hsame := htexts q.1 htag
  rw [h'.rewrites.textContent_eq hd htag, h.revises.rewrites.textContent_eq hd htag, hnew,
    htext] at hsame
  rw [← halive]
  refine ((hcases q hq s₁.dom).resolve_right fun hlt => ?_).1
  exact Nat.ne_of_lt hlt (congrArg String.length hsame)

end

/-! ## Both runs -/

/-- All selectors that a run has left match in the document that is left or cannot be evaluated,
except for some with `:empty` inside of an odd number of `:not`. Where the texts that the run has
written are read back, a second run removes nothing and leaves the markup if and only if there is no
exception. -/
theorem run_deadCode_again (html : String) (t : HiddenTarget) (log : Log) :
    let start := start (Html.parse html).dom log
    let s := start.run .deadCode t
    let again := s.run .deadCode t
    (∀ q ∈ written .deadCode t start, ∀ selector ∈ q.2.selectors, deniesEmpty selector = false →
        Stylesheet.isAlive s.dom selector) ∧
      ((∀ q ∈ written .deadCode t start, Stylesheet.parse q.2.css = .ok q.2) →
        (again.report.rulesRemoved = s.report.rulesRemoved ∧ again.dom.markup = s.dom.markup ↔
          ∀ q ∈ written .deadCode t start, ∀ selector ∈ q.2.selectors,
            Stylesheet.isAlive s.dom selector)) := by
  intro start s again
  have hd : (Html.parse html).dom.Tidy := Html.tidy_parse html
  obtain ⟨texts, h⟩ := sifted_run hd t log
  refine ⟨fun q hq selector => h.isAlive_of_not_deniesEmpty hd hq, fun hread => ?_⟩
  constructor
  · intro hsame
    exact h.alive_of_markup_eq hd hread hsame.2
  · intro halive
    obtain ⟨h', hrules⟩ := h.run_again hd hread halive (t := t)
    exact ⟨hrules, h'.rewrites.markup_eq h.revises.rewrites hd⟩

/-- The first run empties the second element, which the selectors of the first one allow for. -/
theorem run_deadCode_settles :
    let start := start (Html.parse
      "<style>#s,p:empty\x7bx:y\x7d</style><style id=s>b\x7bx:y\x7d</style><p></p>").dom .empty
    let s := start.run .deadCode .standard
    let again := s.run .deadCode .standard
    (∀ q ∈ written .deadCode .standard start, Stylesheet.parse q.2.css = .ok q.2) ∧
      s.report.rulesRemoved = 1 ∧ again.report.rulesRemoved = s.report.rulesRemoved ∧
      again.dom.markup = s.dom.markup :=
  have hread : ∀ q ∈ written .deadCode .standard (start (Html.parse
      "<style>#s,p:empty\x7bx:y\x7d</style><style id=s>b\x7bx:y\x7d</style><p></p>").dom .empty),
      Stylesheet.parse q.2.css = .ok q.2 := by decide +kernel
  ⟨hread, by decide +kernel,
    ((run_deadCode_again _ .standard .empty).2 hread).2 (by decide +kernel)⟩

/-- The first run empties the second element, so the selector in the first one is dead after it. -/
theorem run_deadCode_unsettled :
    let start := start (Html.parse
      "<style>#s:not(:empty)\x7bx:y\x7d</style><style id=s>b\x7bx:y\x7d</style>").dom .empty
    let s := start.run .deadCode .standard
    let again := s.run .deadCode .standard
    (∀ q ∈ written .deadCode .standard start, Stylesheet.parse q.2.css = .ok q.2) ∧
      s.report.rulesRemoved = 1 ∧
      s.dom.markup = "<style>#s:not(:empty)\x7bx:y\x7d</style><style id=\"s\"></style>" ∧
      again.report.rulesRemoved = 2 ∧
      again.dom.markup = "<style></style><style id=\"s\"></style>" := by
  decide +kernel

end Restyle.Revision.Session
