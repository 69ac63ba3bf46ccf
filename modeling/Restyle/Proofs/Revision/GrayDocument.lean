import Restyle.Proofs.Revision.Turns

/-!
# Grays in a document

The pass `PassKind.grayscale` puts grays into the texts of `style` elements and into the attributes
`style`. Main statement: a run leaves the elements of the document with their tags and their other
attributes, all other nodes outside of the `style` elements that it writes, and every malformed
source; each source is counted once, and so is each value that is replaced (`run_grayscale`).
-/

namespace Restyle

open Html

/-! ## Attributes -/

namespace Attribute

theorem find?_of_mem {as : List Attribute} (h : Distinct as) {a : Attribute} (ha : a ∈ as) :
    find? a.name as = some a.value := by
  induction as with
  | nil => cases ha
  | cons b as ih =>
    obtain ⟨hb, has⟩ := List.pairwise_cons.1 h
    rw [find?, List.find?_cons]
    rcases List.mem_cons.1 ha with rfl | ha
    · rw [beq_self_eq_true]
      rfl
    · rw [beq_eq_false_iff_ne.2 (hb a ha)]
      exact ih has ha

theorem mem_of_find? {name value : String} {as : List Attribute}
    (h : find? name as = some value) : mem name as := by
  rw [find?, Option.map_eq_some_iff] at h
  obtain ⟨a, ha, -⟩ := h
  have hname := List.find?_some ha
  exact List.any_eq_true.2 ⟨a, List.mem_of_find?_eq_some ha, hname⟩

theorem set_eq_self {name value : String} {as : List Attribute} (h : Distinct as)
    (hvalue : find? name as = some value) : set name value as = as := by
  rw [set, if_pos (mem_of_find? hvalue)]
  refine Css.map_eq_self_of_forall fun a ha => ?_
  split_ifs with hname
  · have hself := find?_of_mem h ha
    rw [beq_iff_eq.1 hname, hvalue] at hself
    rw [Option.some.inj hself]
  · rfl

end Attribute

namespace Revision

open Css Dom

/-- The text of a style sheet with grays for colors; a malformed text stays. -/
def grayText (source : String) : String :=
  match Stylesheet.parse source with
  | .ok sheet => sheet.grayed.1.css
  | .error _ => source

/-- The text of an attribute `style` with grays for colors; a malformed text stays. -/
def grayInline (source : String) : String :=
  match Stylesheet.parseInline source with
  | .ok sheet => Declaration.cssAll sheet.grayed.1.inlineDeclarations
  | .error _ => source

/-- The attribute with grays for colors if it is `style`. -/
def grayAttribute (a : Attribute) : Attribute :=
  if a.name == "style" then { a with value := grayInline a.value } else a

/-- The node with grays for colors in its attribute `style`. -/
def grayContent : Content → Content
  | .element e => .element { e with attributes := e.attributes.map grayAttribute }
  | c => c

/-- The style sources of a document, as they are read: first the `style` elements, then the
attributes. -/
def styleSources (d : Dom) : List (Except ParseError Stylesheet) :=
  d.styleElements.map (fun id => Stylesheet.parse (d.textContent id)) ++
    d.inlineStyleElements.map fun id =>
      Stylesheet.parseInline ((d.attributeValue? id "style").getD "")

/-- The number of values in a source that are replaced; none in a malformed source. -/
def replacedIn : Except ParseError Stylesheet → Nat
  | .ok sheet => (sheet.declarations.map Declaration.colorCount).sum
  | .error _ => 0

/-- What a source adds to a report once grays are put in it. -/
def grayReport : Except ParseError Stylesheet → Report
  | .ok sheet => ⟨1, 0, 0, 0, replacedIn (.ok sheet)⟩
  | .error _ => ⟨0, 1, 0, 0, 0⟩

theorem grayReport_ok (sheet : Stylesheet) :
    grayReport (.ok sheet) = ⟨1, 0, 0, 0, sheet.grayed.2⟩ := by
  rw [grayReport, replacedIn, Stylesheet.grayed_eq]

theorem map_grayAttribute {as : List Attribute} (h : Attribute.Distinct as) {style : String}
    (hstyle : Attribute.find? "style" as = some style) :
    as.map grayAttribute = Attribute.set "style" (grayInline style) as := by
  rw [Attribute.set, if_pos (Attribute.mem_of_find? hstyle)]
  refine List.map_congr_left fun a ha => ?_
  unfold grayAttribute
  split_ifs with hname
  · have hvalue := Attribute.find?_of_mem h ha
    rw [beq_iff_eq.1 hname, hstyle] at hvalue
    rw [Option.some.inj hvalue]
  · rfl

theorem map_grayAttribute_of_none {as : List Attribute}
    (hstyle : Attribute.find? "style" as = none) : as.map grayAttribute = as := by
  rw [Attribute.find?, Option.map_eq_none_iff, List.find?_eq_none] at hstyle
  refine map_eq_self_of_forall fun a ha => ?_
  rw [grayAttribute, if_neg (hstyle a ha)]

namespace Session

variable {t : HiddenTarget} {s : Session}

/-! ## One attribute -/

theorem content?_setAttribute (d : Dom) (id : NodeId) (name value : String) (i : NodeId) :
    (d.setAttribute id name value).content? i =
      if i = id then (d.content? i).map fun
        | .element e => .element { e with attributes := Attribute.set name value e.attributes }
        | c => c
      else d.content? i := by
  simp only [setAttribute, modifyElement, modifyContent, content?, node?_modify]
  cases d.node? i <;> split_ifs <;> rfl

theorem exists_of_attributeValue? {d : Dom} {id : NodeId} {name value : String}
    (h : d.attributeValue? id name = some value) :
    ∃ e, d.content? id = some (.element e) ∧ Attribute.find? name e.attributes = some value := by
  rw [attributeValue?, Option.bind_eq_some_iff] at h
  obtain ⟨e, he, hvalue⟩ := h
  obtain ⟨x, hx, he⟩ := Option.bind_eq_some_iff.1 he
  cases x with
  | element e' =>
    cases he
    exact ⟨e, hx, hvalue⟩
  | _ => cases he

theorem map_grayContent_of_none {d : Dom} {id : NodeId} (h : d.attributeValue? id "style" = none) :
    (d.content? id).map grayContent = d.content? id := by
  rw [attributeValue?, element?] at h
  cases hx : d.content? id with
  | none => rfl
  | some x =>
    cases x with
    | element e =>
      rw [hx] at h
      rw [Option.map_some, grayContent, map_grayAttribute_of_none h]
    | _ => rfl

theorem isElement_map_grayContent (x : Option Content) :
    ((x.map grayContent).bind Content.element?).isSome = (x.bind Content.element?).isSome := by
  rcases x with - | x
  · rfl
  · cases x <;> rfl

theorem tag?_map_grayContent (x : Option Content) :
    ((x.map grayContent).bind Content.element?).map Element.tag =
      (x.bind Content.element?).map Element.tag := by
  rcases x with - | x
  · rfl
  · cases x <;> rfl

/-- At its turn an attribute gets its grays, or stays if it is malformed. -/
theorem content?_reviseAttribute {id : NodeId}
    (hdistinct : ∀ e, s.dom.content? id = some (.element e) → Attribute.Distinct e.attributes)
    (i : NodeId) :
    (s.reviseAttribute .grayscale t id).dom.content? i =
      if i = id then (s.dom.content? i).map grayContent else s.dom.content? i := by
  unfold reviseAttribute
  cases hvalue : s.dom.attributeValue? id "style" with
  | none =>
    dsimp only
    split_ifs with hi
    · rw [hi, map_grayContent_of_none hvalue]
    · rfl
  | some style =>
    obtain ⟨e, he, hstyle⟩ := exists_of_attributeValue? hvalue
    have hmap := map_grayAttribute (hdistinct e he) hstyle
    unfold grayInline at hmap
    dsimp only
    cases hparse : Stylesheet.parseInline style with
    | error error =>
      rw [hparse] at hmap
      rw [Attribute.set_eq_self (hdistinct e he) hstyle] at hmap
      show s.dom.content? i = _
      split_ifs with hi
      · rw [hi, he, Option.map_some, grayContent, hmap]
      · rfl
    | ok sheet =>
      rw [hparse] at hmap
      refine (content?_setAttribute s.dom id "style" _ i).trans ?_
      split_ifs with hi
      · rw [hi, he, Option.map_some, Option.map_some, grayContent, hmap]
        rfl
      · rfl

/-- At its turn an attribute is counted. -/
theorem report_reviseAttribute {id : NodeId} {style : String}
    (hstyle : s.dom.attributeValue? id "style" = some style) :
    (s.reviseAttribute .grayscale t id).report =
      s.report + grayReport (Stylesheet.parseInline style) := by
  unfold reviseAttribute
  rw [hstyle]
  dsimp only
  cases Stylesheet.parseInline style with
  | error e => rfl
  | ok sheet =>
    rw [grayReport_ok]
    rfl

theorem links_reviseAttribute (s : Session) (id i : NodeId) :
    (s.reviseAttribute .grayscale t id).dom.children i = s.dom.children i ∧
      (s.reviseAttribute .grayscale t id).dom.size = s.dom.size := by
  unfold reviseAttribute
  split
  · exact ⟨rfl, rfl⟩
  · split
    · exact ⟨rfl, rfl⟩
    · exact ⟨children_modifyElement s.dom id _ i, size_modifyElement s.dom id _⟩

/-! ## All attributes -/

theorem attributeValue?_congr {d d' : Dom} {id : NodeId} (h : d'.content? id = d.content? id)
    (name : String) : d'.attributeValue? id name = d.attributeValue? id name := by
  rw [attributeValue?, element?, h]
  rfl

variable {ids : List NodeId}

/-- Each attribute gets its grays, and nothing else changes. -/
theorem foldl_reviseAttribute (hnodup : ids.Nodup)
    (hdistinct : ∀ id ∈ ids, ∀ e, s.dom.content? id = some (.element e) →
      Attribute.Distinct e.attributes) (i : NodeId) :
    let s' := ids.foldl (reviseAttribute .grayscale t) s
    s'.dom.content? i = (if i ∈ ids then (s.dom.content? i).map grayContent
        else s.dom.content? i) ∧
      s'.dom.children i = s.dom.children i ∧ s'.dom.size = s.dom.size := by
  induction ids generalizing s with
  | nil => exact ⟨rfl, rfl, rfl⟩
  | cons id ids ih =>
    rw [List.nodup_cons] at hnodup
    rw [List.forall_mem_cons] at hdistinct
    have hcontent := content?_reviseAttribute (t := t) hdistinct.1
    obtain ⟨hchildren, hsize⟩ := links_reviseAttribute (t := t) s id i
    obtain ⟨hcontent', hchildren', hsize'⟩ :=
        ih (s := s.reviseAttribute .grayscale t id) hnodup.2 fun j hj e he => by
      rw [hcontent, if_neg (ne_of_mem_of_not_mem hj hnodup.1)] at he
      exact hdistinct.2 j hj e he
    refine ⟨hcontent'.trans ?_, hchildren'.trans hchildren, hsize'.trans hsize⟩
    rw [hcontent]
    by_cases hi : i = id
    · rw [hi, if_neg hnodup.1, if_pos rfl, if_pos List.mem_cons_self]
    · simp [hi]

/-- Each attribute is counted. -/
theorem count_reviseAttributes {count : Report → Nat}
    (hadd : ∀ a b, count (a + b) = count a + count b) (hnodup : ids.Nodup)
    (hdistinct : ∀ id ∈ ids, ∀ e, s.dom.content? id = some (.element e) →
      Attribute.Distinct e.attributes)
    (hstyle : ∀ id ∈ ids, (s.dom.attributeValue? id "style").isSome) :
    count (ids.foldl (reviseAttribute .grayscale t) s).report = count s.report +
      (ids.map fun id => count (grayReport (Stylesheet.parseInline
        ((s.dom.attributeValue? id "style").getD "")))).sum := by
  induction ids generalizing s with
  | nil => rfl
  | cons id ids ih =>
    rw [List.nodup_cons] at hnodup
    rw [List.forall_mem_cons] at hdistinct hstyle
    have hsame : ∀ j ∈ ids, (s.reviseAttribute .grayscale t id).dom.content? j =
        s.dom.content? j := by
      intro j hj
      rw [content?_reviseAttribute hdistinct.1, if_neg (ne_of_mem_of_not_mem hj hnodup.1)]
    have hvalue := fun j hj => attributeValue?_congr (hsame j hj) "style"
    have ih := ih (s := s.reviseAttribute .grayscale t id) hnodup.2
      (fun j hj e he => hdistinct.2 j hj e (hsame j hj ▸ he))
      (fun j hj => hvalue j hj ▸ hstyle.2 j hj)
    obtain ⟨style, hsome⟩ := Option.isSome_iff_exists.1 hstyle.1
    rw [List.foldl_cons, ih, report_reviseAttribute hsome, hadd, List.map_cons, List.sum_cons,
      hsome, Option.getD_some, Nat.add_assoc]
    congr 3
    exact List.map_congr_left fun j hj => by rw [hvalue j hj]

/-! ## The `style` elements -/

/-- At its turn a `style` element is counted. -/
theorem report_turn_grayscale {id : NodeId} (hid : s.dom.isConnected id) :
    (s.turn .grayscale t id).report =
      s.report + grayReport (Stylesheet.parse (s.dom.textContent id)) := by
  rcases turn_cases .grayscale t s id with
    ⟨sheet, hsheet, heq⟩ | ⟨-, ⟨e, -, hparse, heq⟩ | ⟨hout, -⟩⟩
  · rw [heq, (sheetAt?_eq_some_iff.1 hsheet).2, grayReport_ok]
    rfl
  · rw [heq, hparse]
    rfl
  · rw [hid] at hout
    cases hout

theorem textAt?_grayscale {id : NodeId} (hid : s.dom.isConnected id) :
    (s.textAt? .grayscale t id).getD (s.dom.textContent id) = grayText (s.dom.textContent id) := by
  rw [textAt?, sheetAt?, if_pos hid, grayText]
  cases Stylesheet.parse (s.dom.textContent id) <;> rfl

theorem textAt?_grayscale_of_error {id : NodeId} {e : ParseError}
    (h : Stylesheet.parse (s.dom.textContent id) = .error e) :
    s.textAt? .grayscale t id = none := by
  rw [textAt?, sheetAt?, h]
  split_ifs <;> rfl

/-- The `style` elements get their grays, one after the other. -/
theorem reviseElements_grayscale {d : Dom} (hd : d.Tidy) (t : HiddenTarget) (log : Log) :
    let s := (start d log).reviseElements .grayscale t
    ∃ texts, d.Rewrites [] texts s.dom ∧ (∀ id, id ∉ d.styleElements → texts id = none) ∧
      (∀ id ∈ d.styleElements, (texts id).getD (d.textContent id) = grayText (d.textContent id) ∧
        ∀ e, Stylesheet.parse (d.textContent id) = .error e → texts id = none) ∧
      ∀ count : Report → Nat, (∀ a b, count (a + b) = count a + count b) →
        count s.report = count .zero + (d.styleElements.map fun id =>
          count (grayReport (Stylesheet.parse (d.textContent id)))).sum := by
  intro s
  obtain ⟨texts, h, hother, hturns⟩ := revises_styleElements hd
    (revises_start hd.wellFormed log) (k := .grayscale) (by decide) t
  have hfst := map_fst_turns .grayscale t d.styleElements (start d log)
  refine ⟨texts, h.rewrites, hother, fun id hid => ?_, fun count hadd => ?_⟩
  · obtain ⟨s₁, hs₁⟩ := exists_mem_turns hid (start d log)
    have hturn := hturns _ hs₁
    have hgets := hturn.gets
    have hholds : s₁.dom.textContent id = d.textContent id := hturn.holds
    dsimp only at hgets
    rw [hgets, Option.or_none, ← hholds]
    exact ⟨textAt?_grayscale hturn.connected, fun e he => textAt?_grayscale_of_error he⟩
  · have hcount := count_turns (k := .grayscale) (t := t) (fun s => count s.report)
      (fun p => if p.2.dom.isConnected p.1 then
        count (grayReport (Stylesheet.parse (p.2.dom.textContent p.1))) else 0) ?_
      d.styleElements (start d log)
    · refine hcount.trans (congrArg (count .zero + ·) (congrArg List.sum ?_))
      refine Eq.trans (List.map_congr_left fun p hp => ?_)
        (List.map_map.symm.trans (congrArg (List.map _) hfst))
      rw [if_pos (hturns p hp).connected, (hturns p hp).holds]
      rfl
    · intro s id
      dsimp only
      split_ifs with hconnected
      · rw [report_turn_grayscale hconnected, hadd]
      · rw [turn, if_neg hconnected]
        rfl

/-! ## Runs -/

/-- What the attributes do to a session when they get their grays. The elements and the attributes
are those of the document `d`. -/
structure InlineGrayed (d : Dom) (s s' : Session) : Prop where
  /-- The table of nodes is linked to a tree. -/
  wellFormed : s'.dom.WellFormed
  /-- The elements have grays in the attribute `style`. -/
  content : ∀ id ∈ d.elements, s'.dom.content? id = (d.content? id).map grayContent
  /-- Other nodes are what they were. -/
  other : ∀ i, d.isElement i = false → s'.dom.content? i = s.dom.content? i
  /-- Elements stay elements. -/
  isElement : ∀ i, s'.dom.isElement i = s.dom.isElement i
  /-- All nodes keep their children. -/
  children : ∀ i, s'.dom.children i = s.dom.children i
  /-- No node is made. -/
  size : s'.dom.size = s.dom.size
  /-- Each attribute is counted. -/
  counted : ∀ count : Report → Nat, (∀ a b, count (a + b) = count a + count b) →
    count s'.report = count s.report + (d.inlineStyleElements.map fun id =>
      count (grayReport (Stylesheet.parseInline ((d.attributeValue? id "style").getD "")))).sum

/-- After the `style` elements the attributes get their grays. -/
theorem reviseAttributes_grayscale {d : Dom} (hd : d.Tidy) {texts : NodeId → Option String}
    (h : d.Rewrites [] texts s.dom) (t : HiddenTarget) :
    InlineGrayed d s (s.reviseAttributes .grayscale t) := by
  have hids : s.dom.inlineStyleElements = d.inlineStyleElements := by
    rw [inlineStyleElements, h.elements_nil hd, inlineStyleElements]
    exact List.filter_congr fun id _ => by rw [h.attributeValue?_eq]
  have hnodup : d.inlineStyleElements.Nodup :=
    ((hd.wellFormed.nodup_descendants root).filter _).filter _
  have hsame : ∀ id ∈ d.elements, s.dom.content? id = d.content? id := fun id hid =>
    h.content id (lt_size_of_isElement (hd.wellFormed.mem_elements_iff.1 hid).2)
  have hdistinct : ∀ id ∈ d.inlineStyleElements, ∀ e,
      s.dom.content? id = some (.element e) → Attribute.Distinct e.attributes := by
    intro id hid e he
    have hid := List.mem_of_mem_filter hid
    exact hd.distinct_attributes hid (hsame id hid ▸ he)
  have hfold := foldl_reviseAttribute (t := t) hnodup hdistinct
  rw [reviseAttributes, hids]
  exact {
    wellFormed := (trims_foldl (fun s id hs => trims_reviseAttribute hs .grayscale t id) _
      h.wellFormed).wellFormed
    content := by
      intro id hid
      rw [(hfold id).1, hsame id hid]
      split_ifs with hmem
      · rfl
      · refine (map_grayContent_of_none (Option.not_isSome_iff_eq_none.1 fun hsome => ?_)).symm
        exact hmem (List.mem_filter.2 ⟨hid, hsome⟩)
    other := by
      intro i hi
      rw [(hfold i).1, if_neg]
      intro hmem
      rw [(hd.wellFormed.mem_elements_iff.1 (List.mem_of_mem_filter hmem)).2] at hi
      cases hi
    isElement := by
      intro i
      rw [isElement, element?, (hfold i).1]
      split_ifs
      · exact isElement_map_grayContent _
      · rfl
    children := fun i => (hfold i).2.1
    size := (hfold root).2.2
    counted := by
      intro count hadd
      have hcount := count_reviseAttributes (t := t) hadd hnodup hdistinct fun id hid => by
        rw [h.attributeValue?_eq]
        exact (List.mem_filter.1 hid).2
      simp only [h.attributeValue?_eq] at hcount
      exact hcount }

/-- Each source adds to a count what it adds to the report. -/
theorem count_grayscale {d : Dom} (hd : d.Tidy) (t : HiddenTarget) (log : Log)
    (count : Report → Nat) (hadd : ∀ a b, count (a + b) = count a + count b) :
    count ((start d log).run .grayscale t).report =
      count .zero + ((styleSources d).map fun r => count (grayReport r)).sum := by
  obtain ⟨texts, h, -, -, helements⟩ := reviseElements_grayscale hd t log
  have hrun := (reviseAttributes_grayscale hd h t).counted count hadd
  rw [helements count hadd, Nat.add_assoc] at hrun
  rw [styleSources, List.map_append, List.sum_append, List.map_map, List.map_map]
  exact hrun

/-- What a run that puts grays for colors has done to a document. -/
structure Grayed (d : Dom) (s : Session) : Prop where
  /-- The document has the same elements in the same order. -/
  elements : s.dom.elements = d.elements
  /-- They have the same tags and the same attributes, with grays in the attribute `style`. -/
  content : ∀ id ∈ d.elements, s.dom.content? id = (d.content? id).map grayContent
  /-- Other nodes are what they were. -/
  other : ∀ id < d.size, d.isElement id = false → s.dom.content? id = d.content? id
  /-- Only the `style` elements that are written get other children. -/
  children : ∀ id, (id ∈ d.styleElements → ∃ e, Stylesheet.parse (d.textContent id) = .error e) →
    s.dom.children id = d.children id
  /-- The `style` elements hold their sheets with grays. -/
  text : ∀ id ∈ d.styleElements, s.dom.textContent id = grayText (d.textContent id)
  /-- Every source is written or skipped. -/
  sources : s.report.sourcesRevised + s.report.sourcesSkipped =
    d.styleElements.length + d.inlineStyleElements.length
  /-- Nothing is removed. -/
  removed : s.report.rulesRemoved = 0 ∧ s.report.elementsRemoved = 0
  /-- The values that are replaced are counted. -/
  colors : s.report.colorsReplaced = ((styleSources d).map replacedIn).sum

/-- A run that puts grays for colors touches nothing else and accounts for every source. -/
theorem run_grayscale (html : String) (t : HiddenTarget) (log : Log) :
    let d := (parse html).dom
    Grayed d ((start d log).run .grayscale t) := by
  intro d
  have hd : d.Tidy := tidy_parse html
  have hcount := count_grayscale hd t log
  obtain ⟨texts, h, hother, htexts, -⟩ := reviseElements_grayscale hd t log
  have hinline : InlineGrayed d _ ((start d log).run .grayscale t) :=
    reviseAttributes_grayscale hd h t
  generalize (start d log).reviseElements .grayscale t = s₁ at h hinline
  generalize (start d log).run .grayscale t = s at hcount hinline ⊢
  exact {
    elements := by
      rw [← h.elements_nil hd, elements, elements,
        descendants_congr hinline.children hinline.size root]
      exact List.filter_congr fun i _ => hinline.isElement i
    content := hinline.content
    other := fun id hlt hid => (hinline.other id hid).trans (h.content id hlt)
    children := by
      intro id hid
      have hnone : texts id = none := by
        by_cases hmem : id ∈ d.styleElements
        · obtain ⟨e, he⟩ := hid hmem
          exact (htexts id hmem).2 e he
        · exact hother id hmem
      rw [hinline.children, h.children_nil hnone]
    text := by
      intro id hid
      have htag := tag?_of_mem_styleElements hid
      have hholds := h.holdsText hd htag
      rw [(htexts id hid).1] at hholds
      have hkept : s.dom.HoldsText id (grayText (d.textContent id)) := by
        refine hholds.congr (hinline.children id) (fun c hc => hinline.other c ?_) fun c _ hleaf =>
          (hinline.children c).trans hleaf
        rw [← h.isElement_eq]
        exact hholds.not_isElement hc
      have hstyle : s.dom.tag? id = some "style" := by
        rw [tag?, element?, hinline.content id (List.mem_of_mem_filter hid)]
        exact (tag?_map_grayContent _).trans htag
      exact hkept.textContent hinline.wellFormed hstyle
    sources := by
      have h := hcount (fun r => r.sourcesRevised + r.sourcesSkipped) fun a b =>
        Nat.add_add_add_comm _ _ _ _
      have hlength : (styleSources d).length =
          d.styleElements.length + d.inlineStyleElements.length := by
        simp [styleSources]
      rw [List.map_congr_left (g := fun _ => 1) fun r _ => by cases r <;> rfl] at h
      rw [h, ← hlength]
      simp [Report.zero]
    removed := by
      have hrules := hcount Report.rulesRemoved fun _ _ => rfl
      have helements := hcount Report.elementsRemoved fun _ _ => rfl
      rw [List.map_congr_left (g := fun _ => 0) fun r _ => by cases r <;> rfl] at hrules helements
      simpa [Report.zero] using And.intro hrules helements
    colors := by
      have h := hcount Report.colorsReplaced fun _ _ => rfl
      rw [List.map_congr_left (g := replacedIn) fun r _ => by cases r <;> rfl] at h
      exact h.trans (Nat.zero_add _) }

end Session

end Revision

end Restyle
