import Restyle.Proofs.Html.TidyDocument
import Restyle.Proofs.Revision.Containment

/-!
# The style sheets of a revised document

A pass takes nodes away, changes attributes and replaces the text of `style` elements by the text of
a revised sheet. Main statement: where no comment of a style sheet opens inside what may be an end
tag, the revised document is read from its markup with the same texts of `style` elements, and no
end tag is in one of them (`runPipeline_contained`). Without that condition a comment that goes
makes an end tag (`runPipeline_breaks_out`).
-/

namespace Restyle

open Css Html

namespace Dom

variable {d d' : Dom} {whole : Prop}

theorem isStyleElement_congr {i : NodeId} (h : d'.content? i = d.content? i) :
    d'.isStyleElement i = d.isStyleElement i := by
  rw [isStyleElement, isStyleElement, tag?, attributeValue?, element?, tag?, attributeValue?,
    element?, h]

theorem Trims.isStyleElement_eq (h : d.Trims d') (i : NodeId) :
    d'.isStyleElement i = d.isStyleElement i := by
  rcases h.content i with heq | ⟨e, as, hd, hd', htype, -⟩
  · exact isStyleElement_congr heq
  · rw [isStyleElement, isStyleElement, h.tag?_eq]
    congr 2
    rw [attributeValue?, element?, attributeValue?, element?, hd, hd']
    exact htype

theorem Trims.content?_of_text (h : d.Trims d') {i : NodeId} {data : String}
    (hi : d'.content? i = some (.text data)) : d.content? i = some (.text data) := by
  rcases h.content i with heq | ⟨e, as, -, hd', -⟩
  · exact heq ▸ hi
  · rw [hd'] at hi
    cases hi

theorem tag?_of_isStyleElement {i : NodeId} (h : d.isStyleElement i) :
    d.tag? i = some "style" := by
  rw [isStyleElement, Bool.and_eq_true, beq_iff_eq] at h
  exact h.1

/-- The elements of a tidy tree are those at the end of a chain of elements. -/
theorem Tidy.mem_elements_iff (h : d.Tidy) {id : NodeId} :
    id ∈ d.elements ↔ d.AtOrAbove root id ∧ ∃ tag, d.tag? id = some tag := by
  have hroot : d.tag? root = none := tag?_of_content? h.wellFormed.root
  have helement : d.isElement id ↔ ∃ tag, d.tag? id = some tag := by
    rw [isElement, tag?]
    cases d.element? id <;> simp
  rw [elements, List.mem_filter, h.wellFormed.mem_descendants_iff, helement, atOrAbove_iff]
  refine and_congr_left fun htagged => (or_iff_right ?_).symm
  obtain ⟨tag, htag⟩ := htagged
  rintro rfl
  rw [hroot] at htag
  cases htag

theorem Tidy.exists_inside (h : d.Tidy) {id : NodeId} (hid : d.AtOrAbove root id) {tag : String}
    (htag : d.tag? id = some tag) : ∃ tags, d.Inside id tags := by
  induction hid generalizing tag with
  | refl => exact ⟨[], .root⟩
  | @tail p c _ hc ih =>
    have hmem := (h.wellFormed.mem_children_iff p c).2 hc
    obtain ⟨n, -, -, -, -, hfits⟩ := h.exists_content hmem
    rcases hfits.holder with rfl | ⟨tag', htag', -⟩
    · exact ⟨_, .element .root hmem htag⟩
    · obtain ⟨tags, hin⟩ := ih htag'
      exact ⟨_, .element hin hmem htag⟩

theorem Tidy.atOrAbove (h : d.Tidy) {id : NodeId} {tags : List String} (hid : d.Inside id tags) :
    d.AtOrAbove root id := by
  induction hid with
  | root => exact .refl
  | element _ child _ ih => exact ih.tail ((h.wellFormed.mem_children_iff _ _).1 child)

/-- The text of a `style` element is that of the one child it has, if it has any. -/
theorem Tidy.textContent_cases (h : d.Tidy) {id : NodeId} (hid : d.AtOrAbove root id)
    (htag : d.tag? id = some "style") :
    d.textContent id = "" ∨ ∃ tags c, d.Inside id tags ∧ c ∈ d.children id ∧
      d.content? c = some (.text (d.textContent id)) := by
  obtain ⟨tags, hin⟩ := h.exists_inside hid htag
  obtain ⟨data, -, htext, -, -, hdata, hempty⟩ := h.exists_text htag rfl
  rw [htext]
  cases hchildren : d.children id with
  | nil => exact .inl (hempty hchildren)
  | cons c cs =>
    have hc : c ∈ d.children id := by simp [hchildren]
    exact .inr ⟨tags, c, hin, by simp, hdata c hc⟩

/-! ## Sealed documents -/

/-- A tidy tree with contained texts in its style sheets. If `whole` holds, no text of a `style`
element ends in a part of an end tag. -/
structure Sealed (whole : Prop) (d : Dom) : Prop where
  /-- The tree is read as it is written. -/
  tidy : d.Tidy
  /-- Style sheets stay inside their elements. -/
  contained : ∀ p tags c data, d.Inside p tags → d.isStyleElement p → c ∈ d.children p →
    d.content? c = some (.text data) → Contained data.toList
  /-- No text ends in a part of an end tag. -/
  whole : whole → ∀ p tags c data, d.Inside p tags → d.tag? p = some "style" →
    c ∈ d.children p → d.content? c = some (.text data) → endsInTag data.toList = false

namespace Sealed

variable (h : d.Sealed whole)

include h

theorem trim (ht : d.Trims d') : d'.Sealed whole where
  tidy := h.tidy.trim ht
  contained p tags c data hp hstyle hc hdata :=
    h.contained p tags c data (ht.inside hp) (ht.isStyleElement_eq p ▸ hstyle)
      ((ht.children p).subset hc) (ht.content?_of_text hdata)
  whole hwhole p tags c data hp hstyle hc hdata :=
    h.whole hwhole p tags c data (ht.inside hp) (ht.tag?_eq p ▸ hstyle)
      ((ht.children p).subset hc) (ht.content?_of_text hdata)

theorem contained_textContent {id : NodeId} (hid : d.isConnected id)
    (hstyle : d.isStyleElement id) : Contained (d.textContent id).toList := by
  have hid := h.tidy.wellFormed.isConnected_iff.1 hid
  rcases h.tidy.textContent_cases hid (tag?_of_isStyleElement hstyle) with
    hempty | ⟨tags, c, hin, hc, hdata⟩
  · rw [hempty]
    exact .nil
  · exact h.contained id tags c _ hin hstyle hc hdata

/-- A contained text can be put into an empty `style` element. -/
theorem addText {id : NodeId} (htag : d.tag? id = some "style") (hnone : d.children id = [])
    {text : String} (htext : Contained text.toList) (hend : endsInTag text.toList = false) :
    (d.addChild id (.text text)).Sealed whole := by
  have hlt := lt_size_of_tag? htag
  have hfits : d.Fits id (.text text) := by
    refine ⟨.inr ⟨"style", htag, rfl⟩, trivial, by simp,
      fun tag htag' _ => ⟨text, rfl, fun _ => ?_⟩, by simp⟩
    obtain rfl := Option.some.inj (htag.symm.trans htag')
    exact (contained_iff.1 htext).1
  have hnew : (d.addChild id (.text text)).content? d.size = some (.text text) := by
    rw [content?, node?_addChild hlt, if_pos rfl]
    rfl
  -- What was inside of an element is so still, as it was.
  have hkept : ∀ {p c : NodeId} {tags : List String}, (d.addChild id (.text text)).Inside p tags →
      c ∈ d.children p → d.Inside p tags ∧
        (d.addChild id (.text text)).content? p = d.content? p ∧
          (d.addChild id (.text text)).content? c = d.content? c := by
    intro p c tags hp hc
    have hlink := h.tidy.ordered p c hc
    have hne := Nat.ne_of_lt (Nat.lt_trans hlink.1 hlink.2)
    exact ⟨inside_of_addChild hlt hne hp h.tidy.ordered, content?_addChild hlt hne,
      content?_addChild hlt (Nat.ne_of_lt hlink.2)⟩
  refine ⟨h.tidy.addChild hlt hfits fun _ _ _ => hnone, ?_, ?_⟩
  · intro p tags c data hp hstyle hc hdata
    rcases (mem_children_addChild hlt).1 hc with hc | ⟨rfl, rfl⟩
    · obtain ⟨hin, hpx, hcx⟩ := hkept hp hc
      rw [isStyleElement_congr hpx] at hstyle
      exact h.contained p tags c data hin hstyle hc (hcx ▸ hdata)
    · rw [hnew] at hdata
      cases hdata
      exact htext
  · intro hwhole p tags c data hp htag' hc hdata
    rcases (mem_children_addChild hlt).1 hc with hc | ⟨rfl, rfl⟩
    · obtain ⟨hin, hpx, hcx⟩ := hkept hp hc
      rw [tag?, element?, hpx] at htag'
      exact h.whole hwhole p tags c data hin htag' hc (hcx ▸ hdata)
    · rw [hnew] at hdata
      cases hdata
      exact hend

/-- A contained text can be put in the place of the text of a `style` element. -/
theorem setText {id : NodeId} (htag : d.tag? id = some "style") {text : String}
    (htext : Contained text.toList) (hend : endsInTag text.toList = false) :
    (d.setText id text).Sealed whole ∧
      ∀ i, d.isStyleElement i → (d.setText id text).isStyleElement i := by
  have htrims := Trims.foldl_removeChild h.tidy.wellFormed id (d.children id)
  have hbare := h.trim htrims
  have hstyle := htrims.isStyleElement_eq
  have hnone := children_foldl_removeChild (d := d) (p := id) rfl id
  rw [if_pos rfl] at hnone
  rw [← htrims.tag?_eq] at htag
  unfold Dom.setText
  dsimp only
  generalize (d.children id).foldl (fun d c => d.removeChild id c) d = bare at *
  split_ifs
  · exact ⟨hbare, fun i hi => (hstyle i).trans hi⟩
  · refine ⟨hbare.addText htag hnone htext hend, fun i hi => ?_⟩
    have hi : bare.isStyleElement i := (hstyle i).trans hi
    have hne := Nat.ne_of_lt (lt_size_of_tag? (tag?_of_isStyleElement hi))
    rwa [isStyleElement_congr (content?_addChild (lt_size_of_tag? htag) hne)]

end Sealed

/-- A tidy tree is sealed if no comment of a style sheet opens inside what may be an end tag. -/
theorem Tidy.sealed (h : d.Tidy)
    (hhides : ∀ id ∈ d.styleElements, hidesTag (d.textContent id).toList = false) :
    d.Sealed (∀ text ∈ d.styleTexts d.elements, endsInTag text.toList = false) := by
  have hdata : ∀ {p c : NodeId} {tags : List String} {data : String}, d.Inside p tags →
      d.tag? p = some "style" → c ∈ d.children p → d.content? c = some (.text data) →
      p ∈ d.elements ∧ d.textContent p = data ∧ LacksEndTag "style".toList data.toList := by
    intro p c tags data hp htag hc hx
    obtain ⟨data', -, htext, -, hlacks, hdata', -⟩ := h.exists_text htag rfl
    obtain rfl : data' = data := by
      have heq := (hdata' c hc).symm.trans hx
      cases heq
      rfl
    exact ⟨h.mem_elements_iff.2 ⟨h.atOrAbove hp, _, htag⟩, htext, hlacks rfl⟩
  refine ⟨h, fun p tags c data hp hstyle hc hx => ?_, fun hwhole p tags c data hp htag hc hx => ?_⟩
  · obtain ⟨hmem, htext, hlacks⟩ := hdata hp (tag?_of_isStyleElement hstyle) hc hx
    have hhidden := hhides p (List.mem_filter.2 ⟨hmem, hstyle⟩)
    rw [htext] at hhidden
    exact contained_iff.2 ⟨hlacks, hhidden⟩
  · obtain ⟨hmem, htext, -⟩ := hdata hp htag hc hx
    have hend := hwhole (d.textContent p) (List.mem_map.2
      ⟨p, List.mem_filter.2 ⟨hmem, by simp [htag]⟩, rfl⟩)
    rwa [htext] at hend

end Dom

namespace Revision.Session

open Dom

variable {s : Session} {whole : Prop}

/-! ## Steps that take nodes away -/

theorem trims_removeMatch (h : s.dom.WellFormed) (selector : String) :
    s.dom.Trims (s.removeMatch selector).dom := by
  unfold removeMatch
  dsimp only
  split
  · exact Trims.detach h _
  · exact Trims.refl h

theorem trims_foldl {α : Type} {f : Session → α → Session}
    (hf : ∀ (s : Session) (a : α), s.dom.WellFormed → s.dom.Trims (f s a).dom) (as : List α)
    {s : Session}
    (h : s.dom.WellFormed) : s.dom.Trims (as.foldl f s).dom := by
  induction as generalizing s with
  | nil => exact Trims.refl h
  | cons a as ih => exact (hf s a h).trans (ih (hf s a h).wellFormed)

theorem trims_prepare (h : s.dom.WellFormed) (k : PassKind) (t : HiddenTarget) :
    s.dom.Trims (s.prepare k t).dom := by
  cases k with
  | removeHidden =>
    refine trims_foldl (fun s id hs => ?_) _ h
    split_ifs
    · exact Trims.detach hs id
    · exact Trims.refl hs
  | grayscale | deadCode => exact Trims.refl h

theorem trims_reviseSheet (h : s.dom.WellFormed) (k : PassKind) (t : HiddenTarget)
    (sheet : Stylesheet) : s.dom.Trims (s.reviseSheet k t sheet).2.dom := by
  cases k with
  | removeHidden =>
    exact trims_foldl (s := s.countRules _) (fun _ selector hs => trims_removeMatch hs selector) _ h
  | grayscale | deadCode => exact Trims.refl h

theorem trims_reviseAttribute (h : s.dom.WellFormed) (k : PassKind) (t : HiddenTarget)
    (id : NodeId) : s.dom.Trims (s.reviseAttribute k t id).dom := by
  unfold reviseAttribute
  split
  · exact Trims.refl h
  · split
    · exact Trims.refl h
    · have hsheet := fun sheet => trims_reviseSheet h k t sheet
      exact (hsheet _).trans (Trims.setAttribute (hsheet _).wellFormed id (by decide) (by decide) _)

/-! ## Passes -/

/-- What a pass makes of a style sheet stays inside its element. -/
theorem sealed_reviseElement (h : s.dom.Sealed whole) (k : PassKind) (t : HiddenTarget)
    {id : NodeId} (hid : s.dom.isConnected id) (hstyle : s.dom.isStyleElement id) :
    (s.reviseElement k t id).dom.Sealed whole ∧
      ∀ i, s.dom.isStyleElement i → (s.reviseElement k t id).dom.isStyleElement i := by
  unfold reviseElement
  split
  · exact ⟨h, fun _ hi => hi⟩
  · rename_i sheet hsheet
    have htrims := trims_reviseSheet h.tidy.wellFormed k t sheet
    obtain ⟨hcontained, hend⟩ :=
      contained_reviseSheet k t s hsheet (h.contained_textContent hid hstyle)
    have htag := tag?_of_isStyleElement ((htrims.isStyleElement_eq id).trans hstyle)
    obtain ⟨hsealed, hstyles⟩ := (h.trim htrims).setText htag hcontained hend
    exact ⟨hsealed, fun i hi => hstyles i ((htrims.isStyleElement_eq i).trans hi)⟩

theorem sealed_reviseElements (h : s.dom.Sealed whole) (k : PassKind) (t : HiddenTarget) :
    (s.reviseElements k t).dom.Sealed whole := by
  have hall : ∀ id ∈ s.dom.styleElements, s.dom.isStyleElement id :=
    fun id hid => (List.mem_filter.1 hid).2
  unfold reviseElements
  generalize s.dom.styleElements = ids at hall
  induction ids generalizing s with
  | nil => exact h
  | cons id ids ih =>
    rw [List.forall_mem_cons] at hall
    rw [List.foldl_cons]
    split_ifs with hid
    · obtain ⟨hsealed, hstyles⟩ := sealed_reviseElement h k t hid hall.1
      exact ih hsealed fun i hi => hstyles i (hall.2 i hi)
    · exact ih h hall.2

theorem sealed_run (h : s.dom.Sealed whole) (k : PassKind) (t : HiddenTarget) :
    (s.run k t).dom.Sealed whole := by
  have hprepared := h.trim (trims_prepare h.tidy.wellFormed k t)
  have helements := sealed_reviseElements hprepared k t
  unfold run
  dsimp only
  split_ifs
  · exact helements.trim (trims_foldl (fun _ id hs => trims_reviseAttribute hs k t id) _
      helements.tidy.wellFormed)
  · exact helements

theorem sealed_runPipeline (h : s.dom.Sealed whole) (p : Pipeline) :
    (s.runPipeline p).dom.Sealed whole := by
  unfold runPipeline
  generalize hs : ({ s with log := s.log.forget } : Session) = s'
  have h' : s'.dom.Sealed whole := hs ▸ h
  clear hs
  induction p.passes generalizing s' with
  | nil => exact h'
  | cons k ks ih => exact ih _ (sealed_run h' k p.hidden)

/-! ## Documents -/

/-- A revised document has no end tag in the text of a `style` element, and none that is cut off at
the end of the text if it had none before. Its markup is read as its marks if and only if no text of
a `plaintext` element starts markup, and then the texts of the `style` elements are the same. All
this holds where no comment of a style sheet opens inside what may be an end tag. -/
theorem runPipeline_contained (html : String) (p : Pipeline) (log : Log)
    (hhides : ∀ id ∈ (parse html).dom.styleElements,
      hidesTag ((parse html).dom.textContent id).toList = false) :
    let source := (parse html).dom
    let d := ((start source log).runPipeline p).dom
    (∀ text ∈ d.styleTexts d.elements, LacksEndTag "style".toList text.toList) ∧
      ((∀ text ∈ source.styleTexts source.elements, endsInTag text.toList = false) →
        ∀ text ∈ d.styleTexts d.elements, ∀ r, r <:+ text.toList →
          startsEndTag "style".toList r = false) ∧
      (tokens d.markup = d.marks.map Mark.token ++ [.endOfFile] ↔ d.plainTextReadsBack) ∧
      (d.plainTextReadsBack →
        let d' := (parse d.markup).dom
        d'.marks = d.marks ∧ d'.styleTexts d'.elements = d.styleTexts d.elements) := by
  intro source d
  have hsealed : d.Sealed _ := sealed_runPipeline ((tidy_parse html).sealed hhides) p
  have htexts : ∀ text ∈ d.styleTexts d.elements, ∃ id, d.AtOrAbove root id ∧
      d.tag? id = some "style" ∧ d.textContent id = text := by
    intro text htext
    obtain ⟨id, hid, rfl⟩ := List.mem_map.1 htext
    obtain ⟨hid, hstyle⟩ := List.mem_filter.1 hid
    exact ⟨id, (hsealed.tidy.mem_elements_iff.1 hid).1, beq_iff_eq.1 hstyle, rfl⟩
  have hlacks : ∀ text ∈ d.styleTexts d.elements, LacksEndTag "style".toList text.toList := by
    intro text htext
    obtain ⟨id, -, htag, rfl⟩ := htexts text htext
    obtain ⟨data, -, hdata, -, hlacks, -⟩ := hsealed.tidy.exists_text htag rfl
    rw [hdata]
    exact hlacks rfl
  refine ⟨hlacks, fun hwhole text htext r hr => ?_, hsealed.tidy.tokens_markup_iff,
    fun hplain => ?_⟩
  · refine startsEndTag_of_lacksEndTag (hlacks text htext) ?_ hr
    obtain ⟨id, hid, htag, rfl⟩ := htexts text htext
    rcases hsealed.tidy.textContent_cases hid htag with hempty | ⟨tags, c, hin, hc, hdata⟩
    · rw [hempty]
      rfl
    · exact hsealed.whole hwhole id tags c _ hin htag hc hdata
  · have hmarks := hsealed.tidy.marks_parse_markup hplain
    refine ⟨hmarks, ?_⟩
    rw [← (tidy_parse _).styleTexts_marks, hmarks, hsealed.tidy.styleTexts_marks]

/-- A comment in front of a lone `<` goes. -/
theorem runPipeline_contained_lone_lt :
    let source := (parse "<style>a/*x*/<b\x7bcolor:red\x7d</style>").dom
    let d := ((start source .empty).runPipeline ⟨[.grayscale], .standard⟩).dom
    let d' := (parse d.markup).dom
    d.styleTexts d.elements = ["a<b\x7bcolor:#4c4c4c\x7d"] ∧
      (∀ text ∈ d.styleTexts d.elements, ∀ r, r <:+ text.toList →
        startsEndTag "style".toList r = false) ∧
      d'.styleTexts d'.elements = d.styleTexts d.elements := by
  intro source d d'
  obtain ⟨-, hwhole, -, hreads⟩ := runPipeline_contained
    "<style>a/*x*/<b\x7bcolor:red\x7d</style>" ⟨[.grayscale], .standard⟩ .empty (by decide +kernel)
  exact ⟨by decide +kernel, hwhole (by decide +kernel), (hreads (by decide +kernel)).2⟩

/-- A comment between a `<` and a slash goes, and with it the element ends before its text does. -/
theorem runPipeline_breaks_out :
    let source := (parse "<style>a<//**/style>\x7b\x7d</style>").dom
    let d := ((start source .empty).runPipeline ⟨[.grayscale], .standard⟩).dom
    let d' := (parse d.markup).dom
    d.styleTexts d.elements = ["a</style>\x7b\x7d"] ∧
      startsEndTag "style".toList "</style>\x7b\x7d".toList ∧
      d'.styleTexts d'.elements = ["a"] := by
  decide +kernel

end Revision.Session

end Restyle
