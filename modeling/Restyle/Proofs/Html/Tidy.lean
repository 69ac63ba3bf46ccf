import Restyle.Proofs.Dom.Changes
import Restyle.Proofs.Html.Written

/-!
# Trees that are read as they are written

`Dom.Tidy` says what the nodes of a tree need so that it is read back from its markup: each node
fits the place where it is. The marks of such a tree are `Written`. Taking nodes away and changing
attributes keeps a tree tidy (`Tidy.trim`), and so does a node put where it fits (`Tidy.addChild`).
-/

namespace Restyle

open Html

/-- Whether what a node stands for can be written. -/
def Content.Legible : Content → Prop
  | document => False
  | doctype name => (Mark.doctype name).Legible
  | element e => (Mark.start e).Legible
  | text _ => True
  | comment data => (Mark.comment data).Legible

namespace Attribute

theorem name_mem_set {name value : String} {as : List Attribute} {a : Attribute}
    (ha : a ∈ set name value as) : a.name = name ∨ ∃ b ∈ as, b.name = a.name := by
  unfold set at ha
  split_ifs at ha
  · obtain ⟨b, hb, rfl⟩ := List.mem_map.1 ha
    exact .inr ⟨b, hb, by split_ifs <;> rfl⟩
  · rcases List.mem_append.1 ha with ha | ha
    · exact .inr ⟨a, ha, rfl⟩
    · rw [List.mem_singleton.1 ha]
      exact .inl rfl

theorem find?_set_of_ne {name other : String} (hne : name ≠ other) (value : String)
    (as : List Attribute) : find? other (set name value as) = find? other as := by
  have hself : ∀ a : Attribute, (if a.name == name then { a with value } else a : Attribute).name =
      a.name := by
    intro a
    split_ifs <;> rfl
  unfold set
  split_ifs with hmem
  · clear hmem
    induction as with
    | nil => rfl
    | cons a as ih =>
      rw [find?, find?, List.map_cons, List.find?_cons, List.find?_cons, hself]
      cases hother : a.name == other with
      | true =>
        have hname : (a.name == name) = false := by
          rw [beq_iff_eq.1 hother, beq_eq_false_iff_ne]
          exact hne.symm
        simp [hname]
      | false => exact ih
  · have hnew : (name == other) = false := beq_eq_false_iff_ne.2 hne
    rw [find?, find?, List.find?_append, List.find?_cons, hnew, List.find?_nil, Option.or_none]

theorem distinct_set (name value : String) {as : List Attribute} (h : Distinct as) :
    Distinct (set name value as) := by
  unfold set
  split_ifs with hmem
  · refine List.pairwise_map.2 (h.imp fun {a b} hab => ?_)
    split_ifs <;> exact hab
  · simp only [mem, List.any_eq_true, beq_iff_eq, not_exists, not_and] at hmem
    refine List.pairwise_append.2 ⟨h, List.pairwise_singleton _ _, fun a ha b hb => ?_⟩
    rw [List.mem_singleton.1 hb]
    exact hmem a ha

end Attribute

namespace Dom

/-- Whether what is in a node stands inside the open elements with the given tags: the node is the
document, or an element at the end of a chain of elements. -/
inductive Inside (d : Dom) : NodeId → List String → Prop where
  /-- The document. -/
  | root : Inside d root []
  /-- An element in one of these nodes. -/
  | element {p c : NodeId} {tags : List String} {tag : String} (outer : Inside d p tags)
      (child : c ∈ d.children p) (hasTag : d.tag? c = some tag) : Inside d c (tag :: tags)

/-- Whether something can stand in a node. -/
structure Fits (d : Dom) (p : NodeId) (x : Content) : Prop where
  /-- The node is the document or an element with content. -/
  holder : p = root ∨ ∃ tag, d.tag? p = some tag ∧ isVoidTag tag = false
  /-- What stands in it can be written. -/
  legible : x.Legible
  /-- Document types stand in the document only. -/
  doctype : ∀ name, x = .doctype name → p = root
  /-- In an element such as `style` stands text without its end tag. -/
  text : ∀ tag, d.tag? p = some tag → isTextTag tag →
    ∃ data, x = .text data ∧ (rawTextTags.contains tag → LacksEndTag tag.toList data.toList)
  /-- The start tag of an element closes nothing around it. -/
  element : ∀ e tags, x = .element e → d.Inside p tags → impliedEnd e.tag tags = tags

/-- A tree whose nodes fit the places where they are. -/
structure Tidy (d : Dom) : Prop where
  /-- The table of nodes is linked to a tree. -/
  wellFormed : d.WellFormed
  /-- Children have larger numbers than their parents. -/
  ordered : d.Ordered
  /-- Nodes fit their parents. -/
  fits : ∀ p c x, c ∈ d.children p → d.content? c = some x → d.Fits p x
  /-- In an element such as `style` stands no more than one node. -/
  single : ∀ p tag, d.tag? p = some tag → isTextTag tag → (d.children p).length ≤ 1

/-- The texts of the `style` elements among some nodes. -/
def styleTexts (d : Dom) (ids : List NodeId) : List String :=
  (ids.filter fun id => d.tag? id == some "style").map d.textContent

variable {d d' : Dom}

theorem tag?_of_content? {i : NodeId} {x : Content} (h : d.content? i = some x) :
    d.tag? i = x.element?.map (·.tag) := by
  rw [tag?, element?, h]
  rfl

theorem styleTexts_append (ids ids' : List NodeId) :
    d.styleTexts (ids ++ ids') = d.styleTexts ids ++ d.styleTexts ids' := by
  rw [styleTexts, List.filter_append, List.map_append]
  rfl

theorem styleTexts_flatMap {α : Type} (xs : List α) (f : α → List NodeId) :
    d.styleTexts (xs.flatMap f) = xs.flatMap fun x => d.styleTexts (f x) := by
  induction xs with
  | nil => rfl
  | cons x xs ih => rw [List.flatMap_cons, styleTexts_append, ih, List.flatMap_cons]

theorem styleTexts_cons (id : NodeId) (ids : List NodeId) :
    d.styleTexts (id :: ids) =
      (if d.tag? id = some "style" then [d.textContent id] else []) ++ d.styleTexts ids := by
  rw [styleTexts, List.filter_cons]
  by_cases h : d.tag? id = some "style"
  · rw [if_pos (by simp [h]), if_pos h]
    rfl
  · rw [if_neg (by simp [h]), if_neg h]
    rfl

namespace Tidy

variable (h : d.Tidy)

include h

theorem head?_eq {p : NodeId} {tags : List String} (hp : d.Inside p tags) :
    d.tag? p = tags.head? := by
  cases hp with
  | root => exact tag?_of_content? h.wellFormed.root
  | element _ _ hasTag => exact hasTag

theorem exists_content {p c : NodeId} (hc : c ∈ d.children p) :
    ∃ n, d.node? c = some n ∧ n.parent = some p ∧ n.children = d.children c ∧
      d.content? c = some n.content ∧ d.Fits p n.content := by
  obtain ⟨n, hn⟩ := exists_node (h.wellFormed.child_lt p c hc)
  have hparent := (h.wellFormed.mem_children_iff p c).1 hc
  have hcontent : d.content? c = some n.content := by rw [content?, hn]; rfl
  refine ⟨n, hn, ?_, by rw [children, hn]; rfl, hcontent, h.fits p c _ hc hcontent⟩
  rwa [parent?, hn, Option.bind_some] at hparent

theorem root_notMem_children (p : NodeId) : root ∉ d.children p :=
  fun hmem => Nat.not_lt_zero _ (h.ordered p root hmem).1

/-- Only the document and elements with content have children. -/
theorem children_eq_nil {p c : NodeId} (hc : c ∈ d.children p)
    (hempty : ∀ tag, d.tag? c = some tag → isVoidTag tag) : d.children c = [] := by
  refine List.eq_nil_iff_forall_not_mem.2 fun k hk => ?_
  obtain ⟨n, -, -, -, -, hfits⟩ := h.exists_content hk
  rcases hfits.holder with rfl | ⟨tag, htag, hvoid⟩
  · exact h.root_notMem_children p hc
  · rw [hempty tag htag] at hvoid
    cases hvoid

theorem descendants_eq_nil {p c : NodeId} (hc : c ∈ d.children p)
    (hempty : ∀ tag, d.tag? c = some tag → isVoidTag tag) : d.descendants c = [] := by
  rw [h.wellFormed.descendants_eq, h.children_eq_nil hc hempty]
  rfl

/-- An element such as `style` holds a text. -/
theorem exists_text {c : NodeId} {tag : String} (htag : d.tag? c = some tag)
    (isText : isTextTag tag) :
    ∃ data : String, (d.children c).flatMap d.outerMarks = data.toList.map (.text (some tag)) ∧
      d.textContent c = data ∧ d.styleTexts (d.descendants c) = [] ∧
      (rawTextTags.contains tag → LacksEndTag tag.toList data.toList) ∧
      (∀ k ∈ d.children c, d.content? k = some (.text data)) ∧ (d.children c = [] → data = "") := by
  have hnotText : d.text? c = none := by
    rw [tag?, element?] at htag
    rw [text?]
    cases hx : d.content? c with
    | none => rfl
    | some x =>
      rw [hx] at htag
      cases x <;> first | rfl | cases htag
  have hcontent : d.textContent c = String.join ((d.descendants c).filterMap d.text?) := by
    rw [textContent, hnotText]
  have hlength := h.single c tag htag isText
  rw [hcontent, h.wellFormed.descendants_eq]
  cases hchildren : d.children c with
  | nil =>
    exact ⟨"", rfl, rfl, rfl, fun _ t ht hne => absurd (List.suffix_nil.1 ht) hne, by simp,
      fun _ => rfl⟩
  | cons k ks =>
    obtain rfl : ks = [] := by
      rw [hchildren, List.length_cons] at hlength
      exact List.eq_nil_of_length_eq_zero (by omega)
    have hk : k ∈ d.children c := by simp [hchildren]
    obtain ⟨n, hn, hparent, -, hx, hfits⟩ := h.exists_content hk
    obtain ⟨data, hdata, hlacks⟩ := hfits.text tag htag isText
    have htagk : d.tag? k = none := by rw [tag?_of_content? hx, hdata]; rfl
    have htext : d.text? k = some data := by rw [text?, hx, hdata]; rfl
    have hmarks : d.outerMarks k = data.toList.map (.text (some tag)) := by
      rw [outerMarks_eq h.ordered hn, nodeMarks, hdata, hparent, Option.bind_some, htag]
    rw [List.flatMap_singleton, List.flatMap_singleton, h.descendants_eq_nil hk (by simp [htagk])]
    refine ⟨data, hmarks, by simp [htext], ?_, hlacks, by simp [hx, hdata], by simp⟩
    rw [styleTexts_cons, htagk]
    rfl

theorem written_of_not_element {p c : NodeId} {tags : List String} (hp : d.Inside p tags)
    (hc : c ∈ d.children p) (htag : d.tag? c = none) :
    Written tags (d.outerMarks c) (d.styleTexts (c :: d.descendants c)) := by
  obtain ⟨n, hn, hparent, -, hx, hfits⟩ := h.exists_content hc
  rw [tag?_of_content? hx] at htag
  rw [h.descendants_eq_nil hc (by simp [tag?_of_content? hx, htag]), styleTexts_cons,
    tag?_of_content? hx, htag, if_neg (by simp), List.nil_append, outerMarks_eq h.ordered hn,
    nodeMarks]
  have hlegible := hfits.legible
  cases hcontent : n.content with
  | document =>
    rw [hcontent] at hlegible
    exact hlegible.elim
  | element e =>
    rw [hcontent] at htag
    cases htag
  | text data =>
    dsimp only
    rw [hparent, Option.bind_some, h.head?_eq hp]
    exact .text tags data.toList
  | comment data =>
    rw [hcontent] at hlegible
    exact .comment hlegible
  | doctype name =>
    rw [hcontent] at hlegible
    obtain rfl := hfits.doctype name hcontent
    cases hp with
    | root => exact .doctype hlegible
    | element _ child _ => exact absurd child (h.root_notMem_children _)

/-- The marks of a node can stand where the node is. -/
theorem written {p c : NodeId} {tags : List String} (hp : d.Inside p tags)
    (hplain : ∀ tag ∈ tags.head?, isTextTag tag = false) (hc : c ∈ d.children p) :
    Written tags (d.outerMarks c) (d.styleTexts (c :: d.descendants c)) := by
  induction hm : d.size - c using Nat.strongRecOn generalizing p c tags with
  | ind m ih =>
    obtain ⟨n, hn, -, hchildren, hx, hfits⟩ := h.exists_content hc
    have hlegible := hfits.legible
    cases hcontent : n.content with
    | element e =>
      rw [hcontent] at hlegible hx
      have htag : d.tag? c = some e.tag := tag?_of_content? hx
      have hsettled := hfits.element e tags hcontent hp
      rw [outerMarks_eq h.ordered hn, nodeMarks, hcontent, hchildren]
      dsimp only
      rw [styleTexts_cons, htag]
      by_cases isVoid : isVoidTag e.tag
      · have hstyle : some e.tag ≠ some "style" := by
          intro heq
          rw [Option.some.inj heq] at isVoid
          cases isVoid
        rw [if_pos isVoid, h.descendants_eq_nil hc (by simp [htag, isVoid]), if_neg hstyle]
        exact .void hlegible hsettled isVoid
      · rw [if_neg isVoid]
        by_cases isText : isTextTag e.tag
        · obtain ⟨data, hmarks, htext, hnone, hlacks, -⟩ := h.exists_text htag isText
          have hwritten := Written.textElement hlegible hsettled isText hlacks
          rw [hmarks, htext, hnone, List.append_nil]
          rw [String.ofList_toList] at hwritten
          simpa only [Option.some.injEq] using hwritten
        · rw [Bool.not_eq_true] at isText isVoid
          have hstyle : some e.tag ≠ some "style" := by
            intro heq
            rw [Option.some.inj heq] at isText
            cases isText
          rw [if_neg hstyle, List.nil_append, h.wellFormed.descendants_eq, styleTexts_flatMap]
          refine .element hlegible hsettled isVoid isText (.flatMap fun k hk => ?_)
          have hlt := h.ordered c k hk
          have hsize := h.wellFormed.child_lt p c hc
          exact ih (d.size - k) (by omega) (.element hp hc htag) (by simpa using isText) hk rfl
    | _ =>
      rw [hcontent] at hx
      exact h.written_of_not_element hp hc (tag?_of_content? hx)

/-- The marks of a tidy tree can be read one by one. -/
theorem written_marks : Written [] d.marks (d.styleTexts (d.descendants root)) := by
  rw [h.wellFormed.descendants_eq, styleTexts_flatMap]
  exact .flatMap fun c hc => h.written .root (by simp) hc

theorem styleTexts_marks : Mark.styleTexts d.marks = d.styleTexts d.elements := by
  have hwritten := h.written_marks.styleTexts []
  rw [List.append_nil] at hwritten
  rw [hwritten, Mark.styleTexts, List.append_nil, styleTexts, styleTexts, elements,
    List.filter_filter]
  congr 1
  refine List.filter_congr fun id _ => ?_
  rw [Bool.eq_iff_iff, Bool.and_eq_true, and_iff_left_of_imp]
  intro hstyle
  rw [beq_iff_eq, tag?, Option.map_eq_some_iff] at hstyle
  obtain ⟨e, he, -⟩ := hstyle
  rw [isElement, he]
  rfl

/-- The markup of a tidy tree is read as its marks if and only if no text of a `plaintext` element
starts markup. -/
theorem tokens_markup_iff :
    tokens d.markup = d.marks.map Mark.token ++ [.endOfFile] ↔ d.plainTextReadsBack := by
  have hnested := h.written_marks.nested [] .nil
  rw [List.append_nil] at hnested
  rw [tokens, toList_markup]
  exact hnested.run_iff (by simp)

theorem marks_parse_markup (hplain : d.plainTextReadsBack) :
    (parse d.markup).dom.marks = d.marks := by
  rw [parse, marks_build, h.tokens_markup_iff.2 hplain, h.written_marks.replays]
  simp [marksFrom]

end Tidy

/-! ## Changes -/

/-- Whether a tree is left of another one when nodes are taken away and attributes change. -/
structure Trims (d d' : Dom) : Prop where
  /-- The tree is one. -/
  wellFormed : d'.WellFormed
  /-- No node gets new children. -/
  children : ∀ i, (d'.children i).Sublist (d.children i)
  /-- Only attributes change, other than `type`, to some that can be written. -/
  content : ∀ i, d'.content? i = d.content? i ∨
    ∃ (e : Element) (as : List Attribute), d.content? i = some (.element e) ∧
      d'.content? i = some (.element { e with attributes := as }) ∧
      Attribute.find? "type" as = Attribute.find? "type" e.attributes ∧
      ((Mark.start e).Legible → (Mark.start { e with attributes := as }).Legible)

namespace Trims

variable {d'' : Dom}

theorem refl (h : d.WellFormed) : d.Trims d :=
  ⟨h, fun _ => List.Sublist.refl _, fun _ => .inl rfl⟩

theorem trans (h : d.Trims d') (h' : d'.Trims d'') : d.Trims d'' := by
  refine ⟨h'.wellFormed, fun i => (h'.children i).trans (h.children i), fun i => ?_⟩
  rcases h'.content i with heq' | ⟨e', as', hd', hd'', htype', hlegible'⟩
  · rw [heq']
    exact h.content i
  · rcases h.content i with heq | ⟨e, as, hd, hd₁, htype, hlegible⟩
    · exact .inr ⟨e', as', heq ▸ hd', hd'', htype', hlegible'⟩
    · obtain rfl : { e with attributes := as } = e' := by
        rw [hd₁] at hd'
        cases hd'
        rfl
      exact .inr ⟨e, as', hd, hd'', htype'.trans htype, fun hstart => hlegible' (hlegible hstart)⟩

theorem removeChild (h : d.WellFormed) (p c : NodeId) : d.Trims (d.removeChild p c) := by
  refine ⟨h.removeChild p c, fun i => ?_, fun i => .inl (content?_removeChild d p c i)⟩
  rw [children_removeChild]
  split_ifs with hi
  · rw [hi]
    exact List.erase_sublist
  · exact List.Sublist.refl _

theorem detach (h : d.WellFormed) (id : NodeId) : d.Trims (d.detach id) := by
  unfold Dom.detach
  split
  · exact removeChild h _ _
  · exact refl h

theorem foldl_removeChild (h : d.WellFormed) (p : NodeId) (cs : List NodeId) :
    d.Trims (cs.foldl (fun d c => d.removeChild p c) d) := by
  induction cs generalizing d with
  | nil => exact refl h
  | cons c cs ih => exact (removeChild h p c).trans (ih (h.removeChild p c))

theorem setAttribute (h : d.WellFormed) (id : NodeId) {name : String}
    (hname : name.toList.all isAttributeChar) (hne : name ≠ "type") (value : String) :
    d.Trims (d.setAttribute id name value) := by
  refine ⟨h.modifyElement id _, fun i => ?_, fun i => ?_⟩
  · rw [Dom.setAttribute, children_modifyElement]
  · rcases content?_modifyElement d id
      (fun e => { e with attributes := Attribute.set name value e.attributes }) i
      with heq | ⟨e, he, he'⟩
    · exact .inl heq
    · refine .inr ⟨e, _, he, he', Attribute.find?_set_of_ne hne value _, fun hlegible =>
        ⟨hlegible.1, fun a ha => ?_, Attribute.distinct_set name value hlegible.2.2⟩⟩
      rcases Attribute.name_mem_set ha with heq | ⟨b, hb, heq⟩
      · rwa [heq]
      · exact heq ▸ hlegible.2.1 b hb

theorem tag?_eq (h : d.Trims d') (i : NodeId) : d'.tag? i = d.tag? i := by
  rw [tag?, element?, tag?, element?]
  rcases h.content i with heq | ⟨e, as, hd, hd', -⟩
  · rw [heq]
  · rw [hd, hd']
    rfl

theorem inside (h : d.Trims d') {p : NodeId} {tags : List String} (hp : d'.Inside p tags) :
    d.Inside p tags := by
  induction hp with
  | root => exact .root
  | element _ child hasTag ih =>
    exact .element ih ((h.children _).subset child) (h.tag?_eq _ ▸ hasTag)

end Trims

theorem Tidy.trim (h : d.Tidy) (ht : d.Trims d') : d'.Tidy where
  wellFormed := ht.wellFormed
  ordered i c hc := ⟨(h.ordered i c ((ht.children i).subset hc)).1, ht.wellFormed.child_lt i c hc⟩
  fits p c x hc hx := by
    have hc := (ht.children p).subset hc
    rcases ht.content c with heq | ⟨e, as, hd, hd', -, hlegible⟩
    · have hfits := h.fits p c x hc (heq ▸ hx)
      refine ⟨?_, hfits.legible, hfits.doctype, ?_, fun e tags he hp => ?_⟩
      · rw [ht.tag?_eq]
        exact hfits.holder
      · rw [ht.tag?_eq]
        exact hfits.text
      · exact hfits.element e tags he (ht.inside hp)
    · have hfits := h.fits p c _ hc hd
      obtain rfl : .element { e with attributes := as } = x := Option.some.inj (hd'.symm.trans hx)
      refine ⟨?_, hlegible hfits.legible, by simp, ?_, fun e' tags he hp => ?_⟩
      · rw [ht.tag?_eq]
        exact hfits.holder
      · rw [ht.tag?_eq]
        intro tag htag isText
        obtain ⟨data, hdata, -⟩ := hfits.text tag htag isText
        cases hdata
      · cases he
        exact hfits.element e tags rfl (ht.inside hp)
  single p tag htag isText := by
    rw [ht.tag?_eq] at htag
    exact ((ht.children p).length_le).trans (h.single p tag htag isText)

section

variable {p : NodeId} {x : Content} (hp : p < d.size)

include hp

/-- A new node is inside nothing but what it is put into. -/
theorem inside_of_addChild {i : NodeId} {tags : List String} (hi : i ≠ d.size)
    (hin : (d.addChild p x).Inside i tags) (hd : d.Ordered) : d.Inside i tags := by
  induction hin with
  | root => exact .root
  | @element q c tags tag outer child hasTag ih =>
    have hold := ((mem_children_addChild hp).1 child).resolve_right fun h => hi h.2
    have hlt := hd q c hold
    rw [tag?_addChild hp hi] at hasTag
    exact .element (ih (Nat.ne_of_lt (Nat.lt_trans hlt.1 hlt.2))) hold hasTag

theorem Fits.addChild (hd : d.Ordered) {q : NodeId} {y : Content} (hq : q ≠ d.size)
    (h : d.Fits q y) : (d.addChild p x).Fits q y := by
  refine ⟨?_, h.legible, h.doctype, ?_, fun e tags he hin => ?_⟩
  · rw [tag?_addChild hp hq]
    exact h.holder
  · rw [tag?_addChild hp hq]
    exact h.text
  · exact h.element e tags he (inside_of_addChild hp hq hin hd)

/-- A tree stays tidy when a node is put where it fits. -/
theorem Tidy.addChild (h : d.Tidy) (hx : d.Fits p x)
    (hfree : ∀ tag, d.tag? p = some tag → isTextTag tag → d.children p = []) :
    (d.addChild p x).Tidy where
  wellFormed := h.wellFormed.addChild hp x
  ordered i c hc := by
    refine ⟨?_, (h.wellFormed.addChild hp x).child_lt i c hc⟩
    rcases (mem_children_addChild hp).1 hc with hc | ⟨rfl, rfl⟩
    · exact (h.ordered i c hc).1
    · exact hp
  fits q c y hc hy := by
    rcases (mem_children_addChild hp).1 hc with hc | ⟨rfl, rfl⟩
    · have hlt := h.ordered q c hc
      rw [content?_addChild hp (Nat.ne_of_lt hlt.2)] at hy
      exact (h.fits q c y hc hy).addChild hp h.ordered (Nat.ne_of_lt (Nat.lt_trans hlt.1 hlt.2))
    · rw [content?, node?_addChild hp, if_pos rfl] at hy
      obtain rfl : x = y := Option.some.inj hy
      exact hx.addChild hp h.ordered (Nat.ne_of_lt hp)
  single q tag htag isText := by
    rw [children_addChild hp]
    by_cases hq : q = d.size
    · rw [hq, if_neg (Nat.ne_of_gt hp), children_eq_nil_of_size_le (Nat.le_refl _)]
      exact Nat.zero_le _
    · rw [tag?_addChild hp hq] at htag
      split_ifs with hqp
      · subst hqp
        rw [hfree tag htag isText]
        exact Nat.le_refl _
      · exact h.single q tag htag isText

end

end Dom

end Restyle
