import Restyle.Proofs.Html.Tidy

/-!
# Documents that are built tidy

A builder that reads the tokens of a text puts every node where it fits: the open elements are a
chain of elements whose start tags close nothing around them, and the text of an element such as
`style` is the one node in it. So the document that a text describes is tidy (`tidy_parse`).
-/

namespace Restyle

namespace Dom

open Html

variable {d : Dom} {frames : List Frame}

/-- The innermost open element is inside the open elements. -/
theorem Growing.inside (h : Growing d frames) :
    d.Inside (current frames) (frames.map (·.tag)) := by
  induction frames with
  | nil => exact .root
  | cons f outer ih =>
    refine .element (ih h.tail) h.mem_children ?_
    have htag := h.tag?_current
    exact htag

/-- The open elements have content. -/
theorem Growing.holder (h : Growing d frames) :
    current frames = Dom.root ∨
      ∃ tag, d.tag? (current frames) = some tag ∧ isVoidTag tag = false := by
  cases frames with
  | nil => exact .inl rfl
  | cons f outer => exact .inr ⟨f.tag, h.tag?_current, h.spine.2.1⟩

/-- A node is inside one list of elements. -/
theorem Tidy.inside_unique (h : d.Tidy) {p : NodeId} {tags tags' : List String}
    (hp : d.Inside p tags) (hp' : d.Inside p tags') : tags = tags' := by
  induction hp generalizing tags' with
  | root =>
    cases hp' with
    | root => rfl
    | element _ child _ => exact absurd child (h.root_notMem_children _)
  | element outer child hasTag ih =>
    cases hp' with
    | root => exact absurd child (h.root_notMem_children _)
    | element outer' child' hasTag' =>
      rw [h.wellFormed.mem_children_iff] at child child'
      obtain rfl := Option.some.inj (child.symm.trans child')
      rw [ih outer', Option.some.inj (hasTag.symm.trans hasTag')]

theorem Tidy.empty : Dom.empty.Tidy := by
  have hchildren : ∀ i : Nat, Dom.empty.children i = [] := by
    intro i
    cases i <;> simp [Dom.empty, children, node?]
  exact ⟨.empty, by simp [Ordered, hchildren], by simp [hchildren], by simp [hchildren]⟩

end Dom

namespace Html

open Dom

namespace Builder

/-- Whether the tree is tidy and tags are read inside the open elements, whose start tags close
nothing around them. -/
structure Tidy (b : Builder) : Prop where
  /-- The open elements lie at the end. -/
  growing : Growing b.dom b.frames
  /-- The tree is tidy. -/
  tidy : b.dom.Tidy
  /-- The start tags of the open elements close none around them. -/
  settled : Settled b.tags
  /-- Tags are read inside the open elements. -/
  holdsTags : ∀ tag ∈ b.tags, isTextTag tag = false

variable {b : Builder}

theorem empty_tidy : Builder.empty.Tidy :=
  ⟨.empty, .empty, .nil, by simp [tags, empty]⟩

/-- What can be written fits the innermost open element. -/
theorem fits_current (hgrowing : Growing b.dom b.frames) (htidy : b.dom.Tidy) {x : Content}
    (legible : x.Legible) (doctype : ∀ name, x = .doctype name → b.frames = [])
    (text : ∀ tag ∈ b.tags.head?, isTextTag tag →
      ∃ data, x = .text data ∧ (rawTextTags.contains tag → LacksEndTag tag.toList data.toList))
    (element : ∀ e, x = .element e → impliedEnd e.tag b.tags = b.tags) :
    b.dom.Fits (Dom.current b.frames) x where
  holder := hgrowing.holder
  legible := legible
  doctype name hname := by
    rw [doctype name hname]
    rfl
  text tag htag := text tag (hgrowing.tag?_current ▸ htag)
  element e tags he hin := by
    rw [htidy.inside_unique hin hgrowing.inside]
    exact element e he

namespace Tidy

variable (hb : b.Tidy)

include hb

theorem tag?_current {tag : String} (htag : b.dom.tag? (Dom.current b.frames) = some tag) :
    isTextTag tag = false := by
  rw [hb.growing.tag?_current] at htag
  exact hb.holdsTags tag (List.mem_of_mem_head? htag)

theorem tidy_insert {x : Content} (legible : x.Legible)
    (doctype : ∀ name, x = .doctype name → b.frames = [])
    (element : ∀ e, x = .element e → impliedEnd e.tag b.tags = b.tags) :
    (b.insert x).dom.Tidy := by
  rw [insert, current_eq]
  refine hb.tidy.addChild hb.growing.current_lt
    (fits_current hb.growing hb.tidy legible doctype (fun tag htag isText => ?_) element)
    fun tag htag isText => ?_
  · rw [hb.holdsTags tag (List.mem_of_mem_head? htag)] at isText
    cases isText
  · rw [hb.tag?_current htag] at isText
    cases isText

theorem flush : b.flush.Tidy := by
  refine ⟨growing_flush hb.growing, ?_, ?_, ?_⟩
  · unfold Builder.flush
    split_ifs
    · exact hb.tidy
    · exact hb.tidy_insert trivial (by simp) (by simp)
  · rw [(becomes_flush hb.growing).tags]
    exact hb.settled
  · rw [(becomes_flush hb.growing).tags]
    exact hb.holdsTags

theorem close {outer : List Frame} (h : outer <:+ b.frames) :
    Tidy { b with frames := outer } := by
  obtain ⟨inner, hinner⟩ := h
  have hsuffix : outer.map (·.tag) <:+ b.tags := ⟨inner.map (·.tag), by simp [tags, ← hinner]⟩
  have hgrowing := hb.growing
  rw [← hinner] at hgrowing
  exact ⟨(opened_append hgrowing).1, hb.tidy, hb.settled.suffix hsuffix,
    fun tag htag => hb.holdsTags tag (hsuffix.subset htag)⟩

end Tidy

/-! ## Steps -/

section

variable (b) (position : Nat) (tag : String) (selfClosing : Bool) (attributes : List Attribute)

theorem endTag_dom : (b.endTag position tag).dom = b.dom := by
  unfold endTag
  split
  · dsimp only
    split_ifs <;> rfl
  · rfl

theorem startTag_dom :
    (b.startTag position tag selfClosing attributes).dom =
      ({ b with frames := closeImplied tag b.frames }.insert
        (.element ⟨tag, Attribute.firstWins attributes⟩)).dom := by
  unfold startTag
  dsimp only
  split_ifs <;> rfl

theorem startTag_pending :
    (b.startTag position tag selfClosing attributes).pending = b.pending := by
  unfold startTag
  dsimp only
  split_ifs <;> rfl

theorem startTag_frames :
    (b.startTag position tag selfClosing attributes).frames =
      if isVoidTag tag || closesItself tag selfClosing (impliedEnd tag b.tags) then
        closeImplied tag b.frames
      else ⟨b.dom.size, tag⟩ :: closeImplied tag b.frames := by
  unfold startTag closesItself
  dsimp only
  rw [any_foreign_closeImplied]
  split_ifs <;> rfl

end

namespace Tidy

variable (hb : b.Tidy)

include hb

theorem tidy_startTag (position : Nat) {tag : String} {selfClosing : Bool}
    {attributes : List Attribute} (sound : (Token.startTag tag selfClosing attributes).Sound) :
    (b.startTag position tag selfClosing attributes).dom.Tidy := by
  rw [startTag_dom]
  refine (hb.close (closeImplied_suffix tag b.frames)).tidy_insert (legible_start sound)
    (by simp) ?_
  rintro e he
  cases he
  show impliedEnd tag ((closeImplied tag b.frames).map (·.tag)) =
    (closeImplied tag b.frames).map (·.tag)
  rw [map_closeImplied]
  exact impliedEnd_idem hb.settled tag

/-- A token that is no start tag of an element such as `style` keeps the tree tidy. -/
theorem step (position : Nat) {t : Token} (sound : t.Sound)
    (plain : ∀ name selfClosing attributes,
      t = .startTag name selfClosing attributes → isTextTag name = false) :
    (b.step position t).Tidy := by
  have hbecomes := becomes_step hb.growing position t
  have hflush := hb.flush
  refine ⟨hbecomes.growing, ?_, ?_, ?_⟩
  · cases t with
    | character c => exact hb.tidy
    | endOfFile => exact hflush.tidy
    | comment data => exact hflush.tidy_insert sound (by simp) (by simp)
    | doctype name =>
      rw [Builder.step]
      split_ifs with hempty
      · exact hflush.tidy_insert sound (fun _ _ => List.isEmpty_iff.1 hempty) (by simp)
      · exact hflush.tidy
    | startTag tag selfClosing attributes => exact hflush.tidy_startTag position sound
    | endTag tag =>
      rw [Builder.step, endTag_dom]
      exact hflush.tidy
  · rw [hbecomes.tags]
    exact (replays_emitted hb.settled t).2
  · rw [hbecomes.tags]
    cases t with
    | startTag tag selfClosing attributes =>
      have hsuffix := impliedEnd_suffix tag b.tags
      have houter : ∀ t ∈ impliedEnd tag b.tags, isTextTag t = false :=
        fun t ht => hb.holdsTags t (hsuffix.subset ht)
      rw [openAfter]
      split_ifs
      · exact houter
      · exact List.forall_mem_cons.2 ⟨plain _ _ _ rfl, houter⟩
    | endTag tag => exact fun t ht => hb.holdsTags t ((afterEnd_suffix tag b.tags).subset ht)
    | _ => exact hb.holdsTags

end Tidy

theorem run_characters (b : Builder) (position : Nat) (cs : List Char) (ts : List Token) :
    b.run position (cs.map .character ++ ts) =
      { b with pending := cs.reverse ++ b.pending }.run (position + cs.length) ts := by
  induction cs generalizing b position with
  | nil => rfl
  | cons c cs ih =>
    rw [List.map_cons, List.cons_append, run.eq_3 _ _ _ _ (by simp), step, ih]
    simp only [List.reverse_cons, List.append_assoc, List.singleton_append, List.length_cons]
    congr 1
    omega

/-- The text of an element such as `style` is put into it when it ends. -/
theorem tidy_flush_text (hgrowing : Growing b.dom b.frames) (htidy : b.dom.Tidy) {name : String}
    (hname : b.tags.head? = some name)
    (lacks : rawTextTags.contains name → LacksEndTag name.toList b.pending.reverse)
    (hnone : b.dom.children (Dom.current b.frames) = []) : b.flush.dom.Tidy := by
  unfold flush
  split_ifs
  · exact htidy
  · have hfits : b.dom.Fits (Dom.current b.frames) (.text (String.ofList b.pending.reverse)) := by
      refine fits_current hgrowing htidy trivial (by simp) (fun tag htag _ => ⟨_, rfl, ?_⟩)
        (by simp)
      obtain rfl : name = tag := Option.some.inj (hname.symm.trans htag)
      rwa [String.toList_ofList]
    have hadd := htidy.addChild hgrowing.current_lt hfits fun _ _ _ => hnone
    rwa [← current_eq] at hadd

section

variable (hb : b.Tidy) {name : String} {selfClosing : Bool} {attributes : List Attribute}
  {cs : List Char} (position next : Nat)
  (sound : (Token.startTag name selfClosing attributes).Sound) (isText : isTextTag name)
  (lacks : rawTextTags.contains name → LacksEndTag name.toList cs)

include hb sound isText lacks

/-- The start tag and the text of an element such as `style` keep the tree tidy, and so does the end
tag of the element. -/
theorem tidy_textElement :
    let b' : Builder := { b.step position (.startTag name selfClosing attributes) with
      pending := cs.reverse }
    b'.flush.dom.Tidy ∧ (b'.step next (.endTag name)).Tidy := by
  intro b'
  have hbecomes := becomes_step hb.growing position (.startTag name selfClosing attributes)
  have hgrowing : Growing b'.dom b'.frames := hbecomes.growing
  have htags : b'.tags = openAfter b.tags (.startTag name selfClosing attributes) := hbecomes.tags
  have hsettled : Settled b'.tags := by
    rw [htags]
    exact (replays_emitted hb.settled _).2
  have htidy : b'.dom.Tidy := hb.flush.tidy_startTag position sound
  have hsuffix := impliedEnd_suffix name b.tags
  have houter : ∀ t ∈ impliedEnd name b.tags, isTextTag t = false :=
    fun t ht => hb.holdsTags t (hsuffix.subset ht)
  rw [openAfter, isVoidTag_of_isTextTag isText, Bool.false_or] at htags
  split_ifs at htags with hclosed
  · -- The element is closed at once, and its text comes after it.
    have hb' : b'.Tidy := ⟨hgrowing, htidy, hsettled, by rwa [htags]⟩
    exact ⟨hb'.flush.tidy, hb'.step next (t := .endTag name) trivial (by simp)⟩
  · have hframes : b'.frames = ⟨b.flush.dom.size, name⟩ :: closeImplied name b.flush.frames := by
      have hflush : b.flush.tags = b.tags := (becomes_flush hb.growing).tags
      show (b.flush.startTag position name selfClosing attributes).frames = _
      rw [startTag_frames, hflush, isVoidTag_of_isTextTag isText, Bool.false_or, if_neg hclosed]
    have hnone : b'.dom.children (Dom.current b'.frames) = [] := by
      have hlt := (hb.flush.close (closeImplied_suffix name b.flush.frames)).growing.current_lt
      have hdom : b'.dom = _ := startTag_dom b.flush position name selfClosing attributes
      rw [hframes, hdom, insert, current_eq]
      show (b.flush.dom.addChild _ _).children b.flush.dom.size = []
      rw [children_addChild hlt, if_neg (Nat.ne_of_gt hlt)]
      exact children_eq_nil_of_size_le (Nat.le_refl _)
    have hflush : b'.flush.dom.Tidy := by
      refine tidy_flush_text hgrowing htidy (by rw [htags]; rfl) (fun hraw => ?_) hnone
      rw [List.reverse_reverse]
      exact lacks hraw
    have hend := becomes_step hgrowing next (.endTag name)
    have hopen : (b'.step next (.endTag name)).tags = impliedEnd name b.tags := by
      rw [hend.tags, openAfter, htags, afterEnd_cons_self]
    refine ⟨hflush, hend.growing, ?_, ?_, ?_⟩
    · rw [step, endTag_dom]
      exact hflush
    · rw [hopen]
      exact hb.settled.suffix hsuffix
    · rwa [hopen]

end

/-- Reading lexed tokens gives a tidy tree. -/
theorem tidy_run {ts : List Token} (hts : Lexed ts) (hb : b.Tidy) (position : Nat) :
    (b.run position ts).dom.Tidy := by
  induction hts generalizing b position with
  | finish => exact hb.flush.tidy
  | @token t ts sound plain rest ih =>
    by_cases ht : t = .endOfFile
    · subst ht
      exact hb.flush.tidy
    · rw [run.eq_3 _ _ _ _ ht]
      exact ih (hb.step position sound plain) _
  | @text name selfClosing attributes cs ts sound isText lacks rest ih =>
    have hpending : (b.step position (.startTag name selfClosing attributes)).pending = [] := by
      rw [step, startTag_pending, flush_pending]
    obtain ⟨-, hend⟩ := tidy_textElement hb position (position + 1 + cs.length) sound isText lacks
    rw [run.eq_3 _ _ _ _ (by simp), run_characters, hpending, List.append_nil,
      run.eq_3 _ _ _ _ (by simp)]
    exact ih hend _
  | @unclosed name selfClosing attributes cs sound isText lacks =>
    have hpending : (b.step position (.startTag name selfClosing attributes)).pending = [] := by
      rw [step, startTag_pending, flush_pending]
    obtain ⟨hend, -⟩ := tidy_textElement hb position (position + 1 + cs.length) sound isText lacks
    rw [run.eq_3 _ _ _ _ (by simp), run_characters, hpending, List.append_nil]
    exact hend

end Builder

/-- The document that a text describes is tidy. -/
theorem tidy_parse (s : String) : (parse s).dom.Tidy :=
  Builder.tidy_run (lexed_tokens s) Builder.empty_tidy 0

end Html

end Restyle
