import Restyle.Proofs.Dom.Growth
import Restyle.Proofs.Html.ImpliedEnd

/-!
# The markup of a built document

What a builder does to the markup of its document depends on the tags of the open elements alone.
`emitted` gives the marks that a token adds and `openAfter` the tags that are open after it;
`marksFrom` follows a whole run of tokens to the end of the text. Main statement: the marks of a
built document are those of its tokens (`marks_build`).
-/

namespace Restyle.Html

/-- The end tags of the open elements that are not among the `outer` ones. -/
def closing (tags outer : List String) : List Mark :=
  (tags.take (tags.length - outer.length)).map .close

/-- Whether the start tag `tag` closes its element by itself, within the given open tags. -/
def closesItself (tag : String) (selfClosing : Bool) (tags : List String) : Bool :=
  selfClosing && (foreignTags.contains tag || tags.any (foreignTags.contains ·))

/-- The open tags after an end tag. -/
def afterEnd (tag : String) (tags : List String) : List String :=
  match tags.dropWhile (· != tag) with
  | _ :: outer => outer
  | [] => tags

/-- The marks of a start tag that closes nothing. -/
def elementMarks (e : Element) (selfClosed : Bool) : List Mark :=
  if isVoidTag e.tag then [.start e]
  else if selfClosed then [.start e, .close e.tag]
  else [.start e]

/-- The marks that a token adds within the given open tags. -/
def emitted (tags : List String) : Token → List Mark
  | .character c => [.text tags.head? c]
  | .doctype name => if tags.isEmpty then [.doctype (name.getD "")] else []
  | .comment data => [.comment data]
  | .startTag tag selfClosing attributes =>
    closing tags (impliedEnd tag tags) ++
      elementMarks ⟨tag, Attribute.firstWins attributes⟩
        (closesItself tag selfClosing (impliedEnd tag tags))
  | .endTag tag => closing tags (afterEnd tag tags)
  | .endOfFile => []

/-- The open tags after a token. -/
def openAfter (tags : List String) : Token → List String
  | .startTag tag selfClosing _ =>
    let outer := impliedEnd tag tags
    if isVoidTag tag || closesItself tag selfClosing outer then outer else tag :: outer
  | .endTag tag => afterEnd tag tags
  | _ => tags

/-- The marks that a run of tokens adds within the given open tags, up to the end of the text. -/
def marksFrom (tags : List String) : List Token → List Mark
  | [] | .endOfFile :: _ => tags.map .close
  | t :: ts => emitted tags t ++ marksFrom (openAfter tags t) ts

theorem closing_append (inner outer : List String) :
    closing (inner ++ outer) outer = inner.map .close := by
  simp [closing]

theorem closing_self (tags : List String) : closing tags tags = [] :=
  closing_append [] tags

theorem afterEnd_suffix (tag : String) (tags : List String) : afterEnd tag tags <:+ tags := by
  unfold afterEnd
  have h := List.dropWhile_suffix (l := tags) (· != tag)
  split
  · rename_i heq
    rw [heq] at h
    exact (List.suffix_cons _ _).trans h
  · exact List.suffix_refl _

namespace Builder

open Dom

variable {b : Builder}

/-- The tags of the open elements, the innermost first. -/
def tags (b : Builder) : List String :=
  b.frames.map (·.tag)

theorem any_foreign_closeImplied (tag : String) :
    (closeImplied tag b.frames).any (foreignTags.contains ·.tag) =
      (impliedEnd tag b.tags).any (foreignTags.contains ·) := by
  rw [tags, ← map_closeImplied, List.any_map]
  rfl

/-- The marks so far, those of the pending text included. -/
def marks (b : Builder) : List Mark :=
  b.dom.opened b.frames ++ b.pending.reverse.map (.text b.tags.head?)

theorem current_eq : b.current = Dom.current b.frames := by
  unfold current Dom.current
  cases b.frames <;> rfl

theorem growing_insert (h : Growing b.dom b.frames) (c : Content) :
    Growing (b.insert c).dom (b.insert c).frames := by
  rw [insert, current_eq]
  exact h.addChild

theorem flush_frames : b.flush.frames = b.frames := by
  unfold flush
  split_ifs <;> rfl

theorem flush_pending : b.flush.pending = [] := by
  unfold flush
  split_ifs with h
  · simpa using h
  · rfl

theorem growing_flush (h : Growing b.dom b.frames) : Growing b.flush.dom b.flush.frames := by
  unfold flush
  split_ifs
  · exact h
  · exact growing_insert h _

theorem marks_flush (h : Growing b.dom b.frames) : b.flush.marks = b.marks := by
  unfold flush
  split_ifs with hempty
  · rfl
  · simp only [marks, tags, insert, current_eq, List.reverse_nil, List.map_nil, List.append_nil]
    rw [h.opened_addChild, nodeMarks]
    dsimp only
    rw [String.toList_ofList]
    show _ ++ List.map (Mark.text (b.dom.tag? _)) _ = _
    rw [h.tag?_current]

/-- The marks of a builder without pending text. -/
theorem opened_flush (h : Growing b.dom b.frames) : b.flush.dom.opened b.frames = b.marks := by
  rw [← marks_flush h, marks, flush_pending, flush_frames]
  simp

theorem opened_append {d : Dom} {inner outer : List Frame} (h : Growing d (inner ++ outer)) :
    Growing d outer ∧ d.opened outer = d.opened (inner ++ outer) ++ inner.map (.close ·.tag) := by
  induction inner with
  | nil => exact ⟨h, by simp⟩
  | cons f inner ih =>
    rw [List.cons_append] at h ⊢
    obtain ⟨hgrowing, hopened⟩ := ih h.tail
    refine ⟨hgrowing, ?_⟩
    rw [hopened, h.opened_tail, List.append_assoc]
    rfl

/-- What a step does: the tree goes on growing, with these tags open and these marks. -/
structure Becomes (b b' : Builder) (tags : List String) (marks : List Mark) : Prop where
  /-- The tree goes on growing. -/
  growing : Growing b'.dom b'.frames
  /-- The open tags. -/
  tags : b'.tags = tags
  /-- The marks that are added. -/
  marks : b'.marks = b.marks ++ marks

theorem becomes_flush (h : Growing b.dom b.frames) : Becomes b b.flush b.tags [] where
  growing := growing_flush h
  tags := by rw [Builder.tags, flush_frames, Builder.tags]
  marks := by rw [marks_flush h, List.append_nil]

theorem Becomes.trans {b₁ b₂ b₃ : Builder} {tags₁ tags₂ : List String} {marks₁ marks₂ : List Mark}
    (h₁ : Becomes b₁ b₂ tags₁ marks₁) (h₂ : Becomes b₂ b₃ tags₂ marks₂) :
    Becomes b₁ b₃ tags₂ (marks₁ ++ marks₂) where
  growing := h₂.growing
  tags := h₂.tags
  marks := by rw [h₂.marks, h₁.marks, List.append_assoc]

theorem becomes_note (h : Growing b.dom b.frames) (position : Nat) (fault : Fault) :
    Becomes b (b.note position fault) b.tags [] where
  growing := h
  tags := rfl
  marks := by
    rw [List.append_nil]
    rfl

/-- A node without content of its own is put at the open end. -/
theorem becomes_insert (h : Growing b.dom b.frames) (hpending : b.pending = []) {c : Content} :
    Becomes b (b.insert c) b.tags
      (b.dom.nodeMarks ⟨c, some (Dom.current b.frames), []⟩ []) where
  growing := growing_insert h c
  tags := rfl
  marks := by
    simp only [Builder.marks, insert, hpending, List.reverse_nil, List.map_nil, List.append_nil,
      current_eq]
    exact h.opened_addChild

/-- Elements are closed up to the given ones. -/
theorem becomes_close (h : Growing b.dom b.frames) (hpending : b.pending = []) {outer : List Frame}
    (houter : outer <:+ b.frames) :
    Becomes b { b with frames := outer } (outer.map (·.tag))
      (closing b.tags (outer.map (·.tag))) where
  growing := by
    obtain ⟨inner, hinner⟩ := houter
    rw [← hinner] at h
    exact (opened_append h).1
  tags := rfl
  marks := by
    obtain ⟨inner, hinner⟩ := houter
    simp only [Builder.marks, Builder.tags, hpending, List.reverse_nil, List.map_nil,
      List.append_nil]
    rw [← hinner] at h ⊢
    rw [(opened_append h).2, List.map_append, closing_append, List.map_map]
    rfl

theorem map_tag_dropWhile (tag : String) (frames : List Frame) :
    (frames.dropWhile (·.tag != tag)).map (·.tag) =
      (frames.map (·.tag)).dropWhile (· != tag) := by
  rw [List.dropWhile_map]
  rfl

theorem becomes_endTag (h : Growing b.dom b.frames) (hpending : b.pending = []) (position : Nat)
    (tag : String) :
    Becomes b (b.endTag position tag) (afterEnd tag b.tags)
      (closing b.tags (afterEnd tag b.tags)) := by
  have hdrop := map_tag_dropWhile tag b.frames
  unfold endTag afterEnd
  cases houter : b.frames.dropWhile (·.tag != tag) with
  | nil =>
    rw [houter, List.map_nil] at hdrop
    rw [tags, ← hdrop]
    dsimp only
    rw [← tags, closing_self]
    exact becomes_note h _ _
  | cons f outer =>
    rw [houter, List.map_cons] at hdrop
    rw [tags, ← hdrop]
    dsimp only
    rw [← tags]
    have hsuffix : outer <:+ b.frames := by
      have := List.dropWhile_suffix (l := b.frames) (·.tag != tag)
      rw [houter] at this
      exact (List.suffix_cons _ _).trans this
    split_ifs
    · exact becomes_close h hpending hsuffix
    · have hnote := becomes_note h position (.closesUnclosed tag)
      exact hnote.trans (becomes_close hnote.growing hpending hsuffix)

/-- An element with content is opened. -/
theorem becomes_push (h : Growing b.dom b.frames) (hpending : b.pending = []) {e : Element}
    (he : isVoidTag e.tag = false) :
    Becomes b { b.insert (.element e) with frames := ⟨b.dom.size, e.tag⟩ :: b.frames }
      (e.tag :: b.tags) [.start e] where
  growing := by
    simp only [insert, current_eq]
    exact h.push he
  tags := rfl
  marks := by
    simp only [Builder.marks, insert, current_eq, hpending, List.reverse_nil, List.map_nil,
      List.append_nil]
    exact h.opened_push he

/-- The element of a start tag is added, and opened if it has content to come. -/
theorem becomes_element (h : Growing b.dom b.frames) (hpending : b.pending = []) (position : Nat)
    (e : Element) (selfClosing selfClosed : Bool) :
    Becomes b
      (if isVoidTag e.tag || selfClosed then b.insert (.element e)
        else
          let b' := if selfClosing then (b.insert (.element e)).note position .selfClosing
            else b.insert (.element e)
          { b' with frames := ⟨b.dom.size, e.tag⟩ :: b'.frames })
      (if isVoidTag e.tag || selfClosed then b.tags else e.tag :: b.tags)
      (elementMarks e selfClosed) := by
  have hinsert := becomes_insert h hpending (c := .element e)
  unfold elementMarks
  cases hvoid : isVoidTag e.tag with
  | true => simpa [nodeMarks, hvoid] using hinsert
  | false =>
    cases selfClosed with
    | true => simpa [nodeMarks, hvoid] using hinsert
    | false =>
      have hpush := becomes_push h hpending hvoid
      cases selfClosing with
      | false => exact hpush
      | true => exact hpush.trans (becomes_note hpush.growing position .selfClosing)

theorem becomes_startTag (h : Growing b.dom b.frames) (hpending : b.pending = []) (position : Nat)
    (tag : String) (selfClosing : Bool) (attributes : List Attribute) :
    Becomes b (b.startTag position tag selfClosing attributes)
      (openAfter b.tags (.startTag tag selfClosing attributes))
      (emitted b.tags (.startTag tag selfClosing attributes)) := by
  have hclose := becomes_close h hpending (closeImplied_suffix tag b.frames)
  have helement := becomes_element hclose.growing hpending position
    ⟨tag, Attribute.firstWins attributes⟩ selfClosing
    (closesItself tag selfClosing (impliedEnd tag b.tags))
  rw [hclose.tags] at helement
  have hall := hclose.trans helement
  rw [map_closeImplied] at hall
  unfold startTag
  simp only [any_foreign_closeImplied]
  exact hall

/-- A token adds its marks, and opens and closes what it should. -/
theorem becomes_step (h : Growing b.dom b.frames) (position : Nat) (t : Token) :
    Becomes b (b.step position t) (openAfter b.tags t) (emitted b.tags t) := by
  have hflush := becomes_flush h
  have hgrowing := hflush.growing
  have htags := hflush.tags
  cases t with
  | character c =>
    refine ⟨h, rfl, ?_⟩
    simp [step, marks, tags, emitted]
  | doctype name =>
    cases hframes : b.frames with
    | nil =>
      have := hflush.trans (becomes_insert hgrowing flush_pending (c := .doctype (name.getD "")))
      rw [htags] at this
      simpa [step, flush_frames, hframes, emitted, tags, openAfter, nodeMarks] using this
    | cons f outer =>
      have := hflush.trans (becomes_note hgrowing position .doctypeInElement)
      rw [htags] at this
      simpa [step, flush_frames, hframes, emitted, tags, openAfter] using this
  | comment data =>
    have := hflush.trans (becomes_insert hgrowing flush_pending (c := .comment data))
    rw [htags] at this
    exact this
  | startTag tag selfClosing attributes =>
    have := hflush.trans
      (becomes_startTag hgrowing flush_pending position tag selfClosing attributes)
    rw [htags] at this
    exact this
  | endTag tag =>
    have := hflush.trans (becomes_endTag hgrowing flush_pending position tag)
    rw [htags] at this
    exact this
  | endOfFile => exact hflush

theorem marks_of_flush (h : Growing b.dom b.frames) :
    b.flush.dom.marks = b.marks ++ b.tags.map .close := by
  rw [(growing_flush h).marks_eq, flush_frames, opened_flush h, tags, List.map_map]
  rfl

/-- A run adds the marks of its tokens. -/
theorem marks_run (h : Growing b.dom b.frames) (position : Nat) (ts : List Token) :
    (b.run position ts).dom.marks = b.marks ++ marksFrom b.tags ts := by
  induction ts generalizing b position with
  | nil => exact marks_of_flush h
  | cons t ts ih =>
    by_cases ht : t = .endOfFile
    · subst ht
      exact marks_of_flush h
    · have hstep := becomes_step h position t
      rw [run.eq_3 _ _ _ _ ht, marksFrom.eq_3 _ _ _ ht, ih hstep.growing, hstep.marks, hstep.tags,
        List.append_assoc]

end Builder

/-- The marks of a built document are those of its tokens. -/
theorem marks_build (ts : List Token) : (build ts).dom.marks = marksFrom [] ts := by
  show (Builder.empty.run 0 ts).dom.marks = _
  rw [Builder.marks_run Dom.Growing.empty]
  rfl

end Restyle.Html
