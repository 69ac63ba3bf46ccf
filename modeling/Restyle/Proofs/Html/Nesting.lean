import Mathlib.Data.List.TakeWhile
import Restyle.Proofs.Html.Lexed

/-!
# Marks that are nested and legible

The marks of a document are nested: every element that is opened is closed, and the characters of
an element carry its tag. `Nested` says so of the marks that come inside some open elements, along
with what makes each of them legible, and the marks of lexed tokens are of that kind
(`nested_marksFrom`).
-/

namespace Restyle

namespace Attribute

theorem mem_of_mem_firstWins {as : List Attribute} {a : Attribute} (h : a ∈ firstWins as) :
    a ∈ as := by
  have hstep : ∀ (bs table : List Attribute),
      a ∈ bs.foldl (fun table b => if mem b.name table then table else table ++ [b]) table →
        a ∈ table ∨ a ∈ bs := by
    intro bs
    induction bs with
    | nil => exact fun _ h => .inl h
    | cons b bs ih =>
      intro table hmem
      rw [List.foldl_cons] at hmem
      rcases ih _ hmem with htable | hbs
      · split_ifs at htable
        · exact .inl htable
        · rcases List.mem_append.1 htable with htable | hb
          · exact .inl htable
          · exact .inr (List.mem_cons.2 (.inl (List.mem_singleton.1 hb)))
      · exact .inr (List.mem_cons_of_mem _ hbs)
  exact (hstep as [] h).resolve_left List.not_mem_nil

end Attribute

open Html

/-- Whether a mark is a tag, a comment or a document type that is read as it is written. -/
def Mark.Legible : Mark → Prop
  | start e =>
    isTagName e.tag.toList ∧ (∀ a ∈ e.attributes, a.name.toList.all isAttributeChar) ∧
      Attribute.Distinct e.attributes
  | close tag => isTagName tag.toList
  | text _ _ => False
  | comment data => endsComment data.toList = false
  | doctype name => isDoctypeName name.toList

namespace Html

/-- Marks that come inside the given open elements, and close them all. -/
inductive Nested : List String → List Mark → Prop where
  /-- No element is open any more. -/
  | nil : Nested [] []
  /-- A character of the innermost element. -/
  | text {tags : List String} {c : Char} {ms : List Mark} (rest : Nested tags ms) :
      Nested tags (.text tags.head? c :: ms)
  /-- A comment. -/
  | comment {tags : List String} {data : String} {ms : List Mark}
      (legible : (Mark.comment data).Legible) (rest : Nested tags ms) :
      Nested tags (.comment data :: ms)
  /-- A document type. -/
  | doctype {tags : List String} {name : String} {ms : List Mark}
      (legible : (Mark.doctype name).Legible) (rest : Nested tags ms) :
      Nested tags (.doctype name :: ms)
  /-- The end of the innermost element. -/
  | close {tag : String} {tags : List String} {ms : List Mark}
      (legible : (Mark.close tag).Legible) (rest : Nested tags ms) :
      Nested (tag :: tags) (.close tag :: ms)
  /-- The start of an element in which tags are read. -/
  | start {tags : List String} {e : Element} {ms : List Mark} (legible : (Mark.start e).Legible)
      (holdsTags : isTextTag e.tag = false)
      (rest : Nested (if isVoidTag e.tag then tags else e.tag :: tags) ms) :
      Nested tags (.start e :: ms)
  /-- An element such as `style` with its text. -/
  | textElement {tags : List String} {e : Element} {cs : List Char} {ms : List Mark}
      (legible : (Mark.start e).Legible) (isText : isTextTag e.tag)
      (lacks : rawTextTags.contains e.tag → LacksEndTag e.tag.toList cs) (rest : Nested tags ms) :
      Nested tags (.start e :: (cs.map (.text (some e.tag)) ++ .close e.tag :: ms))

/-- Whether tags are read inside an open element, whose own tag can be written. -/
def HoldsTags (tag : String) : Prop :=
  isTagName tag.toList ∧ isTextTag tag = false

theorem Nested.closing {tags outer : List String} (h : ∀ tag ∈ tags, HoldsTags tag)
    (houter : outer <:+ tags) {ms : List Mark} (hms : Nested outer ms) :
    Nested tags (closing tags outer ++ ms) := by
  obtain ⟨inner, rfl⟩ := houter
  rw [closing_append]
  induction inner with
  | nil => exact hms
  | cons tag inner ih =>
    exact .close (h tag (by simp)).1 (ih fun t ht => h t (List.mem_cons_of_mem _ ht))

theorem Nested.closeAll {tags : List String} (h : ∀ tag ∈ tags, HoldsTags tag) :
    Nested tags (tags.map .close) := by
  have hclosing := Nested.closing h List.nil_suffix .nil
  rw [show Html.closing tags [] = tags.map .close by simpa using closing_append tags []] at hclosing
  rwa [List.append_nil] at hclosing

theorem isVoidTag_of_isTextTag {tag : String} (h : isTextTag tag) : isVoidTag tag = false := by
  have hall : ∀ t ∈ rawTextTags ++ escapableTextTags, isVoidTag t = false := by decide
  apply hall tag
  simpa [isTextTag] using h

theorem afterEnd_cons_self (tag : String) (tags : List String) :
    afterEnd tag (tag :: tags) = tags := by
  simp [afterEnd]

theorem afterEnd_of_not_mem {tag : String} {tags : List String} (h : tag ∉ tags) :
    afterEnd tag tags = tags := by
  have hnil : tags.dropWhile (· != tag) = [] := by
    rw [List.dropWhile_eq_nil_iff]
    intro t ht
    simp only [bne_iff_ne, ne_eq]
    rintro rfl
    exact h ht
  simp [afterEnd, hnil]

/-- The characters of an element are put into it. -/
theorem marksFrom_characters (tags : List String) (cs : List Char) (ts : List Token) :
    marksFrom tags (cs.map .character ++ ts) = cs.map (.text tags.head?) ++ marksFrom tags ts := by
  induction cs with
  | nil => rfl
  | cons c cs ih =>
    rw [List.map_cons, List.cons_append, marksFrom.eq_3 _ _ _ (by simp)]
    show _ :: marksFrom tags (cs.map .character ++ ts) = _
    rw [ih]
    rfl

theorem Nested.characters {tags : List String} (cs : List Char) {ms : List Mark}
    (h : Nested tags ms) : Nested tags (cs.map (.text tags.head?) ++ ms) := by
  induction cs with
  | nil => exact h
  | cons c cs ih => exact .text ih

theorem legible_start {tag : String} {selfClosing : Bool} {attributes : List Attribute}
    (h : (Token.startTag tag selfClosing attributes).Sound) :
    (Mark.start ⟨tag, Attribute.firstWins attributes⟩).Legible :=
  ⟨h.1, fun a ha => h.2 a (Attribute.mem_of_mem_firstWins ha),
    Attribute.distinct_firstWins attributes⟩

variable {tags : List String}

theorem HoldsTags.suffix (h : ∀ tag ∈ tags, HoldsTags tag) {outer : List String}
    (houter : outer <:+ tags) : ∀ tag ∈ outer, HoldsTags tag :=
  fun tag htag => h tag (houter.subset htag)

/-- A start tag of an element such as `style`, the text of the element, and what comes after it. -/
theorem nested_textElement (h : ∀ tag ∈ tags, HoldsTags tag) {tag : String} {selfClosing : Bool}
    {attributes : List Attribute} (hsound : (Token.startTag tag selfClosing attributes).Sound)
    (htext : isTextTag tag) {cs : List Char}
    (hlacks : rawTextTags.contains tag → LacksEndTag tag.toList cs) {ts : List Token}
    (hopen : ∀ outer : List String, (∀ t ∈ outer, HoldsTags t) →
      ∃ ms, marksFrom (tag :: outer) ts = .close tag :: ms ∧ Nested outer ms)
    (hclosed : ∀ outer : List String, (∀ t ∈ outer, HoldsTags t) →
      Nested outer (marksFrom outer ts)) :
    Nested tags
      (marksFrom tags (.startTag tag selfClosing attributes :: (cs.map .character ++ ts))) := by
  have hsuffix := impliedEnd_suffix tag tags
  have houter := HoldsTags.suffix h hsuffix
  rw [marksFrom.eq_3 _ _ _ (by simp), emitted, List.append_assoc, openAfter]
  apply Nested.closing h hsuffix
  generalize impliedEnd tag tags = outer at houter
  rw [isVoidTag_of_isTextTag htext, Bool.false_or]
  unfold elementMarks
  rw [isVoidTag_of_isTextTag htext, if_neg Bool.false_ne_true]
  split_ifs
  · -- The element is closed at once, and its text comes after it.
    rw [marksFrom_characters]
    exact .textElement (legible_start hsound) htext
      (fun _ t ht hne => absurd (List.suffix_nil.1 ht) hne) ((hclosed outer houter).characters cs)
  · rw [marksFrom_characters]
    obtain ⟨ms, hms, hnested⟩ := hopen outer houter
    rw [hms]
    exact .textElement (legible_start hsound) htext hlacks hnested

/-- The marks of lexed tokens are nested. -/
theorem nested_marksFrom {ts : List Token} (hts : Lexed ts) (h : ∀ tag ∈ tags, HoldsTags tag) :
    Nested tags (marksFrom tags ts) := by
  induction hts generalizing tags with
  | finish => exact .closeAll h
  | @token t ts sound plain rest ih =>
    cases t with
    | character c => exact .text (ih h)
    | comment data => exact .comment sound (ih h)
    | endOfFile => exact .closeAll h
    | doctype name =>
      rw [marksFrom.eq_3 _ _ _ (by simp), emitted]
      split_ifs
      · exact .doctype sound (ih h)
      · exact ih h
    | endTag tag =>
      have hsuffix := afterEnd_suffix tag tags
      exact Nested.closing h hsuffix (ih (HoldsTags.suffix h hsuffix))
    | startTag tag selfClosing attributes =>
      have hsuffix := impliedEnd_suffix tag tags
      have houter := HoldsTags.suffix h hsuffix
      have hplain := plain tag selfClosing attributes rfl
      have hlegible := legible_start sound
      rw [marksFrom.eq_3 _ _ _ (by simp), emitted, List.append_assoc, openAfter]
      apply Nested.closing h hsuffix
      generalize impliedEnd tag tags = outer at houter
      have hcons : ∀ t ∈ tag :: outer, HoldsTags t := by
        rintro t (_ | ⟨_, ht⟩)
        · exact ⟨sound.1, hplain⟩
        · exact houter t ht
      unfold elementMarks
      dsimp only
      cases hvoid : isVoidTag tag with
      | true =>
        rw [Bool.true_or, if_pos rfl, if_pos rfl]
        apply Nested.start hlegible hplain
        rw [if_pos hvoid]
        exact ih houter
      | false =>
        rw [Bool.false_or, if_neg Bool.false_ne_true]
        split_ifs
        · apply Nested.start hlegible hplain
          rw [if_neg (by simp [hvoid])]
          exact .close hlegible.1 (ih houter)
        · apply Nested.start hlegible hplain
          rw [if_neg (by simp [hvoid])]
          exact ih hcons
  | text sound isText lacks rest ih =>
    rename_i name selfClosing attributes cs ts
    refine nested_textElement h sound isText lacks (fun outer houter => ?_) fun outer houter => ?_
    · rw [marksFrom.eq_3 _ _ _ (by simp), emitted, openAfter, afterEnd_cons_self]
      exact ⟨_, congrArg (· ++ _) (closing_append [name] outer), ih houter⟩
    · have hnot : name ∉ outer := fun hmem => by
        have := (houter name hmem).2
        rw [isText] at this
        cases this
      rw [marksFrom.eq_3 _ _ _ (by simp), emitted, openAfter, afterEnd_of_not_mem hnot,
        closing_self]
      exact ih houter
  | unclosed sound isText lacks =>
    refine nested_textElement h sound isText lacks (fun outer houter => ?_) fun outer houter => ?_
    · exact ⟨_, rfl, .closeAll houter⟩
    · exact .closeAll houter

end Html

end Restyle
