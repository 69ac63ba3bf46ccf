import Restyle.Proofs.Html.Nesting
import Restyle.Proofs.Html.PlainText

/-!
# Reading a written document

A document that was built from a text is written as markup from which its marks are read back one by
one, except for the text of `plaintext` elements: it is written as it stands but read as markup.
Main statement: the markup is read as the marks it was written from if and only if no
piece of such a text starts markup, and then it is written the same once more
(`markup_reads_back`).
-/

namespace Restyle

namespace Mark

open Html

/-- The character of a mark that is text of a `plaintext` element. -/
def plain? : Mark → Option Char
  | text parent c => if parent = some "plaintext" then some c else none
  | _ => none

/-- The text of a `plaintext` element that some marks start with. -/
def plainText : List Mark → List Char
  | [] => []
  | m :: ms =>
    match m.plain? with
    | some c => c :: plainText ms
    | none => []

/-- Whether no markup starts in the text of a `plaintext` element. -/
def readsBack (ms : List Mark) : Bool :=
  ms.tails.all fun s => !startsMarkup (plainText s)

theorem readsBack_cons (m : Mark) (ms : List Mark) :
    readsBack (m :: ms) = (!startsMarkup (plainText (m :: ms)) && readsBack ms) := by
  rw [readsBack, List.tails_cons, List.all_cons, readsBack]

theorem readsBack_cons_of_plain?_eq_none {m : Mark} (h : m.plain? = none) (ms : List Mark) :
    readsBack (m :: ms) = readsBack ms := by
  rw [readsBack_cons, plainText, h]
  rfl

theorem readsBack_append {ms : List Mark} (h : ∀ m ∈ ms, m.plain? = none) (ms' : List Mark) :
    readsBack (ms ++ ms') = readsBack ms' := by
  induction ms with
  | nil => rfl
  | cons m ms ih =>
    rw [List.cons_append, readsBack_cons_of_plain?_eq_none (h m (by simp)),
      ih fun m' hm' => h m' (List.mem_cons_of_mem _ hm')]

/-! ## Marks that are legible -/

variable {m : Mark}

theorem exists_markup_of_legible (h : m.Legible) : ∃ u, m.markup = '<' :: u := by
  cases m with
  | start e => exact ⟨_, by rw [← List.append_nil (Mark.markup _), toList_start]⟩
  | close tag => exact ⟨_, by rw [← List.append_nil (Mark.markup _), toList_close]⟩
  | text parent c => cases h
  | comment data => exact ⟨'!' :: '-' :: '-' :: (data.toList ++ ['-', '-', '>']), by simp [markup]⟩
  | doctype name => exact ⟨"!DOCTYPE ".toList ++ name.toList ++ ['>'], by simp [markup]⟩

/-- The mode after a mark. -/
def after : Mark → Mode
  | start e => .afterStartTag e.tag
  | _ => .data

/-- A legible mark is read as it is written. -/
theorem run_of_legible (h : m.Legible) (r : List Char) :
    run .data (m.markup ++ r) = m.token :: run m.after r := by
  cases m with
  | start e => exact run_start h.1 h.2.1 h.2.2 r
  | close tag => exact run_close h r
  | text parent c => cases h
  | comment data => exact run_comment h r
  | doctype name => exact run_doctype h r

theorem leading_of_legible (h : m.Legible) (ts : List Token) : leading (m.token :: ts) = 0 := by
  cases m <;> first | rfl | cases h

end Mark

namespace Html

open Mark Text

variable {tags : List String} {ms : List Mark}

theorem afterStartTag_of_holdsTags {tag : String} (h : isTextTag tag = false) :
    Mode.afterStartTag tag = .data := by
  simp only [isTextTag, Bool.or_eq_false_iff] at h
  rw [Mode.afterStartTag, h.1, h.2]
  rfl

/-! ## Text -/

theorem markup_text_of_not_verbatim {parent : Option String}
    (h : (parent.map verbatimTags.contains).getD false = false) (c : Char) :
    (Mark.text parent c).markup = (escapeChar c).toList := by
  rw [Mark.markup, h]
  rfl

/-- Inside an element in which tags are read, all text but that of `plaintext` is escaped. -/
theorem not_verbatim_of_holdsTags {parent : Option String}
    (h : ∀ tag ∈ parent, isTextTag tag = false) (hplain : parent ≠ some "plaintext") :
    (parent.map verbatimTags.contains).getD false = false := by
  cases parent with
  | none => rfl
  | some tag =>
    have htext := h tag rfl
    have hne : tag ≠ "plaintext" := fun heq => hplain (heq ▸ rfl)
    simp only [isTextTag, Bool.or_eq_false_iff] at htext
    have hraw : tag ∉ rawTextTags := by simpa using htext.1
    simp only [rawTextTags, List.mem_cons, List.not_mem_nil, or_false, not_or] at hraw
    simp [verbatimTags, hraw, hne]

/-- The text of a `plaintext` element is followed by a mark of another kind. -/
theorem Nested.plainText_ends {outer : List String} (h : Nested ("plaintext" :: outer) ms) :
    ∃ (m : Mark) (ms' : List Mark), m.Legible ∧
      ms.flatMap Mark.markup = plainText ms ++ (m.markup ++ ms'.flatMap Mark.markup) ∧
      (plainText ms).length ≤ leading (ms.map Mark.token ++ [.endOfFile]) := by
  generalize htags : "plaintext" :: outer = tags at h
  induction h with
  | nil => cases htags
  | @text tags c ms rest ih =>
    subst htags
    obtain ⟨m, ms', hm, hmarkup, hleading⟩ := ih rfl
    refine ⟨m, ms', hm, ?_, Nat.succ_le_succ hleading⟩
    rw [List.flatMap_cons, hmarkup]
    rfl
  | comment legible rest => exact ⟨_, _, legible, rfl, Nat.zero_le _⟩
  | doctype legible rest => exact ⟨_, _, legible, rfl, Nat.zero_le _⟩
  | close legible rest => exact ⟨_, _, legible, rfl, Nat.zero_le _⟩
  | start legible holdsTags rest => exact ⟨_, _, legible, rfl, Nat.zero_le _⟩
  | textElement legible isText lacks rest => exact ⟨_, _, legible, rfl, Nat.zero_le _⟩

/-- A character of a `plaintext` element is read back if the text does not start markup with it. -/
theorem run_plain_text {outer : List String} (h : Nested ("plaintext" :: outer) ms) (c : Char) :
    run .data (c :: ms.flatMap Mark.markup) =
        .character c :: (ms.map Mark.token ++ [.endOfFile]) ↔
      startsMarkup (c :: plainText ms) = false ∧
        run .data (ms.flatMap Mark.markup) = ms.map Mark.token ++ [.endOfFile] := by
  obtain ⟨m, ms', hm, hmarkup, hleading⟩ := h.plainText_ends
  obtain ⟨u, hu⟩ := exists_markup_of_legible hm
  have hlead : leading (run .data ('<' :: (u ++ ms'.flatMap Mark.markup))) = 0 := by
    rw [← List.cons_append, ← hu, run_of_legible hm]
    exact leading_of_legible hm _
  rw [hu, List.cons_append] at hmarkup
  rw [hmarkup]
  by_cases hstart : startsMarkup (c :: plainText ms)
  · simp only [hstart, Bool.true_eq_false, false_and, iff_false]
    intro heq
    have hlt := (leading_run hlead (c :: plainText ms)).2 hstart
    rw [List.cons_append, heq, List.length_cons, leading] at hlt
    omega
  · rw [Bool.not_eq_true] at hstart
    rw [run_plain_cons hstart, List.cons.injEq]
    simp [hstart]

/-! ## Documents -/

theorem run_textElement {e : Element} (h : (Mark.start e).Legible) (htext : isTextTag e.tag)
    {cs : List Char} (hlacks : rawTextTags.contains e.tag → LacksEndTag e.tag.toList cs)
    (r : List Char) :
    run .data ((Mark.start e).markup ++
        ((cs.map (Mark.text (some e.tag))).flatMap Mark.markup ++
          ((Mark.close e.tag).markup ++ r))) =
      (Mark.start e).token :: (cs.map .character ++ (Mark.close e.tag).token :: run .data r) := by
  rw [run_of_legible h]
  show _ :: run (.afterStartTag e.tag) _ = _
  congr 1
  unfold Mode.afterStartTag
  cases hraw : rawTextTags.contains e.tag with
  | true =>
    have hverbatim : verbatimTags.contains e.tag := by
      have hsubset : ∀ t ∈ rawTextTags, verbatimTags.contains t := by decide
      exact hsubset _ (by simpa using hraw)
    have hmarkup : (cs.map (Mark.text (some e.tag))).flatMap Mark.markup = cs := by
      rw [List.flatMap_map]
      simp only [Mark.markup, Option.map_some, hverbatim, Option.getD_some, if_true]
      exact List.flatMap_singleton' cs
    rw [hmarkup, if_pos rfl, run_rawText, rawText_verbatim (hlacks hraw), run_close h.1]
    rfl
  | false =>
    have hescapable : escapableTextTags.contains e.tag := by
      rwa [isTextTag, hraw, Bool.false_or] at htext
    have hverbatim : verbatimTags.contains e.tag = false := by
      have hdisjoint : ∀ t ∈ escapableTextTags, verbatimTags.contains t = false := by decide
      exact hdisjoint _ (by simpa using hescapable)
    have hmarkup : (cs.map (Mark.text (some e.tag))).flatMap Mark.markup =
        cs.flatMap fun c => (escapeChar c).toList := by
      rw [List.flatMap_map]
      simp only [Mark.markup, Option.map_some, hverbatim, Option.getD_some]
      rfl
    rw [hmarkup, if_neg Bool.false_ne_true, if_pos hescapable, run_rawText, rawText_escaped,
      run_close h.1]
    rfl

theorem run_iff_of_legible {m : Mark} (h : m.Legible) (hafter : m.after = .data) :
    run .data ((m :: ms).flatMap Mark.markup) = (m :: ms).map Mark.token ++ [.endOfFile] ↔
      run .data (ms.flatMap Mark.markup) = ms.map Mark.token ++ [.endOfFile] := by
  rw [List.flatMap_cons, run_of_legible h, hafter, List.map_cons, List.cons_append, List.cons.injEq]
  simp

/-- Nested marks are read back one by one if and only if their plain text starts no markup. -/
theorem Nested.run_iff (h : Nested tags ms) (htags : ∀ tag ∈ tags, isTextTag tag = false) :
    run .data (ms.flatMap Mark.markup) = ms.map Mark.token ++ [.endOfFile] ↔ readsBack ms := by
  induction h with
  | nil => exact ⟨fun _ => rfl, fun _ => by simp [run, Mode.finish]⟩
  | @text tags c ms rest ih =>
    by_cases hplain : tags.head? = some "plaintext"
    · obtain ⟨outer, rfl⟩ := List.head?_eq_some_iff.1 hplain
      have hparent : (Mark.text (some "plaintext") c).plain? = some c := rfl
      rw [List.flatMap_cons, List.head?_cons, readsBack_cons, plainText, hparent,
        Bool.and_eq_true, Bool.not_eq_true', ← ih htags]
      exact run_plain_text rest c
    · have hverbatim := not_verbatim_of_holdsTags
        (fun tag htag => htags tag (List.mem_of_mem_head? htag)) hplain
      rw [List.flatMap_cons, markup_text_of_not_verbatim hverbatim, run_escapeChar,
        readsBack_cons_of_plain?_eq_none (by simp [plain?, hplain]), ← ih htags, List.map_cons,
        List.cons_append, List.cons.injEq]
      simp [Mark.token]
  | comment legible rest ih => exact (run_iff_of_legible legible rfl).trans (ih htags)
  | doctype legible rest ih => exact (run_iff_of_legible legible rfl).trans (ih htags)
  | close legible rest ih =>
    exact (run_iff_of_legible legible rfl).trans
      (ih fun t ht => htags t (List.mem_cons_of_mem _ ht))
  | start legible holdsTags rest ih =>
    refine (run_iff_of_legible legible (afterStartTag_of_holdsTags holdsTags)).trans (ih ?_)
    split_ifs
    · exact htags
    · rintro t (_ | ⟨_, ht⟩)
      · exact holdsTags
      · exact htags t ht
  | @textElement tags e cs ms legible isText lacks rest ih =>
    have hplain : ∀ m ∈ cs.map (Mark.text (some e.tag)), m.plain? = none := by
      have hne : e.tag ≠ "plaintext" := fun heq => by
        rw [heq] at isText
        exact absurd isText (by decide)
      simp [plain?, hne]
    rw [readsBack_cons_of_plain?_eq_none rfl, readsBack_append hplain,
      readsBack_cons_of_plain?_eq_none rfl, ← ih htags, List.flatMap_cons, List.flatMap_append,
      List.flatMap_cons, run_textElement legible isText lacks]
    simp [Mark.token, List.map_map, Function.comp_def]

end Html

/-- Whether no markup starts in the text of a `plaintext` element of a document. -/
def Dom.plainTextReadsBack (d : Dom) : Bool :=
  Mark.readsBack d.marks

namespace Html

theorem nested_marks (h : String) : Nested [] (parse h).dom.marks := by
  rw [parse, marks_build]
  exact nested_marksFrom (lexed_tokens h) (by simp)

/-- The markup of a document that was read from a text is read as the marks it was written from,
if and only if no markup starts in the text of a `plaintext` element. Then the document that is read
from the markup is written as the same markup. -/
theorem markup_reads_back (h : String) :
    (tokens (parse h).dom.markup = (parse h).dom.marks.map Mark.token ++ [.endOfFile] ↔
        (parse h).dom.plainTextReadsBack) ∧
      ((parse h).dom.plainTextReadsBack →
        (parse (parse h).dom.markup).dom.markup = (parse h).dom.markup) := by
  have htokens : tokens (parse h).dom.markup = (parse h).dom.marks.map Mark.token ++ [.endOfFile] ↔
      (parse h).dom.plainTextReadsBack := by
    rw [tokens, Dom.toList_markup]
    exact (nested_marks h).run_iff (by simp)
  refine ⟨htokens, fun hreads => ?_⟩
  have hmarks : (parse (parse h).dom.markup).dom.marks = (parse h).dom.marks := by
    have hd : (parse h).dom.marks = marksFrom [] (tokens h) := marks_build _
    rw [parse, marks_build, htokens.2 hreads, hd]
    exact marksFrom_marksFrom .nil _
  rw [← String.toList_inj, Dom.toList_markup, Dom.toList_markup, hmarks]

theorem markup_reads_back_lone_lt :
    (parse "<p><plaintext>a < b &amp; c").dom.plainTextReadsBack ∧
      (parse (parse "<p><plaintext>a < b &amp; c").dom.markup).dom.markup =
        (parse "<p><plaintext>a < b &amp; c").dom.markup :=
  ⟨by decide +kernel, (markup_reads_back _).2 (by decide +kernel)⟩

/-- A reference whose ampersand was written as a reference itself is resolved the second time. -/
theorem markup_loses_reference :
    (parse (parse "<plaintext>&amp;lt;</plaintext>").dom.markup).dom.markup ≠
      (parse "<plaintext>&amp;lt;</plaintext>").dom.markup := by
  decide +kernel

end Html

end Restyle
