import Restyle.Proofs.Html.Rereading

/-!
# Marks that are read as they are written

`Written` says of the marks of some nodes that they can stand inside the given open elements: they
are nested and legible, reading their tokens gives them again, and the `style` elements among them
have the given texts. Each kind of node has marks of that kind, if what is inside it has.
-/

namespace Restyle

namespace Mark

/-- The character of a mark of text. -/
def char? : Mark → Option Char
  | text _ c => some c
  | _ => none

/-- The text that some marks start with. -/
def leadingText : List Mark → List Char
  | [] => []
  | m :: ms =>
    match m.char? with
    | some c => c :: leadingText ms
    | none => []

/-- The texts of the `style` elements among some marks, up to the first mark that is no text. -/
def styleTexts : List Mark → List String
  | [] => []
  | start e :: ms =>
    if e.tag = "style" then String.ofList (leadingText ms) :: styleTexts ms else styleTexts ms
  | _ :: ms => styleTexts ms

theorem leadingText_map_append (parent : Option String) (cs : List Char) {m : Mark}
    (hm : m.char? = none) (ms : List Mark) :
    leadingText (cs.map (text parent) ++ m :: ms) = cs := by
  induction cs with
  | nil => rw [List.map_nil, List.nil_append, leadingText, hm]
  | cons c cs ih => exact congrArg (List.cons c) ih

theorem styleTexts_map_append (parent : Option String) (cs : List Char) (ms : List Mark) :
    styleTexts (cs.map (text parent) ++ ms) = styleTexts ms := by
  induction cs with
  | nil => rfl
  | cons c cs ih => exact ih

end Mark

namespace Html

open Mark

/-- Whether some marks can stand inside the open elements with the given tags, with these texts of
`style` elements. -/
structure Written (tags : List String) (ms : List Mark) (texts : List String) : Prop where
  /-- The marks are nested. -/
  nested : ∀ rest, Nested tags rest → Nested tags (ms ++ rest)
  /-- The tokens of the marks give them again. -/
  replays : Replays tags ms tags
  /-- The texts of `style` elements are these. -/
  styleTexts : ∀ rest, Mark.styleTexts (ms ++ rest) = texts ++ Mark.styleTexts rest

namespace Written

variable {tags : List String}

theorem nil (tags : List String) : Written tags [] [] where
  nested _ h := h
  replays := .nil tags
  styleTexts _ := rfl

theorem append {ms ms' : List Mark} {texts texts' : List String} (h : Written tags ms texts)
    (h' : Written tags ms' texts') : Written tags (ms ++ ms') (texts ++ texts') where
  nested rest hrest := by
    rw [List.append_assoc]
    exact h.nested _ (h'.nested _ hrest)
  replays := h.replays.append h'.replays
  styleTexts rest := by rw [List.append_assoc, h.styleTexts, h'.styleTexts, List.append_assoc]

theorem flatMap {α : Type} {xs : List α} {f : α → List Mark} {g : α → List String}
    (h : ∀ x ∈ xs, Written tags (f x) (g x)) : Written tags (xs.flatMap f) (xs.flatMap g) := by
  induction xs with
  | nil => exact nil tags
  | cons x xs ih =>
    rw [List.forall_mem_cons] at h
    exact h.1.append (ih h.2)

theorem text (tags : List String) (cs : List Char) :
    Written tags (cs.map (.text tags.head?)) [] where
  nested _ h := h.characters cs
  replays := by
    induction cs with
    | nil => exact .nil tags
    | cons c cs ih =>
      exact (replays_of_step (m := .text tags.head? c) (by simp [Mark.token]) rfl rfl).append ih
  styleTexts := styleTexts_map_append _ cs

theorem comment {data : String} (legible : (Mark.comment data).Legible) :
    Written tags [.comment data] [] where
  nested _ h := .comment legible h
  replays := replays_of_step (by simp [Mark.token]) rfl rfl
  styleTexts _ := rfl

theorem doctype {name : String} (legible : (Mark.doctype name).Legible) :
    Written [] [.doctype name] [] where
  nested _ h := .doctype legible h
  replays := by
    refine replays_of_step (by simp [Mark.token]) ?_ rfl
    by_cases hname : name = "" <;> simp [Mark.token, emitted, hname]
  styleTexts _ := rfl

variable {e : Element} (legible : (Mark.start e).Legible)
  (closesNothing : impliedEnd e.tag tags = tags)

include legible closesNothing

theorem void (isVoid : isVoidTag e.tag) : Written tags [.start e] [] := by
  have hholds : isTextTag e.tag = false := by
    by_contra h
    rw [isVoidTag_of_isTextTag (by simpa using h)] at isVoid
    cases isVoid
  refine ⟨fun rest h => .start legible hholds (by rwa [if_pos isVoid]), ?_, fun rest => ?_⟩
  · have h := replays_element closesNothing legible.2.2 false
    rwa [elementMarks, if_pos isVoid, isVoid, Bool.true_or, if_pos rfl] at h
  · have hstyle : e.tag ≠ "style" := by
      intro heq
      rw [heq] at hholds
      cases hholds
    rw [List.singleton_append, Mark.styleTexts, if_neg hstyle, List.nil_append]

theorem replays_start (notVoid : isVoidTag e.tag = false) :
    Replays tags [.start e] (e.tag :: tags) := by
  have h := replays_element closesNothing legible.2.2 false
  rwa [elementMarks, notVoid, Bool.false_or, if_neg Bool.false_ne_true, if_neg Bool.false_ne_true,
    if_neg Bool.false_ne_true] at h

theorem element (notVoid : isVoidTag e.tag = false) (holdsTags : isTextTag e.tag = false)
    {inner : List Mark} {texts : List String} (h : Written (e.tag :: tags) inner texts) :
    Written tags (.start e :: (inner ++ [.close e.tag])) texts := by
  refine ⟨fun rest hrest => ?_, ?_, fun rest => ?_⟩
  · have hinner := h.nested _ (.close legible.1 hrest)
    rw [List.cons_append, List.append_assoc]
    exact .start legible holdsTags (by rwa [if_neg (by simp [notVoid])])
  · exact (replays_start legible closesNothing notVoid).append
      (h.replays.append (replays_close e.tag tags))
  · have hstyle : e.tag ≠ "style" := by
      intro heq
      rw [heq] at holdsTags
      cases holdsTags
    rw [List.cons_append, Mark.styleTexts, if_neg hstyle, List.append_assoc, h.styleTexts]
    rfl

/-- An element such as `style` with its text. -/
theorem textElement (isText : isTextTag e.tag) {cs : List Char}
    (lacks : rawTextTags.contains e.tag → LacksEndTag e.tag.toList cs) :
    Written tags (.start e :: (cs.map (.text (some e.tag)) ++ [.close e.tag]))
      (if e.tag = "style" then [String.ofList cs] else []) := by
  have hcs := text (e.tag :: tags) cs
  refine ⟨fun rest hrest => ?_, ?_, fun rest => ?_⟩
  · rw [List.cons_append, List.append_assoc]
    exact .textElement legible isText lacks hrest
  · exact (replays_start legible closesNothing (isVoidTag_of_isTextTag isText)).append
      (hcs.replays.append (replays_close e.tag tags))
  · have hclose : Mark.styleTexts (.close e.tag :: rest) = Mark.styleTexts rest := rfl
    rw [List.cons_append, List.append_assoc, List.singleton_append, Mark.styleTexts,
      leadingText_map_append _ _ rfl, styleTexts_map_append, hclose]
    split_ifs <;> rfl

end Written

end Html

end Restyle
