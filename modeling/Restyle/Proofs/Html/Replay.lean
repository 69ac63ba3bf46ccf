import Restyle.Proofs.Html.Building

/-!
# Building a document from its own marks

The marks of a document are the tokens of a text in which every end tag is written. A builder that
reads them closes nothing by itself and drops nothing, so it gives the same marks once more
(`marksFrom_marksFrom`). The invariant of the run is that the open tags are `Settled`.
-/

namespace Restyle

namespace Attribute

/-- Whether no name stands twice. -/
def Distinct (as : List Attribute) : Prop :=
  as.Pairwise fun a b => a.name ≠ b.name

theorem foldl_firstWins (as table : List Attribute) (h : Distinct (table ++ as)) :
    as.foldl (fun table a => if mem a.name table then table else table ++ [a]) table =
      table ++ as := by
  induction as generalizing table with
  | nil => simp
  | cons a as ih =>
    have hnew : mem a.name table = false := by
      have := (List.pairwise_append.1 h).2.2
      simp only [mem, List.any_eq_false, beq_iff_eq]
      exact fun b hb => this b hb a (by simp)
    rw [List.foldl_cons, hnew, if_neg Bool.false_ne_true, ih]
    · simp
    · simpa using h

theorem firstWins_of_distinct {as : List Attribute} (h : Distinct as) : firstWins as = as :=
  foldl_firstWins as [] h

theorem distinct_firstWins (as : List Attribute) : Distinct (firstWins as) := by
  unfold firstWins
  have hstep : ∀ (bs table : List Attribute), Distinct table →
      Distinct
        (bs.foldl (fun table a => if mem a.name table then table else table ++ [a]) table) := by
    intro bs
    induction bs with
    | nil => exact fun _ h => h
    | cons b bs ih =>
      intro table h
      rw [List.foldl_cons]
      apply ih _
      split_ifs with hmem
      · exact h
      · simp only [mem, List.any_eq_true, beq_iff_eq, not_exists, not_and] at hmem
        refine List.pairwise_append.2 ⟨h, List.pairwise_singleton _ _, fun a ha c hc => ?_⟩
        rw [List.mem_singleton.1 hc]
        exact hmem a ha
  exact hstep as [] .nil

end Attribute

namespace Mark

open Html

/-- The token that a mark is read as. -/
def token : Mark → Token
  | start e => .startTag e.tag false e.attributes
  | close tag => .endTag tag
  | text _ c => .character c
  | comment data => .comment data
  | doctype name => .doctype (if name = "" then none else some name)

end Mark

namespace Html

/-- Whether the tokens of some marks, read within the given open tags, give these marks and leave
these tags open. -/
def Replays (tags : List String) (ms : List Mark) (after : List String) : Prop :=
  ∀ rest, marksFrom tags (ms.map Mark.token ++ rest) = ms ++ marksFrom after rest

theorem Replays.nil (tags : List String) : Replays tags [] tags :=
  fun _ => rfl

theorem Replays.append {tags₁ tags₂ tags₃ : List String} {ms₁ ms₂ : List Mark}
    (h₁ : Replays tags₁ ms₁ tags₂) (h₂ : Replays tags₂ ms₂ tags₃) :
    Replays tags₁ (ms₁ ++ ms₂) tags₃ := by
  intro rest
  rw [List.map_append, List.append_assoc, h₁, h₂, List.append_assoc]

theorem replays_of_step {tags after : List String} {m : Mark} (hm : m.token ≠ .endOfFile)
    (hemitted : emitted tags m.token = [m]) (hafter : openAfter tags m.token = after) :
    Replays tags [m] after := by
  intro rest
  rw [List.map_singleton, List.singleton_append, marksFrom.eq_3 _ _ _ hm, hemitted, hafter]

theorem replays_close (tag : String) (outer : List String) :
    Replays (tag :: outer) [.close tag] outer := by
  have hafter : afterEnd tag (tag :: outer) = outer := by
    simp [afterEnd]
  refine replays_of_step (by simp [Mark.token]) ?_ hafter
  show closing (tag :: outer) (afterEnd tag (tag :: outer)) = _
  rw [hafter]
  exact closing_append [tag] outer

theorem replays_closing {tags outer : List String} (h : outer <:+ tags) :
    Replays tags (closing tags outer) outer := by
  obtain ⟨inner, rfl⟩ := h
  rw [closing_append]
  induction inner with
  | nil => exact .nil outer
  | cons tag inner ih => exact (replays_close tag _).append ih

theorem replays_element {tags : List String} {e : Element} (htags : impliedEnd e.tag tags = tags)
    (he : Attribute.Distinct e.attributes) (selfClosed : Bool) :
    Replays tags (elementMarks e selfClosed)
      (if isVoidTag e.tag || selfClosed then tags else e.tag :: tags) := by
  have hstart : Replays tags [.start e] (if isVoidTag e.tag then tags else e.tag :: tags) := by
    refine replays_of_step (by simp [Mark.token]) ?_ ?_
    · simp [Mark.token, emitted, htags, closing_self, elementMarks, closesItself,
        Attribute.firstWins_of_distinct he]
    · simp [Mark.token, openAfter, htags, closesItself]
  unfold elementMarks
  cases hvoid : isVoidTag e.tag with
  | true => simpa [hvoid] using hstart
  | false =>
    cases selfClosed with
    | false => simpa [hvoid] using hstart
    | true => exact Replays.append (by simpa [hvoid] using hstart) (replays_close e.tag tags)

/-- The marks of a token replay, and settled tags stay settled. -/
theorem replays_emitted {tags : List String} (h : Settled tags) (t : Token) :
    Replays tags (emitted tags t) (openAfter tags t) ∧ Settled (openAfter tags t) := by
  cases t with
  | character c => exact ⟨replays_of_step (by simp [Mark.token]) rfl rfl, h⟩
  | comment data => exact ⟨replays_of_step (by simp [Mark.token]) rfl rfl, h⟩
  | endOfFile => exact ⟨.nil tags, h⟩
  | doctype name =>
    refine ⟨?_, h⟩
    unfold emitted
    split_ifs with hempty
    · refine replays_of_step (by simp [Mark.token]) ?_ rfl
      simp only [Mark.token, emitted, hempty, if_true]
      cases name with
      | none => rfl
      | some n => by_cases hn : n = "" <;> simp [hn]
    · exact .nil tags
  | endTag tag =>
    have hsuffix := afterEnd_suffix tag tags
    exact ⟨replays_closing hsuffix, h.suffix hsuffix⟩
  | startTag tag selfClosing attributes =>
    have hsuffix := impliedEnd_suffix tag tags
    have hidem := impliedEnd_idem h tag
    have helement := replays_element (e := ⟨tag, Attribute.firstWins attributes⟩) hidem
      (Attribute.distinct_firstWins attributes)
      (closesItself tag selfClosing (impliedEnd tag tags))
    refine ⟨(replays_closing hsuffix).append helement, ?_⟩
    unfold openAfter
    dsimp only
    split_ifs
    · exact h.suffix hsuffix
    · exact (h.suffix hsuffix).cons hidem

/-- The marks of a run of tokens, read as tokens, give the same marks. -/
theorem marksFrom_marksFrom {tags : List String} (h : Settled tags) (ts : List Token) :
    marksFrom tags ((marksFrom tags ts).map Mark.token ++ [.endOfFile]) = marksFrom tags ts := by
  induction ts generalizing tags with
  | nil =>
    have hclosing := replays_closing (List.nil_suffix (l := tags))
    rw [show closing tags [] = tags.map .close by simpa using closing_append tags []] at hclosing
    rw [marksFrom, hclosing]
    simp [marksFrom]
  | cons t ts ih =>
    by_cases ht : t = .endOfFile
    · subst ht
      have hclosing := replays_closing (List.nil_suffix (l := tags))
      rw [show closing tags [] = tags.map .close by simpa using closing_append tags []] at hclosing
      rw [marksFrom, hclosing]
      simp [marksFrom]
    · obtain ⟨hreplays, hsettled⟩ := replays_emitted h t
      rw [marksFrom.eq_3 _ _ _ ht, List.map_append, List.append_assoc, hreplays, ih hsettled]

end Html

end Restyle
