import Mathlib.Data.List.Infix
import Mathlib.Tactic.SplitIfs
import Restyle.Html.Document

/-!
# End tags that start tags imply

A start tag closes open elements by their tags alone, and what it closes is the innermost part of
them. `Settled` says of a list of open tags that none of their start tags closed one that is still
open around it. Then a start tag that comes once more closes nothing (`impliedEnd_idem`), which is
why markup with all end tags written reads back as it is.
-/

namespace Restyle.Html

/-! ## What is closed depends on the tags -/

section

variable {targets boundaries : List String}

theorem search_suffix {frames inner : List Frame} (h : inner <:+ frames) :
    closeInScope.search targets boundaries frames inner <:+ frames := by
  induction inner with
  | nil => exact List.suffix_refl _
  | cons f outer ih =>
    have houter := (List.suffix_cons f outer).trans h
    rw [closeInScope.search]
    split_ifs
    · exact houter
    · exact List.suffix_refl _
    · exact ih houter

theorem closeInScope_suffix (frames : List Frame) :
    closeInScope targets boundaries frames <:+ frames :=
  search_suffix (List.suffix_refl _)

theorem search_map {g : Frame → Frame} (hg : ∀ f, (g f).tag = f.tag) (frames inner : List Frame) :
    closeInScope.search targets boundaries (frames.map g) (inner.map g) =
      (closeInScope.search targets boundaries frames inner).map g := by
  induction inner with
  | nil => rfl
  | cons f outer ih =>
    rw [List.map_cons, closeInScope.search, closeInScope.search, hg]
    split_ifs
    · rfl
    · rfl
    · exact ih

theorem closeInScope_map {g : Frame → Frame} (hg : ∀ f, (g f).tag = f.tag) (frames : List Frame) :
    closeInScope targets boundaries (frames.map g) =
      (closeInScope targets boundaries frames).map g :=
  search_map hg frames frames

theorem search_cases {frames inner : List Frame} (h : inner <:+ frames) :
    closeInScope.search targets boundaries frames inner = frames ∨
      ∃ f outer, f :: outer <:+ frames ∧ f.tag ∈ targets ∧
        closeInScope.search targets boundaries frames inner = outer := by
  induction inner with
  | nil => exact .inl rfl
  | cons f outer ih =>
    rw [closeInScope.search]
    split_ifs with htarget
    · exact .inr ⟨f, outer, h, by simpa using htarget, rfl⟩
    · exact .inl rfl
    · exact ih ((List.suffix_cons f outer).trans h)

/-- Either nothing is closed, or one of the targets with all inside it. -/
theorem closeInScope_cases (frames : List Frame) :
    closeInScope targets boundaries frames = frames ∨
      ∃ f outer, f :: outer <:+ frames ∧ f.tag ∈ targets ∧
        closeInScope targets boundaries frames = outer :=
  search_cases (List.suffix_refl _)

end

theorem closeOption_suffix (frames : List Frame) : closeOption frames <:+ frames := by
  cases frames with
  | nil => exact List.suffix_refl _
  | cons f outer =>
    rw [closeOption]
    split_ifs
    · exact List.suffix_cons _ _
    · exact List.suffix_refl _

theorem closeOption_map {g : Frame → Frame} (hg : ∀ f, (g f).tag = f.tag) (frames : List Frame) :
    closeOption (frames.map g) = (closeOption frames).map g := by
  cases frames with
  | nil => rfl
  | cons f outer =>
    rw [List.map_cons, closeOption, closeOption, hg]
    split_ifs <;> rfl

theorem closeImplied_suffix (tag : String) (frames : List Frame) :
    closeImplied tag frames <:+ frames := by
  unfold closeImplied
  have hp : (if closesParagraph.contains tag then closeInScope ["p"] [] frames else frames) <:+
      frames := by
    split_ifs
    · exact closeInScope_suffix _
    · exact List.suffix_refl _
  generalize (if closesParagraph.contains tag then closeInScope ["p"] [] frames else frames) = fs
    at hp
  dsimp only
  refine List.IsSuffix.trans ?_ hp
  split
  · exact closeInScope_suffix _
  · exact closeInScope_suffix _
  · exact closeInScope_suffix _
  · exact closeOption_suffix _
  · exact (closeInScope_suffix _).trans (closeInScope_suffix _)
  · exact closeInScope_suffix _
  · exact closeInScope_suffix _
  · exact List.suffix_refl _

theorem closeImplied_map {g : Frame → Frame} (hg : ∀ f, (g f).tag = f.tag) (tag : String)
    (frames : List Frame) : closeImplied tag (frames.map g) = (closeImplied tag frames).map g := by
  unfold closeImplied
  have hp : (if closesParagraph.contains tag then closeInScope ["p"] [] (frames.map g)
      else frames.map g) =
      (if closesParagraph.contains tag then closeInScope ["p"] [] frames else frames).map g := by
    split_ifs
    · exact closeInScope_map hg _
    · rfl
  rw [hp]
  dsimp only
  split
  · exact closeInScope_map hg _
  · exact closeInScope_map hg _
  · exact closeInScope_map hg _
  · exact closeOption_map hg _
  · rw [closeInScope_map hg, closeInScope_map hg]
  · exact closeInScope_map hg _
  · exact closeInScope_map hg _
  · rfl

/-! ## Open tags that are settled -/

/-- Whether no start tag of the open elements would close one around it. -/
def SettledFrames (frames : List Frame) : Prop :=
  ∀ f outer, f :: outer <:+ frames → closeImplied f.tag outer = outer

variable {frames : List Frame}

theorem closeInScope_idem {targets boundaries : List String}
    (htargets : ∀ tag ∈ targets, ∀ fs, closeImplied tag fs = fs →
      closeInScope targets boundaries fs = fs) (h : SettledFrames frames) :
    closeInScope targets boundaries (closeInScope targets boundaries frames) =
      closeInScope targets boundaries frames := by
  rcases closeInScope_cases frames with
    heq | ⟨f, outer, hsuffix, htag, heq⟩
  · rw [heq, heq]
  · rw [heq]
    exact htargets f.tag htag outer (h f outer hsuffix)

theorem SettledFrames.suffix {inner : List Frame} (h : SettledFrames frames)
    (hi : inner <:+ frames) : SettledFrames inner :=
  fun f outer hf => h f outer (hf.trans hi)

theorem closeOption_idem (h : SettledFrames frames) :
    closeOption (closeOption frames) = closeOption frames := by
  cases frames with
  | nil => rfl
  | cons f outer =>
    rw [closeOption]
    split_ifs with hf
    · have := h f outer (List.suffix_refl _)
      rw [beq_iff_eq.1 hf] at this
      exact this
    · rw [closeOption, if_neg hf]

/-- A row that is opened once more closes neither a cell nor a row. -/
theorem closeRow_idem (h : SettledFrames frames) :
    closeImplied "tr" (closeImplied "tr" frames) = closeImplied "tr" frames := by
  show closeInScope ["tr"] ["tbody", "thead", "tfoot"] (closeInScope ["td", "th"] ["tr"]
      (closeInScope ["tr"] ["tbody", "thead", "tfoot"] (closeInScope ["td", "th"] ["tr"] frames))) =
    closeInScope ["tr"] ["tbody", "thead", "tfoot"] (closeInScope ["td", "th"] ["tr"] frames)
  have hcells : SettledFrames (closeInScope ["td", "th"] ["tr"] frames) :=
    h.suffix (closeInScope_suffix _)
  have hidem : closeInScope ["td", "th"] ["tr"] (closeInScope ["td", "th"] ["tr"] frames) =
      closeInScope ["td", "th"] ["tr"] frames := by
    refine closeInScope_idem ?_ h
    simp only [List.mem_cons, List.not_mem_nil, or_false, forall_eq_or_imp, forall_eq]
    exact ⟨fun _ hfs => hfs, fun _ hfs => hfs⟩
  rcases closeInScope_cases
    (closeInScope ["td", "th"] ["tr"] frames) with heq | ⟨f, outer, hsuffix, htag, heq⟩
  · rw [heq, hidem, heq]
  · have hrow := hcells f outer hsuffix
    rw [List.mem_singleton.1 htag] at hrow
    rw [heq]
    exact hrow

theorem closeItem_idem (h : SettledFrames frames) {tag : String} {targets boundaries : List String}
    (htag : ∀ fs, closeImplied tag fs = closeInScope targets boundaries fs)
    (htargets : ∀ t ∈ targets, ∀ fs, closeImplied t fs = closeInScope targets boundaries fs) :
    closeImplied tag (closeImplied tag frames) = closeImplied tag frames := by
  rw [htag, htag]
  exact closeInScope_idem (fun t ht fs hfs => (htargets t ht fs).symm.trans hfs) h

theorem closeImplied_of_ne {tag : String} (hitem : tag ≠ "li") (hterm : tag ≠ "dt")
    (hdetail : tag ≠ "dd") (hoption : tag ≠ "option") (hrow : tag ≠ "tr") (hcell : tag ≠ "td")
    (hhead : tag ≠ "th") (fs : List Frame) :
    closeImplied tag fs =
      if closesParagraph.contains tag then closeInScope ["p"] [] fs else fs := by
  unfold closeImplied
  dsimp only
  split <;> first | rfl | contradiction

/-- A start tag that is repeated closes nothing more. -/
theorem closeImplied_idem (h : SettledFrames frames) (tag : String) :
    closeImplied tag (closeImplied tag frames) = closeImplied tag frames := by
  by_cases hrow : tag = "tr"
  · subst hrow
    exact closeRow_idem h
  by_cases hoption : tag = "option"
  · subst hoption
    exact closeOption_idem h
  by_cases hitem : tag = "li"
  · subst hitem
    exact closeItem_idem h (fun _ => rfl)
      (by simp only [List.mem_singleton, forall_eq]; exact fun _ => rfl)
  have hterms : ∀ t ∈ ["dt", "dd"], ∀ fs,
      closeImplied t fs = closeInScope ["dt", "dd"] ["dl"] fs := by
    simp only [List.mem_cons, List.not_mem_nil, or_false, forall_eq_or_imp, forall_eq]
    exact ⟨fun _ => rfl, fun _ => rfl⟩
  by_cases hterm : tag = "dt"
  · exact closeItem_idem h (hterms tag (by simp [hterm])) hterms
  by_cases hdetail : tag = "dd"
  · exact closeItem_idem h (hterms tag (by simp [hdetail])) hterms
  have hcells : ∀ t ∈ ["td", "th"], ∀ fs,
      closeImplied t fs = closeInScope ["td", "th"] ["tr"] fs := by
    simp only [List.mem_cons, List.not_mem_nil, or_false, forall_eq_or_imp, forall_eq]
    exact ⟨fun _ => rfl, fun _ => rfl⟩
  by_cases hcell : tag = "td"
  · exact closeItem_idem h (hcells tag (by simp [hcell])) hcells
  by_cases hhead : tag = "th"
  · exact closeItem_idem h (hcells tag (by simp [hhead])) hcells
  have hother := closeImplied_of_ne hitem hterm hdetail hoption hrow hcell hhead
  by_cases hp : closesParagraph.contains tag
  · simp only [hp, if_true] at hother
    exact closeItem_idem h hother
      (by simp only [List.mem_singleton, forall_eq]; exact fun _ => rfl)
  · simp only [hp, if_false, Bool.false_eq_true] at hother
    rw [hother, hother]

/-! ## Implied end tags by their tags -/

/-- A frame of which only the tag counts. -/
def bare (f : Frame) : Frame :=
  ⟨0, f.tag⟩

/-- The tags that stay open at a start tag. -/
def impliedEnd (tag : String) (tags : List String) : List String :=
  (closeImplied tag (tags.map (Frame.mk 0))).map (·.tag)

theorem map_tag_map_mk (tags : List String) : (tags.map (Frame.mk 0)).map (·.tag) = tags := by
  rw [List.map_map]
  exact List.map_id tags

theorem map_mk_map_tag (frames : List Frame) :
    (frames.map (·.tag)).map (Frame.mk 0) = frames.map bare := by
  rw [List.map_map]
  rfl

theorem map_closeImplied (tag : String) (frames : List Frame) :
    (closeImplied tag frames).map (·.tag) = impliedEnd tag (frames.map (·.tag)) := by
  rw [impliedEnd, map_mk_map_tag, closeImplied_map (g := bare) (fun _ => rfl), List.map_map]
  rfl

theorem closeImplied_mk (tag : String) (tags : List String) :
    closeImplied tag (tags.map (Frame.mk 0)) = (impliedEnd tag tags).map (Frame.mk 0) := by
  rw [impliedEnd, map_mk_map_tag, ← closeImplied_map (g := bare) (fun _ => rfl), List.map_map]
  rfl

theorem impliedEnd_suffix (tag : String) (tags : List String) : impliedEnd tag tags <:+ tags := by
  have h := (closeImplied_suffix tag (tags.map (Frame.mk 0))).map (·.tag)
  rwa [map_tag_map_mk] at h

/-- Whether no start tag of the open elements would close one around it. -/
def Settled (tags : List String) : Prop :=
  ∀ tag outer, tag :: outer <:+ tags → impliedEnd tag outer = outer

theorem Settled.nil : Settled [] := by
  intro tag outer h
  simp at h

theorem Settled.suffix {tags inner : List String} (h : Settled tags) (hi : inner <:+ tags) :
    Settled inner :=
  fun tag outer ht => h tag outer (ht.trans hi)

theorem Settled.cons {tags : List String} (h : Settled tags) {tag : String}
    (htag : impliedEnd tag tags = tags) : Settled (tag :: tags) := by
  intro t outer ht
  rcases List.suffix_cons_iff.1 ht with heq | ht
  · cases heq
    exact htag
  · exact h t outer ht

/-- A start tag that comes once more closes nothing. -/
theorem impliedEnd_idem {tags : List String} (h : Settled tags) (tag : String) :
    impliedEnd tag (impliedEnd tag tags) = impliedEnd tag tags := by
  have hframes : SettledFrames (tags.map (Frame.mk 0)) := by
    rintro f outer ⟨inner, hinner⟩
    obtain ⟨before, after, rfl, -, hafter⟩ := List.map_eq_append_iff.1 hinner.symm
    obtain ⟨t, rest, rfl, rfl, rfl⟩ := List.map_eq_cons_iff.1 hafter
    rw [closeImplied_mk, h t rest (List.suffix_append _ _)]
  rw [impliedEnd, ← closeImplied_mk, closeImplied_idem hframes]
  rfl

end Restyle.Html
