import Mathlib.Tactic.MkIffOfInductiveProp
import Restyle.Proofs.Dom.Walks
import Restyle.Proofs.Html.Contents

/-!
# What may stand around an element

`Suits` says inside which elements an element may stand, and a start tag closes nothing exactly
where its element suits the open ones (`closeImplied_eq_self_iff`). Main statement: each element of
a built document suits the elements around it, so that its start tag, read once more inside them,
would close none of them (`suits_build`).

The invariant of a run is a property of the tree alone, `Dom.Steady`. As the open elements are those
around the next node (`Growing.framesAt_current`), a tree that is steady has only settled ones,
wherever end tags have cut them off (`Steady.settledFrames`).
-/

namespace Restyle

namespace Html

/-! ## Closing nothing -/

/-- Whether each of the targets is met only after a stop, on the way from the first tag on. -/
def Screened (targets stops tags : List String) : Prop :=
  ∀ inner tag outer, tags = inner ++ tag :: outer → tag ∈ targets → ∃ stop ∈ inner, stop ∈ stops

/-- Whether an element may stand inside elements with the given tags, the innermost first. -/
@[mk_iff]
structure Suits (tag : String) (around : List String) : Prop where
  /-- What closes a paragraph is in none, up to the nearest boundary. -/
  paragraph : tag ∈ closesParagraph → Screened ["p"] boundaryTags around
  /-- Between an item and another one around it there is a list or a boundary. -/
  item : tag = "li" → Screened ["li"] (["ul", "ol"] ++ boundaryTags) around
  /-- Between a term and another one around it there is a list or a boundary. -/
  term : tag ∈ ["dt", "dd"] → Screened ["dt", "dd"] (["dl"] ++ boundaryTags) around
  /-- Between a cell or a row and a cell around it there is a row or a boundary that is no cell. -/
  cell : tag ∈ ["td", "th", "tr"] →
    Screened ["td", "th"] (["tr"] ++ boundaryTags.filter (· ∉ ["td", "th"])) around
  /-- Between a row and another one around it there is a part of a table or a boundary. -/
  row : tag = "tr" → Screened ["tr"] (["tbody", "thead", "tfoot"] ++ boundaryTags) around
  /-- An option is not directly in another one. -/
  option : tag = "option" → around.head? ≠ some "option"

section

variable {targets boundaries stops tags : List String}

theorem screened_nil : Screened targets stops [] := by
  intro inner tag outer h
  simp at h

theorem screened_cons_iff {tag : String} :
    Screened targets stops (tag :: tags) ↔
      tag ∉ targets ∧ (tag ∈ stops ∨ Screened targets stops tags) := by
  constructor
  · intro h
    have htag : tag ∉ targets := by
      intro htag
      obtain ⟨stop, hstop, -⟩ := h [] tag tags rfl htag
      cases hstop
    refine ⟨htag, or_iff_not_imp_left.2 fun hstop inner t outer heq ht => ?_⟩
    obtain ⟨s, hs, hmem⟩ := h (tag :: inner) t outer (by rw [heq, List.cons_append]) ht
    rcases List.mem_cons.1 hs with rfl | hs
    · exact absurd hmem hstop
    · exact ⟨s, hs, hmem⟩
  · rintro ⟨htag, h⟩ inner t outer heq ht
    cases inner with
    | nil =>
      obtain ⟨rfl, -⟩ := List.cons.inj heq
      exact absurd ht htag
    | cons t' inner =>
      obtain ⟨rfl, htags⟩ := List.cons.inj heq
      rcases h with hstop | h
      · exact ⟨_, List.mem_cons_self, hstop⟩
      · obtain ⟨s, hs, hmem⟩ := h inner t outer htags ht
        exact ⟨s, List.mem_cons_of_mem _ hs, hmem⟩

/-- The search finds nothing if and only if the targets lie behind what it stops at. A target that
would stop the search as well is found before. -/
theorem closeInScope_eq_self_iff
    (hstops : ∀ tag ∉ targets, tag ∈ stops ↔ tag ∈ boundaries ∨ tag ∈ boundaryTags)
    (frames : List Frame) :
    closeInScope targets boundaries frames = frames ↔
      Screened targets stops (frames.map (·.tag)) := by
  have hsearch (inner : List Frame) (h : inner <:+ frames) :
      closeInScope.search targets boundaries frames inner = frames ↔
        Screened targets stops (inner.map (·.tag)) := by
    induction inner with
    | nil => exact iff_of_true rfl screened_nil
    | cons f outer ih =>
      rw [closeInScope.search, List.map_cons, screened_cons_iff]
      split_ifs with htarget hstop
      · have hshort : outer ≠ frames := by
          rintro rfl
          exact absurd h.length_le (by simp)
        exact iff_of_false hshort fun h => h.1 (List.contains_iff_mem.1 htarget)
      · have htag : f.tag ∉ targets := fun h => htarget (List.contains_iff_mem.2 h)
        rw [Bool.or_eq_true, List.contains_iff_mem, List.contains_iff_mem, ← hstops _ htag] at hstop
        exact iff_of_true rfl ⟨htag, .inl hstop⟩
      · have htag : f.tag ∉ targets := fun h => htarget (List.contains_iff_mem.2 h)
        rw [Bool.or_eq_true, List.contains_iff_mem, List.contains_iff_mem, ← hstops _ htag] at hstop
        rw [ih ((List.suffix_cons f outer).trans h), and_iff_right htag, or_iff_right hstop]
  exact hsearch frames (List.suffix_refl _)

/-- Of two searches one after the other, both find nothing if nothing is closed. -/
theorem closeInScope_closeInScope_eq_self_iff {targets' boundaries' : List String}
    (frames : List Frame) :
    closeInScope targets' boundaries' (closeInScope targets boundaries frames) = frames ↔
      closeInScope targets boundaries frames = frames ∧
        closeInScope targets' boundaries' frames = frames := by
  constructor
  · intro h
    have hsuffix : frames <:+ closeInScope targets boundaries frames := by
      conv_lhs => rw [← h]
      exact closeInScope_suffix _
    have hfirst := (closeInScope_suffix frames).eq_of_length_le hsuffix.length_le
    exact ⟨hfirst, by rwa [hfirst] at h⟩
  · rintro ⟨hfirst, hsecond⟩
    rw [hfirst, hsecond]

end

theorem closeOption_eq_self_iff (frames : List Frame) :
    closeOption frames = frames ↔ (frames.map (·.tag)).head? ≠ some "option" := by
  cases frames with
  | nil => simp [closeOption]
  | cons f outer =>
    rw [closeOption]
    split_ifs with hf <;> simpa using hf

/-- A start tag closes nothing if and only if its element suits the open ones. -/
theorem closeImplied_eq_self_iff (tag : String) (frames : List Frame) :
    closeImplied tag frames = frames ↔ Suits tag (frames.map (·.tag)) := by
  have hcells : closeInScope ["td", "th"] ["tr"] frames = frames ↔
      Screened ["td", "th"] (["tr"] ++ boundaryTags.filter (· ∉ ["td", "th"]))
        (frames.map (·.tag)) :=
    closeInScope_eq_self_iff (by simp +contextual) frames
  have hterms : closeInScope ["dt", "dd"] ["dl"] frames = frames ↔
      Screened ["dt", "dd"] (["dl"] ++ boundaryTags) (frames.map (·.tag)) :=
    closeInScope_eq_self_iff (by simp) frames
  rw [suits_iff]
  by_cases hrow : tag = "tr"
  · subst hrow
    have hrows : closeInScope ["tr"] ["tbody", "thead", "tfoot"] frames = frames ↔
        Screened ["tr"] (["tbody", "thead", "tfoot"] ++ boundaryTags) (frames.map (·.tag)) :=
      closeInScope_eq_self_iff (by simp [or_assoc]) frames
    show closeInScope ["tr"] ["tbody", "thead", "tfoot"] (closeInScope ["td", "th"] ["tr"] frames) =
      frames ↔ _
    rw [closeInScope_closeInScope_eq_self_iff, hcells, hrows]
    simp [closesParagraph]
  by_cases hoption : tag = "option"
  · subst hoption
    show closeOption frames = frames ↔ _
    rw [closeOption_eq_self_iff]
    simp [closesParagraph]
  by_cases hitem : tag = "li"
  · subst hitem
    have hitems : closeInScope ["li"] ["ul", "ol"] frames = frames ↔
        Screened ["li"] (["ul", "ol"] ++ boundaryTags) (frames.map (·.tag)) :=
      closeInScope_eq_self_iff (by simp [or_assoc]) frames
    show closeInScope ["li"] ["ul", "ol"] frames = frames ↔ _
    simp [closesParagraph, hitems]
  by_cases hterm : tag = "dt"
  · subst hterm
    show closeInScope ["dt", "dd"] ["dl"] frames = frames ↔ _
    simp [closesParagraph, hterms]
  by_cases hdetail : tag = "dd"
  · subst hdetail
    show closeInScope ["dt", "dd"] ["dl"] frames = frames ↔ _
    simp [closesParagraph, hterms]
  by_cases hcell : tag = "td"
  · subst hcell
    show closeInScope ["td", "th"] ["tr"] frames = frames ↔ _
    simp [closesParagraph, hcells]
  by_cases hhead : tag = "th"
  · subst hhead
    show closeInScope ["td", "th"] ["tr"] frames = frames ↔ _
    simp [closesParagraph, hcells]
  have hparagraph : closeInScope ["p"] [] frames = frames ↔
      Screened ["p"] boundaryTags (frames.map (·.tag)) :=
    closeInScope_eq_self_iff (by simp) frames
  rw [closeImplied_of_ne hitem hterm hdetail hoption hrow hcell hhead]
  by_cases hp : tag ∈ closesParagraph
  · rw [if_pos (List.contains_iff_mem.2 hp), hparagraph]
    simp [hp, hrow, hoption, hitem, hterm, hdetail, hcell, hhead]
  · rw [if_neg (mt List.contains_iff_mem.1 hp)]
    simp [hp, hrow, hoption, hitem, hterm, hdetail, hcell, hhead]

instance (tag : String) (around : List String) : Decidable (Suits tag around) :=
  decidable_of_iff
    (closeImplied tag (around.map (Frame.mk 0)) = around.map (Frame.mk 0))
    (by rw [closeImplied_eq_self_iff, map_tag_map_mk])

example : ¬ Suits "td" ["b", "th", "tr", "table"] ∧ Suits "td" ["tr", "table", "th"] := by decide

end Html

namespace Dom

open Html

/-! ## The elements around a node -/

/-- The element with the given number as an open one. -/
def frame? (d : Dom) (id : NodeId) : Option Frame :=
  (d.tag? id).map (Frame.mk id)

/-- The elements around a node as open ones, the innermost first. -/
def framesAround (d : Dom) (id : NodeId) : List Frame :=
  (d.ancestors id).filterMap d.frame?

/-- The tags of the elements around a node, the innermost first. -/
def tagsAround (d : Dom) (id : NodeId) : List String :=
  (d.ancestors id).filterMap d.tag?

/-- The elements that are open when nodes are put into the given one, the innermost first. -/
def framesAt (d : Dom) (id : NodeId) : List Frame :=
  (d.frame? id).toList ++ d.framesAround id

/-- A tree of elements in which no start tag closes an element around its own. -/
structure Steady (d : Dom) : Prop where
  /-- The tree is one. -/
  wellFormed : d.WellFormed
  /-- Above an element there are elements, and the document above them. -/
  nested : ∀ id tag, d.tag? id = some tag →
    d.ancestors id = (d.framesAround id).map (·.id) ++ [root]
  /-- With the elements around an element open, its start tag closes none of them. -/
  closesNone : ∀ id tag, d.tag? id = some tag →
    closeImplied tag (d.framesAround id) = d.framesAround id

variable {d : Dom} {id p : Nat} {x : Content} {frames : List Frame}

theorem map_tag_framesAround (d : Dom) (id : NodeId) :
    (d.framesAround id).map (·.tag) = d.tagsAround id := by
  rw [framesAround, tagsAround, List.map_filterMap]
  refine List.filterMap_congr fun i _ => ?_
  rw [frame?]
  cases d.tag? i <;> rfl

theorem framesAround_eq_nil (hp : d.parent? id = none) : d.framesAround id = [] := by
  rw [framesAround, ancestors_eq_nil hp, List.filterMap_nil]

theorem WellFormed.framesAround_eq (hd : d.WellFormed) (hp : d.parent? id = some p) :
    d.framesAround id = d.framesAt p := by
  rw [framesAround, hd.ancestors_eq hp, List.filterMap_cons, framesAt, framesAround]
  cases d.frame? p <;> rfl

theorem Growing.parent?_root (hd : d.WellFormed) (h : Growing d frames) :
    d.parent? Dom.root = none := by
  refine Option.eq_none_iff_forall_ne_some.2 fun p hp => ?_
  exact absurd (h.ordered p _ ((hd.mem_children_iff p _).2 hp)).1 (Nat.not_lt_zero p)

theorem Growing.parent?_current {f : Frame} {outer : List Frame} (hd : d.WellFormed)
    (h : Growing d (f :: outer)) : d.parent? f.id = some (current outer) :=
  (hd.mem_children_iff _ _).1 h.mem_children

/-- The open elements are those around the next node. -/
theorem Growing.framesAt_current (hd : d.WellFormed) (h : Growing d frames) :
    d.framesAt (current frames) = frames := by
  induction frames with
  | nil =>
    have htag : d.tag? (current []) = none := h.tag?_current
    rw [framesAt, frame?, htag, current, framesAround_eq_nil (h.parent?_root hd)]
    rfl
  | cons f outer ih =>
    have htag : d.tag? (current (f :: outer)) = some f.tag := h.tag?_current
    rw [framesAt, frame?, htag, current, hd.framesAround_eq (h.parent?_current hd), ih h.tail]
    rfl

theorem Growing.ancestors_current (hd : d.WellFormed) (h : Growing d frames) :
    current frames :: d.ancestors (current frames) = frames.map (·.id) ++ [Dom.root] := by
  induction frames with
  | nil =>
    rw [current, ancestors_eq_nil (h.parent?_root hd)]
    rfl
  | cons f outer ih =>
    rw [current, hd.ancestors_eq (h.parent?_current hd), ih h.tail]
    rfl

/-- The open elements of a steady tree are settled. -/
theorem Steady.settledFrames (hd : d.Steady) (h : Growing d frames) : SettledFrames frames := by
  rintro f outer ⟨inner, rfl⟩
  have hgrowing := (Builder.opened_append h).1
  -- An open element is in the tree itself, with the open ones outside it around it.
  have houter : d.framesAround f.id = outer := by
    rw [hd.wellFormed.framesAround_eq (hgrowing.parent?_current hd.wellFormed),
      hgrowing.tail.framesAt_current hd.wellFormed]
  have hnone := hd.closesNone f.id f.tag hgrowing.tag?_current
  rwa [houter] at hnone

/-! ## A new node -/

section

variable (hd : d.WellFormed) (hp : p < d.size)

include hd hp

theorem filterMap_frame?_addChild (id : NodeId) :
    (d.ancestors id).filterMap (d.addChild p x).frame? = d.framesAround id := by
  refine List.filterMap_congr fun a ha => ?_
  obtain ⟨c, hc, -⟩ := above_iff_child.1 (hd.mem_ancestors_iff.1 ha)
  rw [frame?, tag?_addChild hp (Nat.ne_of_lt (hd.parent_lt a c hc)), frame?]

theorem framesAround_addChild (hid : id ≠ d.size) :
    (d.addChild p x).framesAround id = d.framesAround id := by
  rw [framesAround, hd.ancestors_addChild hp hid, filterMap_frame?_addChild hd hp]

theorem framesAround_addChild_size : (d.addChild p x).framesAround d.size = d.framesAt p := by
  rw [framesAround, hd.ancestors_addChild_size hp, List.filterMap_cons,
    filterMap_frame?_addChild hd hp, frame?, tag?_addChild hp (Nat.ne_of_lt hp), framesAt, frame?]
  cases d.tag? p <;> rfl

end

/-- A tree stays steady when an element is added whose start tag closes nothing. -/
theorem Steady.addChild (h : d.Steady) (hp : p < d.size)
    (hnested : p :: d.ancestors p = (d.framesAt p).map (·.id) ++ [root])
    (hx : ∀ e, x = .element e → closeImplied e.tag (d.framesAt p) = d.framesAt p) :
    (d.addChild p x).Steady where
  wellFormed := h.wellFormed.addChild hp x
  nested id tag htag := by
    by_cases hid : id = d.size
    · subst hid
      rw [h.wellFormed.ancestors_addChild_size hp, framesAround_addChild_size h.wellFormed hp,
        hnested]
    · rw [tag?_addChild hp hid] at htag
      rw [h.wellFormed.ancestors_addChild hp hid, framesAround_addChild h.wellFormed hp hid]
      exact h.nested id tag htag
  closesNone id tag htag := by
    by_cases hid : id = d.size
    · subst hid
      have hcontent : (d.addChild p x).content? d.size = some x := by
        rw [content?, node?_addChild hp, if_pos rfl, Option.map_some]
      rw [tag?_of_content? hcontent] at htag
      rw [framesAround_addChild_size h.wellFormed hp]
      cases x with
      | element e =>
        cases htag
        exact hx e rfl
      | _ => cases htag
    · rw [tag?_addChild hp hid] at htag
      rw [framesAround_addChild h.wellFormed hp hid]
      exact h.closesNone id tag htag

theorem Steady.empty : Dom.empty.Steady := by
  have hnone : ∀ id tag, Dom.empty.tag? id ≠ some tag := by
    intro id tag htag
    obtain rfl : id = 0 := Nat.lt_one_iff.1 (lt_size_of_tag? htag)
    cases htag
  exact ⟨.empty, fun id tag htag => absurd htag (hnone id tag),
    fun id tag htag => absurd htag (hnone id tag)⟩

end Dom

namespace Html

open Dom

/-! ## Reading tokens -/

namespace Builder

variable {b : Builder}

theorem steady_insert (hgrowing : Growing b.dom b.frames) (h : b.dom.Steady) {x : Content}
    (hx : ∀ e, x = .element e → closeImplied e.tag b.frames = b.frames) :
    (b.insert x).dom.Steady := by
  have hframes := hgrowing.framesAt_current h.wellFormed
  rw [insert, current_eq]
  refine h.addChild hgrowing.current_lt ?_ fun e he => ?_
  · rw [hframes]
    exact hgrowing.ancestors_current h.wellFormed
  · rw [hframes]
    exact hx e he

theorem steady_flush (hgrowing : Growing b.dom b.frames) (h : b.dom.Steady) :
    b.flush.dom.Steady := by
  unfold flush
  split_ifs
  · exact h
  · exact steady_insert hgrowing h (by simp)

/-- A start tag closes what its element does not suit, so that a steady tree stays steady. -/
theorem steady_step (hgrowing : Growing b.dom b.frames) (h : b.dom.Steady) (position : Nat)
    (t : Token) : (b.step position t).dom.Steady := by
  have hflush := steady_flush hgrowing h
  have hgrowing' := growing_flush hgrowing
  cases t with
  | character c => exact h
  | doctype name =>
    rw [step]
    split_ifs
    · exact steady_insert hgrowing' hflush (by simp)
    · exact hflush
  | comment data => exact steady_insert hgrowing' hflush (by simp)
  | startTag tag selfClosing attributes =>
    have hclose := becomes_close hgrowing' flush_pending (closeImplied_suffix tag b.flush.frames)
    rw [step, startTag_dom]
    refine steady_insert hclose.growing hflush fun e he => ?_
    cases he
    exact closeImplied_idem (hflush.settledFrames hgrowing') tag
  | endTag tag =>
    rw [step, endTag_dom]
    exact hflush
  | endOfFile => exact hflush

theorem steady_run (hgrowing : Growing b.dom b.frames) (h : b.dom.Steady) (position : Nat)
    (ts : List Token) : (b.run position ts).dom.Steady := by
  induction ts generalizing b position with
  | nil => exact steady_flush hgrowing h
  | cons t ts ih =>
    by_cases ht : t = .endOfFile
    · subst ht
      exact steady_flush hgrowing h
    · rw [run.eq_3 _ _ _ _ ht]
      exact ih (becomes_step hgrowing position t).growing (steady_step hgrowing h position t) _

end Builder

theorem steady_build (ts : List Token) : (build ts).dom.Steady :=
  Builder.steady_run (b := .empty) .empty .empty 0 ts

/-- Each element of a built document suits the elements around it, which are all that is above it
but for the document. So its start tag, read once more with exactly these elements open, closes none
of them. -/
theorem suits_build (ts : List Token) {id : NodeId} {tag : String}
    (h : (build ts).dom.tag? id = some tag) :
    Suits tag ((build ts).dom.tagsAround id) ∧
      (tag = "option" →
        ∀ p, (build ts).dom.parent? id = some p → (build ts).dom.tag? p ≠ some "option") ∧
      (build ts).dom.ancestors id = ((build ts).dom.framesAround id).map (·.id) ++ [Dom.root] ∧
      closeImplied tag ((build ts).dom.framesAround id) = (build ts).dom.framesAround id := by
  have hsteady := steady_build ts
  have hnone := hsteady.closesNone id tag h
  have hsuits := (closeImplied_eq_self_iff _ _).1 hnone
  rw [map_tag_framesAround] at hsuits
  refine ⟨hsuits, fun htag p hp hoption => ?_, hsteady.nested id tag h, hnone⟩
  refine hsuits.option htag ?_
  rw [tagsAround, hsteady.wellFormed.ancestors_eq hp, List.filterMap_cons, hoption]
  rfl

/-- A cell is inside another one, with the table between them. Both the paragraph before the inner
table and the head before the inner cell are closed. -/
theorem suits_build_inner_cell :
    let d := (build (["table", "tr", "td", "p", "table", "tr", "th", "td"].map
      (.startTag · false []))).dom
    d.tag? 8 = some "td" ∧ d.tagsAround 8 = ["tr", "table", "td", "tr", "table"] ∧
      Suits "td" (d.tagsAround 8) ∧ closeImplied "td" (d.framesAround 8) = d.framesAround 8 := by
  intro d
  have htag : d.tag? 8 = some "td" := by decide +kernel
  obtain ⟨hsuits, -, -, hnone⟩ := suits_build _ htag
  exact ⟨htag, by decide +kernel, hsuits, hnone⟩

end Html

end Restyle
