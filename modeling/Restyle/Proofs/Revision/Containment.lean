import Restyle.Proofs.Css.ContainedSheets
import Restyle.Proofs.Revision.ReadsBack

/-!
# Revised style sheets that stay inside their element

The passes take pieces of a sheet away or put grays among them, and neither makes an end tag. Main
statement: what a pass writes in the place of a contained text is contained, and ends with no part
of an end tag (`contained_reviseSheet`).
-/

namespace Restyle

namespace Css

/-! ## Grays -/

/-- A hash can take the place of any piece of a contained text. -/
theorem Contained.replace {front piece back digits : List Char}
    (h : Contained (front ++ (piece ++ back))) (hdigits : '<' ∉ digits) :
    Contained (front ++ ('#' :: digits ++ back)) := by
  have hfront : Contained front := h.of_isInfix (List.prefix_append _ _).isInfix
  have hback : Contained back := h.of_isInfix
    ((List.suffix_append piece back).trans (List.suffix_append front _)).isInfix
  refine hfront.append_seam (by decide) (by decide) ?_
  clear h hfront
  induction digits with
  | nil => exact hback
  | cons c digits ih =>
    rw [List.mem_cons, not_or] at hdigits
    exact (ih hdigits.2).cons (Ne.symm hdigits.1)

theorem Value.lt_notMem_of_isHexColor {digits : String} (h : Value.isHexColor digits) :
    '<' ∉ digits.toList := by
  intro hmem
  rw [Value.isHexColor, Bool.and_eq_true] at h
  have hdigit := List.all_eq_true.1 h.2 '<' hmem
  revert hdigit
  decide

theorem Contained.keptByHash : Value.KeptByHash Contained :=
  fun _ _ _ _ hdigits h => h.replace (Value.lt_notMem_of_isHexColor hdigits)

theorem Declaration.contained_gray {d : Declaration} (h : Contained d.css.toList) :
    Contained d.gray.css.toList := by
  rw [toList_css, ← List.append_assoc] at h ⊢
  exact Contained.keptByHash.of_grayAll h

/-! ## Pieces of edited rules -/

variable {p : String → Prop}

theorem Keyframe.pieces_map {f : Declaration → Declaration}
    (hf : ∀ d : Declaration, p d.css → p (f d).css) {frames : List Keyframe}
    (h : ∀ s ∈ frames.flatMap pieces, p s) :
    ∀ s ∈ (frames.map fun k => { k with declarations := k.declarations.map f }).flatMap pieces,
      p s := by
  induction frames with
  | nil => exact h
  | cons k frames ih =>
    rw [List.flatMap_cons, List.forall_mem_append, pieces, List.forall_mem_cons,
      List.forall_mem_map] at h
    rw [List.map_cons, List.flatMap_cons, List.forall_mem_append, pieces, List.forall_mem_cons,
      List.map_map, List.forall_mem_map]
    exact ⟨⟨h.1.1, fun d hd => hf d (h.1.2 d hd)⟩, ih h.2⟩

namespace Rule

mutual

theorem pieces_mapDeclarations {f : Declaration → Declaration}
    (hf : ∀ d : Declaration, p d.css → p (f d).css) :
    ∀ {r : Rule}, (∀ s ∈ pieces r, p s) → ∀ s ∈ pieces (mapDeclarations f r), p s
  | style r, h => by
    rw [pieces, List.forall_mem_append, List.forall_mem_map] at h
    rw [mapDeclarations, pieces, List.map_map, List.forall_mem_append, List.forall_mem_map]
    exact ⟨h.1, fun d hd => hf d (h.2 d hd)⟩
  | group head rules, h => by
    rw [pieces, List.forall_mem_cons] at h
    rw [mapDeclarations, pieces, List.forall_mem_cons]
    exact ⟨h.1, piecesAll_mapDeclarationsAll hf h.2⟩
  | descriptors head ds, h => by
    rw [pieces, List.forall_mem_cons, List.forall_mem_map] at h
    rw [mapDeclarations, pieces, List.map_map, List.forall_mem_cons, List.forall_mem_map]
    exact ⟨h.1, fun d hd => hf d (h.2 d hd)⟩
  | keyframes head frames, h => by
    rw [pieces, List.forall_mem_cons] at h
    rw [mapDeclarations, pieces, List.forall_mem_cons]
    exact ⟨h.1, Keyframe.pieces_map hf h.2⟩
  | statement head, h | raw head text, h => by rwa [mapDeclarations]

theorem piecesAll_mapDeclarationsAll {f : Declaration → Declaration}
    (hf : ∀ d : Declaration, p d.css → p (f d).css) :
    ∀ {rs : List Rule}, (∀ s ∈ piecesAll rs, p s) → ∀ s ∈ piecesAll (mapDeclarationsAll f rs), p s
  | [], h => h
  | r :: rs, h => by
    rw [piecesAll, List.forall_mem_append] at h
    rw [mapDeclarationsAll, piecesAll, List.forall_mem_append]
    exact ⟨pieces_mapDeclarations hf h.1, piecesAll_mapDeclarationsAll hf h.2⟩

end

theorem piecesAll_append (rs ss : List Rule) :
    piecesAll (rs ++ ss) = piecesAll rs ++ piecesAll ss := by
  induction rs with
  | nil => rfl
  | cons r rs ih => rw [List.cons_append, piecesAll, piecesAll, ih, List.append_assoc]

mutual

theorem piecesAll_sifted {edit : StyleRule → Option StyleRule}
    (hedit : ∀ r r', edit r = some r' → pieces (style r') ⊆ pieces (style r)) :
    ∀ r : Rule, piecesAll (sifted edit r).toList ⊆ pieces r
  | style r => by
    rw [sifted]
    cases h : edit r with
    | none => exact List.nil_subset _
    | some r' =>
      rw [Option.map_some, Option.toList_some, piecesAll, piecesAll, List.append_nil]
      exact hedit r r' h
  | group head rules => by
    have ih := piecesAll_siftedAll hedit rules
    rw [sifted]
    split_ifs
    · exact List.nil_subset _
    · rw [Option.toList_some, piecesAll, piecesAll, List.append_nil, pieces, pieces]
      exact List.cons_subset_cons _ ih
  | statement _ | descriptors _ _ | keyframes _ _ | raw _ _ => by
    simp [sifted, piecesAll]

/-- What is left of some rules has no pieces that were not there. -/
theorem piecesAll_siftedAll {edit : StyleRule → Option StyleRule}
    (hedit : ∀ r r', edit r = some r' → pieces (style r') ⊆ pieces (style r)) :
    ∀ rs : List Rule, piecesAll (siftedAll edit rs) ⊆ piecesAll rs
  | [] => List.nil_subset _
  | r :: rs => by
    rw [siftedAll, piecesAll_append, piecesAll]
    exact List.append_subset.2
      ⟨List.subset_append_of_subset_left _ (piecesAll_sifted hedit r),
        List.subset_append_of_subset_right _ (piecesAll_siftedAll hedit rs)⟩

end

theorem pieces_keepSelectors {keep : String → Bool} {r r' : StyleRule}
    (h : keepSelectors keep r = some r') : pieces (style r') ⊆ pieces (style r) := by
  rw [keepSelectors] at h
  split_ifs at h
  rw [← Option.some.inj h, pieces, pieces]
  exact List.append_subset.2 ⟨fun s hs => List.mem_append_left _ (List.mem_of_mem_filter hs),
    List.subset_append_right _ _⟩

end Rule

theorem Stylesheet.pieces_visible? {t : Revision.HiddenTarget} {r r' : StyleRule}
    (h : visible? t r = some r') : Rule.pieces (.style r') ⊆ Rule.pieces (.style r) := by
  rw [visible?] at h
  split_ifs at h
  rw [Option.some.inj h]
  exact List.Subset.refl _

/-! ## The end of a sheet -/

theorem endsInTag_append {c : Char} (hc : c.toLower ≠ 'e') (s : List Char) :
    endsInTag (s ++ [c]) = false := by
  rw [endsInTag, Bool.eq_false_iff]
  intro h
  have hsuffix := List.isSuffixOf_iff_suffix.1 h
  rw [List.map_append] at hsuffix
  have hlast := hsuffix.getLast (by decide)
  simp only [List.map_cons, List.map_nil, List.getLast_append_singleton] at hlast
  exact hc hlast.symm

theorem Rule.exists_css_eq (r : Rule) : ∃ s c, (css r).toList = s ++ [c] ∧ c.toLower ≠ 'e' := by
  have hbraces : ∀ t inside : String, (t ++ braces inside).toList =
      t.toList ++ '\x7b' :: inside.toList ++ ['\x7d'] := by simp [braces]
  cases r with
  | statement head => exact ⟨head.css.toList, ';', by simp [css], by decide⟩
  | style r => exact ⟨_, _, by rw [css, StyleRule.css, hbraces], by decide⟩
  | _ => exact ⟨_, _, by rw [css, hbraces], by decide⟩

theorem Rule.cssAll_append (rs ss : List Rule) : cssAll (rs ++ ss) = cssAll rs ++ cssAll ss := by
  induction rs with
  | nil => rw [List.nil_append, cssAll, String.empty_append]
  | cons r rs ih => rw [List.cons_append, cssAll, cssAll, ih, String.append_assoc]

theorem Rule.endsInTag_cssAll (rs : List Rule) : endsInTag (cssAll rs).toList = false := by
  induction rs using List.reverseRecOn with
  | nil =>
    rw [cssAll]
    rfl
  | append_singleton rs r =>
    obtain ⟨s, c, hs, hc⟩ := exists_css_eq r
    rw [cssAll_append, cssAll, cssAll, String.append_empty, String.toList_append, hs,
      ← List.append_assoc]
    exact endsInTag_append hc _

end Css

namespace Revision.Session

open Css

/-- What a pass writes in the place of a contained text is contained and ends with no part of an end
tag. -/
theorem contained_reviseSheet (k : PassKind) (t : HiddenTarget) (s : Session) {source : String}
    {sheet : Stylesheet} (h : Stylesheet.parse source = .ok sheet)
    (hsource : Contained source.toList) :
    Contained (s.reviseSheet k t sheet).1.css.toList ∧
      endsInTag (s.reviseSheet k t sheet).1.css.toList = false := by
  have hpieces := Stylesheet.contained_pieces h hsource
  refine ⟨Rule.contained_cssAll ?_, Rule.endsInTag_cssAll _⟩
  cases k with
  | grayscale =>
    have hrules : sheet.grayed.1.rules = Rule.mapDeclarationsAll Declaration.gray sheet.rules := by
      rw [Stylesheet.grayed_eq]
    simp only [reviseSheet]
    rw [hrules]
    exact Rule.piecesAll_mapDeclarationsAll (p := fun s => Contained s.toList)
      (fun d => Declaration.contained_gray) hpieces
  | removeHidden =>
    have hrules := congrArg Stylesheet.rules (Stylesheet.withoutHidden_rules t sheet)
    simp only [reviseSheet]
    rw [hrules]
    exact fun s hs => hpieces s
      (Rule.piecesAll_siftedAll (fun _ _ => Stylesheet.pieces_visible?) _ hs)
  | deadCode =>
    have hrules := congrArg Stylesheet.rules (Stylesheet.withoutDead_rules s.dom sheet)
    simp only [reviseSheet]
    rw [hrules]
    exact fun s hs => hpieces s
      (Rule.piecesAll_siftedAll (fun _ _ => Rule.pieces_keepSelectors) _ hs)

end Revision.Session

end Restyle
