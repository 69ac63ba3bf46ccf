import Restyle.Proofs.Css.WellFormed
import Restyle.Proofs.Revision.ReadsBack

/-!
# Revised style sheets are well-formed

Grays are hex colors, and the other passes only take parts of a sheet away, with the groups that
they leave empty. Main statement: the sheets that are read are well-formed, every pass keeps them
so, and no conditional group is empty once rules were taken out (`reviseSheet_wellFormed`).
-/

namespace Restyle

namespace Css

open Revision

/-! ## Grays -/

namespace Value

theorem isOther_gray (v : Value) : (gray v).isOther = v.isOther := by
  cases hgrayed : v.grayed? with
  | some g =>
    obtain ⟨⟨digits, rfl, -⟩, -⟩ := exists_of_grayed? hgrayed
    rw [gray_of_grayed? hgrayed]
    cases v with
    | other text => cases hgrayed
    | _ => rfl
  | none =>
    cases v with
    | call name args => rw [gray_call hgrayed]; rfl
    | _ => rw [gray_of_none hgrayed rfl]

mutual

theorem WellFormed.gray : ∀ {v : Value}, WellFormed v → WellFormed (Value.gray v)
  | v, h => by
    cases hgrayed : v.grayed? with
    | some g =>
      obtain ⟨⟨digits, rfl, hdigits⟩, -⟩ := exists_of_grayed? hgrayed
      rw [gray_of_grayed? hgrayed]
      exact hdigits
    | none =>
      cases v with
      | call name args =>
        have hargs : WellFormedAll args := h
        rw [gray_call hgrayed]
        exact hargs.grayAll
      | _ => rwa [gray_of_none hgrayed rfl]

theorem WellFormedAll.grayAll :
    ∀ {vs : List Value}, WellFormedAll vs → WellFormedAll (Value.grayAll vs)
  | [], _ => trivial
  | v :: vs, ⟨hv, hnext, hvs⟩ => by
    refine ⟨hv.gray, fun hother w hw => ?_, hvs.grayAll⟩
    rw [isOther_gray] at hother
    cases vs with
    | nil => cases hw
    | cons v' vs =>
      obtain rfl := Option.some.inj hw
      rw [isOther_gray]
      exact hnext hother v' rfl

end

end Value

/-- A custom property shows no colors. -/
theorem Declaration.WellFormed.grayAll_eq {d : Declaration} (h : d.WellFormed)
    (hcustom : d.isCustom) : Value.grayAll d.value = d.value := by
  rcases h.custom hcustom with hvalue | ⟨text, hvalue⟩
  · rw [hvalue, Value.grayAll]
  · rw [hvalue, Value.grayAll, Value.gray_other, Value.grayAll]

theorem Declaration.WellFormed.gray {d : Declaration} (h : d.WellFormed) : d.gray.WellFormed where
  name := h.name
  value := h.value.grayAll
  custom hcustom := by
    rw [Declaration.gray, h.grayAll_eq hcustom]
    exact h.custom hcustom

namespace Rule

mutual

theorem WellFormed.mapDeclarations {f : Declaration → Declaration}
    (hf : ∀ d : Declaration, d.WellFormed → (f d).WellFormed) :
    ∀ {r : Rule}, WellFormed r → WellFormed (Rule.mapDeclarations f r)
  | style r, h => by
    rw [Rule.mapDeclarations]
    exact ⟨h.selectors_ne_nil, h.selectors,
      List.forall_mem_map.2 fun d hd => hf d (h.declarations d hd)⟩
  | group head rules, ⟨hname, hgroup, h⟩ => ⟨hname, hgroup, h.mapDeclarationsAll hf⟩
  | descriptors head ds, ⟨hname, hdescriptor, h⟩ => by
    rw [Rule.mapDeclarations]
    exact ⟨hname, hdescriptor, List.forall_mem_map.2 fun d hd => hf d (h d hd)⟩
  | keyframes head frames, ⟨hname, hkeyframes, h⟩ => by
    rw [Rule.mapDeclarations]
    refine ⟨hname, hkeyframes, List.forall_mem_map.2 fun k hk => ?_⟩
    exact List.forall_mem_map.2 fun d hd => hf d (h k hk d hd)
  | statement _, h | raw _ _, h => h

theorem WellFormedAll.mapDeclarationsAll {f : Declaration → Declaration}
    (hf : ∀ d : Declaration, d.WellFormed → (f d).WellFormed) :
    ∀ {rs : List Rule}, WellFormedAll rs → WellFormedAll (Rule.mapDeclarationsAll f rs)
  | [], _ => trivial
  | _ :: _, ⟨hr, hrs⟩ => ⟨hr.mapDeclarations hf, hrs.mapDeclarationsAll hf⟩

end

/-! ## What is left of some rules -/

theorem WellFormedAll.append {rs ss : List Rule} (hrs : WellFormedAll rs)
    (hss : WellFormedAll ss) : WellFormedAll (rs ++ ss) := by
  induction rs with
  | nil => exact hss
  | cons r rs ih => exact ⟨hrs.1, ih hrs.2⟩

theorem FilledAll.append {rs ss : List Rule} (hrs : FilledAll rs) (hss : FilledAll ss) :
    FilledAll (rs ++ ss) := by
  induction rs with
  | nil => exact hss
  | cons r rs ih => exact ⟨hrs.1, ih hrs.2⟩

mutual

theorem WellFormed.sifted {edit : StyleRule → Option StyleRule}
    (hedit : ∀ r r', edit r = some r' → r.WellFormed → r'.WellFormed) :
    ∀ {r : Rule}, WellFormed r → WellFormedAll (Rule.sifted edit r).toList
  | style r, h => by
    rw [Rule.sifted]
    cases hr : edit r with
    | none => trivial
    | some r' => exact ⟨hedit r r' hr h, trivial⟩
  | group head rules, ⟨hname, hgroup, h⟩ => by
    rw [Rule.sifted]
    split_ifs
    · trivial
    · exact ⟨⟨hname, hgroup, h.siftedAll hedit⟩, trivial⟩
  | statement _, h | descriptors _ _, h | keyframes _ _, h | raw _ _, h => ⟨h, trivial⟩

theorem WellFormedAll.siftedAll {edit : StyleRule → Option StyleRule}
    (hedit : ∀ r r', edit r = some r' → r.WellFormed → r'.WellFormed) :
    ∀ {rs : List Rule}, WellFormedAll rs → WellFormedAll (Rule.siftedAll edit rs)
  | [], _ => trivial
  | _ :: _, ⟨hr, hrs⟩ => (hr.sifted hedit).append (hrs.siftedAll hedit)

end

mutual

theorem filledAll_sifted (edit : StyleRule → Option StyleRule) :
    ∀ r : Rule, FilledAll (sifted edit r).toList
  | style r => by
    rw [sifted]
    cases edit r with
    | none => trivial
    | some r' => exact ⟨trivial, trivial⟩
  | group head rules => by
    rw [sifted]
    split_ifs with hempty
    · trivial
    · exact ⟨⟨fun h => hempty (List.isEmpty_iff.2 h), filledAll_siftedAll edit rules⟩, trivial⟩
  | statement _ | descriptors _ _ | keyframes _ _ | raw _ _ => ⟨trivial, trivial⟩

/-- No group in which nothing is left is left. -/
theorem filledAll_siftedAll (edit : StyleRule → Option StyleRule) :
    ∀ rs : List Rule, FilledAll (siftedAll edit rs)
  | [] => trivial
  | r :: rs => (filledAll_sifted edit r).append (filledAll_siftedAll edit rs)

end

theorem wellFormed_of_keepSelectors {keep : String → Bool} {r r' : StyleRule}
    (h : keepSelectors keep r = some r') (hr : r.WellFormed) : r'.WellFormed := by
  rw [keepSelectors] at h
  split_ifs at h with hempty
  obtain rfl := Option.some.inj h
  exact ⟨fun hnil => hempty (List.isEmpty_iff.2 hnil),
    fun s hs => hr.selectors s (List.mem_of_mem_filter hs), hr.declarations⟩

end Rule

/-! ## Sheets -/

namespace Stylesheet

variable {sheet : Stylesheet}

theorem WellFormed.grayed (h : sheet.WellFormed) : sheet.grayed.1.WellFormed := by
  rw [grayed_eq]
  exact Rule.WellFormedAll.mapDeclarationsAll (fun d => Declaration.WellFormed.gray) h

theorem wellFormed_of_visible? {t : HiddenTarget} {r r' : StyleRule}
    (h : visible? t r = some r') (hr : r.WellFormed) : r'.WellFormed := by
  rw [visible?] at h
  split_ifs at h
  obtain rfl := Option.some.inj h
  exact hr

theorem WellFormed.withoutHidden (h : sheet.WellFormed) (t : HiddenTarget) :
    (sheet.withoutHidden t).1.WellFormed := by
  rw [WellFormed, withoutHidden_rules]
  exact Rule.WellFormedAll.siftedAll (fun _ _ => wellFormed_of_visible?) h

theorem WellFormed.withoutDead (h : sheet.WellFormed) (d : Dom) :
    (sheet.withoutDead d).1.WellFormed := by
  rw [WellFormed, withoutDead_rules]
  exact Rule.WellFormedAll.siftedAll (fun _ _ => Rule.wellFormed_of_keepSelectors) h

theorem filled_withoutHidden (sheet : Stylesheet) (t : HiddenTarget) :
    (sheet.withoutHidden t).1.Filled := by
  rw [Filled, withoutHidden_rules]
  exact Rule.filledAll_siftedAll _ _

theorem filled_withoutDead (sheet : Stylesheet) (d : Dom) : (sheet.withoutDead d).1.Filled := by
  rw [Filled, withoutDead_rules]
  exact Rule.filledAll_siftedAll _ _

end Stylesheet

end Css

namespace Revision.Session

open Css

/-- Every sheet that is read is well-formed, every pass keeps a well-formed sheet so, whatever the
document and the target, and after a pass that takes rules out each conditional group holds a
rule. -/
theorem reviseSheet_wellFormed :
    (∀ source sheet, Stylesheet.parse source = .ok sheet → sheet.WellFormed) ∧
      (∀ (k : PassKind) (t : HiddenTarget) (s : Session) (sheet : Stylesheet),
        sheet.WellFormed → (s.reviseSheet k t sheet).1.WellFormed) ∧
      ∀ (k : PassKind) (t : HiddenTarget) (s : Session) (sheet : Stylesheet),
        k = .deadCode ∨ k = .removeHidden → (s.reviseSheet k t sheet).1.Filled := by
  refine ⟨fun source sheet => Stylesheet.wellFormed_of_parse, fun k t s sheet h => ?_,
    fun k t s sheet hk => ?_⟩
  · cases k with
    | grayscale => exact h.grayed
    | removeHidden => exact h.withoutHidden t
    | deadCode => exact h.withoutDead s.dom
  · rcases hk with rfl | rfl
    · exact sheet.filled_withoutDead s.dom
    · exact sheet.filled_withoutHidden t

/-- A conditional group of one rule, which sets a custom property. -/
def groupedSheet : Stylesheet :=
  ⟨[.group ⟨"media", "b"⟩ [.style ⟨["a", "#c"], [⟨"--d", [.other "e"], false⟩]⟩]]⟩

theorem reviseSheet_wellFormed_grouped :
    Stylesheet.parse "@media b\x7ba,#c\x7b--d:e\x7d\x7d" = .ok groupedSheet ∧
      groupedSheet.WellFormed ∧
      ((start .empty .empty).reviseSheet .deadCode .standard groupedSheet).1.WellFormed ∧
      ((start .empty .empty).reviseSheet .removeHidden .standard groupedSheet).1.Filled := by
  have hread : Stylesheet.parse "@media b\x7ba,#c\x7b--d:e\x7d\x7d" = .ok groupedSheet := by
    decide +kernel
  obtain ⟨hparsed, hkept, hfilled⟩ := reviseSheet_wellFormed
  have h := hparsed _ _ hread
  exact ⟨hread, h, hkept .deadCode .standard _ _ h,
    hfilled .removeHidden .standard _ _ (.inr rfl)⟩

end Revision.Session

end Restyle
