import Mathlib.Data.List.TakeWhile
import Mathlib.Logic.Basic
import Restyle.Proofs.Text.Search
import Restyle.Revision.Hidden

/-!
# The pattern that hides an element

`HiddenTarget.matchesInline` looks in a text for the property, a colon and the keyword, with gaps
around the colon and the end of a word after the keyword. It tries this where a search for the
property stops, and it skips all gaps before it looks for the keyword. Main statement: so it finds
the pattern wherever it stands, unless the property overlaps itself or the keyword starts with a gap
(`matchesInline_iff`).
-/

namespace Restyle.Revision.HiddenTarget

open Text

variable {value before after gap rest r : List Char}

/-- Whether a text goes on with a colon and the keyword, gaps around the colon and a boundary of
words after the keyword: just one of the characters on both sides is part of a word. -/
def Assigns (value rest : List Char) : Prop :=
  ∃ gap gap' after, rest = gap ++ ':' :: (gap' ++ (value ++ after)) ∧
    (∀ c ∈ gap, isGap c) ∧ (∀ c ∈ gap', isGap c) ∧
    Xor (∃ c ∈ value.getLast?, isWordChar c) (∃ c ∈ after.head?, isWordChar c)

/-- Whether a text starts with a gap. -/
def startsWithGap (s : List Char) : Bool :=
  s.head?.any isGap

theorem isBoundary_iff :
    isBoundary before after ↔
      Xor (∃ c ∈ before.getLast?, isWordChar c) (∃ c ∈ after.head?, isWordChar c) := by
  have hbefore : before.getLast?.any isWordChar ↔ ∃ c ∈ before.getLast?, isWordChar c :=
    Option.any_eq_true _ _
  have hafter : after.head?.any isWordChar ↔ ∃ c ∈ after.head?, isWordChar c :=
    Option.any_eq_true _ _
  rw [isBoundary, bne_iff_ne, ne_eq, Bool.eq_iff_iff, hbefore, hafter, xor_iff_not_iff]

theorem startsWithGap_dropWhile (s : List Char) : startsWithGap (s.dropWhile isGap) = false := by
  have hhead := List.head?_dropWhile_not isGap s
  unfold startsWithGap
  cases h : (s.dropWhile isGap).head? with
  | none => rfl
  | some c => rwa [h] at hhead

theorem startsWithGap_append (hvalue : value ≠ []) (after : List Char) :
    startsWithGap (value ++ after) = startsWithGap value := by
  rw [startsWithGap, List.head?_append_of_ne_nil _ hvalue, startsWithGap]

theorem dropWhile_gap (hgap : ∀ c ∈ gap, isGap c) (hr : startsWithGap r = false) :
    (gap ++ r).dropWhile isGap = r := by
  rw [List.dropWhile_append_of_pos hgap]
  cases r with
  | nil => rfl
  | cons c r => exact List.dropWhile_cons_of_neg (by simpa [startsWithGap] using hr)

/-- A keyword that starts with a gap is not found, since all gaps before it are skipped. -/
theorem continues_iff (hvalue : value ≠ []) :
    continues value rest ↔ startsWithGap value = false ∧ Assigns value rest := by
  constructor
  · intro h
    unfold continues at h
    split at h
    case h_2 => cases h
    case h_1 r hcolon =>
      obtain ⟨after, hafter, hboundary⟩ := (Option.any_eq_true _ _).1 h
      have hkeyword := strip?_eq_some_iff.1 hafter
      refine ⟨?_, rest.takeWhile isGap, r.takeWhile isGap, after, ?_,
        fun _ => List.mem_takeWhile_imp, fun _ => List.mem_takeWhile_imp,
        isBoundary_iff.1 hboundary⟩
      · rw [← startsWithGap_append hvalue after, ← hkeyword]
        exact startsWithGap_dropWhile r
      · rw [← hkeyword, List.takeWhile_append_dropWhile, ← hcolon, List.takeWhile_append_dropWhile]
  · rintro ⟨hstart, gap, gap', after, rfl, hgap, hgap', hboundary⟩
    have hcolon : startsWithGap (':' :: (gap' ++ (value ++ after))) = false := rfl
    have hkeyword : startsWithGap (value ++ after) = false := by
      rwa [startsWithGap_append hvalue]
    simp only [continues, dropWhile_gap hgap hcolon, dropWhile_gap hgap' hkeyword,
      strip?_eq_some_iff.2 rfl, Option.any_some]
    exact isBoundary_iff.2 hboundary

theorem toList_lower_ne_nil {s : String} (h : s ≠ "") : (lower s).toList ≠ [] := by
  simpa [lower] using h

/-- The pattern is found where the search for the property stops. It is found wherever it stands if
the property does not overlap itself and the keyword does not start with a gap. -/
theorem matchesInline_iff {t : HiddenTarget} (hproperty : t.property ≠ "") (hvalue : t.value ≠ "")
    (style : String) :
    let property := (lower t.property).toList
    let value := (lower t.value).toList
    let s := (lower style).toList
    (t.matchesInline style ↔ startsWithGap value = false ∧
      ∃ before rest, s = before ++ (property ++ rest) ∧ Found property before rest ∧
        Assigns value rest) ∧
    (overlapsItself property = false → startsWithGap value = false →
      (t.matchesInline style ↔
        ∃ before rest, s = before ++ (property ++ rest) ∧ Assigns value rest)) := by
  intro property value s
  have hp : property ≠ [] := toList_lower_ne_nil hproperty
  have hv : value ≠ [] := toList_lower_ne_nil hvalue
  have hfound : t.matchesInline style ↔ startsWithGap value = false ∧
      ∃ before rest, s = before ++ (property ++ rest) ∧ Found property before rest ∧
        Assigns value rest := by
    have hany : t.matchesInline style = (afterEach property s).any (continues value) := by
      simp [matchesInline, property, value, s, hp, hv]
    rw [hany, List.any_eq_true]
    constructor
    · rintro ⟨rest, hmem, hrest⟩
      obtain ⟨before, hs, hfound⟩ := (mem_afterEach_iff hp).1 hmem
      obtain ⟨hstart, hassigns⟩ := (continues_iff hv).1 hrest
      exact ⟨hstart, before, rest, hs, hfound, hassigns⟩
    · rintro ⟨hstart, before, rest, hs, hfound, hassigns⟩
      exact ⟨rest, (mem_afterEach_iff hp).2 ⟨before, hs, hfound⟩,
        (continues_iff hv).2 ⟨hstart, hassigns⟩⟩
  refine ⟨hfound, fun hoverlap hstart => hfound.trans ⟨?_, ?_⟩⟩
  · rintro ⟨-, before, rest, hs, -, hassigns⟩
    exact ⟨before, rest, hs, hassigns⟩
  · rintro ⟨before, rest, hs, hassigns⟩
    exact ⟨hstart, before, rest, hs, found_of_not_overlapsItself hp hoverlap before rest, hassigns⟩

/-- Gaps and capitals do not hide the pattern, nor does an occurrence of the property before it. -/
theorem matchesInline_displays :
    standard.property ≠ "" ∧ standard.value ≠ "" ∧
      standard.matchesInline "display; DISPLAY :\tNone ;" := by
  have hproperty : standard.property ≠ "" := by decide
  have hvalue : standard.value ≠ "" := by decide
  refine ⟨hproperty, hvalue, ?_⟩
  obtain ⟨-, hwherever⟩ := matchesInline_iff hproperty hvalue "display; DISPLAY :\tNone ;"
  have hboundary : isBoundary (lower standard.value).toList [' ', ';'] := by decide +kernel
  exact (hwherever (by decide +kernel) (by decide +kernel)).2
    ⟨"display; ".toList, " :\tnone ;".toList, by decide +kernel, [' '], ['\t'], [' ', ';'],
      by decide +kernel, List.forall_mem_singleton.2 rfl, List.forall_mem_singleton.2 rfl,
      isBoundary_iff.1 hboundary⟩

/-- An occurrence of the property that overlaps an earlier one is passed over. -/
theorem matchesInline_overlapping :
    let t : HiddenTarget := ⟨"aa", "none"⟩
    let s := (lower "aaa:none").toList
    (∃ before rest, s = before ++ ((lower t.property).toList ++ rest) ∧
      Assigns (lower t.value).toList rest) ∧
    ¬ t.matchesInline "aaa:none" := by
  have hboundary : isBoundary (lower "none").toList [] := by decide +kernel
  refine ⟨⟨['a'], ":none".toList, by decide +kernel, [], [], [], by decide +kernel,
    List.forall_mem_nil _, List.forall_mem_nil _, isBoundary_iff.1 hboundary⟩, ?_⟩
  decide +kernel

end Restyle.Revision.HiddenTarget
