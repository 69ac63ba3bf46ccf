import Mathlib.Data.List.Infix
import Mathlib.Tactic.SplitIfs
import Restyle.Text.Search

/-!
# Where a search finds a word

`Text.afterEach` looks for a word from left to right and goes on after the end of each occurrence.
`Found` says where it finds the word, and `mem_afterEach_iff` that it returns what follows there. A
word that does not overlap itself is found wherever it stands (`found_of_not_overlapsItself`).
-/

namespace Restyle.Text

variable {word before rest s : List Char} {c : Char}

/-- Whether no occurrence of a word starts to the left of the one between two texts. -/
def IsFirst (word before rest : List Char) : Prop :=
  ∀ front back, before ++ (word ++ rest) = front ++ (word ++ back) → before.length ≤ front.length

/-- Whether a search from left to right finds a word between two texts: it finds the first
occurrence, and what it finds in the text after an occurrence that it has found. -/
inductive Found (word : List Char) : List Char → List Char → Prop
  | first {before rest : List Char} (h : IsFirst word before rest) : Found word before rest
  | next {before between rest : List Char} (h : IsFirst word before (between ++ (word ++ rest)))
    (hnext : Found word between rest) : Found word (before ++ (word ++ between)) rest

/-- Whether an end of a word, neither empty nor the whole word, is a front of it. -/
def overlapsItself (word : List Char) : Bool :=
  (List.range word.length).any fun k => 0 < k && (word.drop k).isPrefixOf word

theorem strip?_eq_some_iff {r : List Char} : strip? word s = some r ↔ s = word ++ r := by
  unfold strip?
  split_ifs with h
  · obtain ⟨tail, rfl⟩ := List.isPrefixOf_iff_prefix.1 h
    simp [eq_comm]
  · simp only [false_iff]
    rintro rfl
    exact h (List.isPrefixOf_iff_prefix.2 (List.prefix_append _ _))

/-! ## Fronts of a text -/

theorem isFirst_nil : IsFirst word [] rest :=
  fun _ _ _ => Nat.zero_le _

/-- A word at the front of a text is the first one. -/
theorem IsFirst.eq_nil (h : IsFirst word before rest) {tail : List Char}
    (hfront : before ++ (word ++ rest) = word ++ tail) : before = [] :=
  List.eq_nil_of_length_eq_zero (Nat.le_zero.1 (h [] tail hfront))

theorem isFirst_cons_iff (h : ¬ word <+: c :: (before ++ (word ++ rest))) :
    IsFirst word (c :: before) rest ↔ IsFirst word before rest := by
  constructor
  · intro hfirst front back heq
    have hle := hfirst (c :: front) back (by rw [List.cons_append, List.cons_append, heq])
    exact Nat.le_of_succ_le_succ hle
  · intro hfirst front back heq
    cases front with
    | nil => exact absurd ⟨back, heq.symm⟩ h
    | cons e front => exact Nat.succ_le_succ (hfirst front back (List.cons.inj heq).2)

/-- The search passes over a character at which the word does not start. -/
theorem found_cons_iff (h : ¬ word <+: c :: (before ++ (word ++ rest))) :
    Found word (c :: before) rest ↔ Found word before rest := by
  constructor
  · intro hfound
    generalize hbefore : c :: before = whole at hfound
    cases hfound with
    | first hfirst =>
      rw [← hbefore] at hfirst
      exact .first ((isFirst_cons_iff h).1 hfirst)
    | @next first between _ hfirst hnext =>
      cases first with
      | nil =>
        refine absurd ⟨between ++ (word ++ rest), ?_⟩ h
        rw [← List.cons_append, hbefore]
        simp
      | cons e first =>
        obtain ⟨rfl, rfl⟩ := List.cons.inj hbefore
        refine .next ((isFirst_cons_iff ?_).1 hfirst) hnext
        simpa using h
  · intro hfound
    cases hfound with
    | first hfirst => exact .first ((isFirst_cons_iff h).2 hfirst)
    | next hfirst hnext =>
      rw [← List.cons_append]
      refine .next ((isFirst_cons_iff ?_).2 hfirst) hnext
      simpa using h

theorem found_front (h : Found word before rest) : Found word (word ++ before) rest := by
  have hnext : Found word ([] ++ (word ++ before)) rest := .next isFirst_nil h
  exact hnext

/-- A search in a text with the word at its front finds it there, and goes on after it. -/
theorem found_iff_of_front {tail : List Char} (hfront : before ++ (word ++ rest) = word ++ tail) :
    Found word before rest ↔
      before = [] ∨ ∃ between, before = word ++ between ∧ Found word between rest := by
  constructor
  · intro hfound
    cases hfound with
    | first hfirst => exact .inl (hfirst.eq_nil hfront)
    | @next first between _ hfirst hnext =>
      obtain rfl : first = [] := hfirst.eq_nil (by simpa using hfront)
      exact .inr ⟨between, rfl, hnext⟩
  · rintro (rfl | ⟨between, rfl, hfound⟩)
    · exact .first isFirst_nil
    · exact found_front hfound

/-! ## The search -/

/-- The search returns what follows the places where it finds the word. -/
theorem mem_afterEach_iff (hword : word ≠ []) :
    rest ∈ afterEach word s ↔ ∃ before, s = before ++ (word ++ rest) ∧ Found word before rest := by
  fun_induction afterEach word s with
  | case1 => simp [hword]
  | case2 c r hempty => exact absurd (List.isEmpty_iff.1 hempty) hword
  | case3 c r hempty hfront ih =>
    obtain ⟨tail, htail⟩ := List.isPrefixOf_iff_prefix.1 hfront
    have hpos : word.length = word.length - 1 + 1 := by
      have := List.length_pos_iff.2 hword
      omega
    have hdrop : r.drop (word.length - 1) = tail := by
      rw [← List.drop_succ_cons (a := c), ← hpos, ← htail, List.drop_left]
    rw [hdrop] at ih
    rw [← htail, List.drop_left, List.mem_cons, hdrop, ih]
    constructor
    · rintro (rfl | ⟨between, rfl, hfound⟩)
      · exact ⟨[], rfl, .first isFirst_nil⟩
      · exact ⟨word ++ between, by simp, found_front hfound⟩
    · rintro ⟨before, heq, hfound⟩
      rcases (found_iff_of_front heq.symm).1 hfound with rfl | ⟨between, rfl, hnext⟩
      · exact .inl (List.append_cancel_left heq).symm
      · refine .inr ⟨between, ?_, hnext⟩
        rw [List.append_assoc] at heq
        exact List.append_cancel_left heq
  | case4 c r hempty hfront ih =>
    have hnot : ¬ word <+: c :: r := fun h => hfront (List.isPrefixOf_iff_prefix.2 h)
    rw [ih]
    constructor
    · rintro ⟨before, rfl, hfound⟩
      exact ⟨c :: before, rfl, (found_cons_iff hnot).2 hfound⟩
    · rintro ⟨before, hs, hfound⟩
      cases before with
      | nil => exact absurd ⟨rest, hs.symm⟩ hnot
      | cons e before =>
        obtain ⟨rfl, rfl⟩ := List.cons.inj hs
        exact ⟨before, rfl, (found_cons_iff hnot).1 hfound⟩

/-- Two occurrences that overlap are one, or the word overlaps itself. -/
theorem overlapsItself_of_append {back tail : List Char} (hword : word = before ++ back)
    (h : word ++ rest = back ++ tail) (hbefore : before ≠ []) (hback : back ≠ []) :
    overlapsItself word := by
  have hfront : back <+: word := by
    refine List.prefix_of_prefix_length_le ⟨tail, h.symm⟩ (List.prefix_append word rest) ?_
    rw [hword, List.length_append]
    omega
  have hdrop : word.drop before.length = back := by rw [hword, List.drop_left]
  have hpos := List.length_pos_iff.2 hbefore
  have hlength := List.length_pos_iff.2 hback
  rw [overlapsItself, List.any_eq_true]
  refine ⟨before.length, List.mem_range.2 ?_, ?_⟩
  · rw [hword, List.length_append]
    omega
  · rw [Bool.and_eq_true, decide_eq_true_iff, hdrop, List.isPrefixOf_iff_prefix]
    exact ⟨hpos, hfront⟩

/-- A word that does not overlap itself is found wherever it stands. -/
theorem found_of_not_overlapsItself (hword : word ≠ []) (h : overlapsItself word = false)
    (before rest : List Char) : Found word before rest := by
  induction hn : before.length using Nat.strong_induction_on generalizing before with
  | _ n ih =>
    subst hn
    by_cases hfront : word <+: before ++ (word ++ rest)
    · obtain ⟨tail, htail⟩ := hfront
      refine (found_iff_of_front htail.symm).2 ?_
      rcases List.append_eq_append_iff.1 htail with ⟨between, hbefore, -⟩ | ⟨back, hback, hrest⟩
      · refine .inr ⟨between, hbefore, ih between.length ?_ between rfl⟩
        have := List.length_pos_iff.2 hword
        rw [hbefore, List.length_append]
        omega
      · by_cases hbefore : before = []
        · exact .inl hbefore
        · obtain rfl : back = [] := by
            by_contra hne
            rw [overlapsItself_of_append hback hrest hbefore hne] at h
            cases h
          exact .inr ⟨[], by simp [hback], .first isFirst_nil⟩
    · cases before with
      | nil => exact absurd (List.prefix_append _ _) hfront
      | cons c before =>
        exact (found_cons_iff hfront).2 (ih before.length (Nat.lt_succ_self _) before rfl)

end Restyle.Text
