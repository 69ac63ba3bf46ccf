import Mathlib.Data.List.Infix
import Mathlib.Data.List.TakeWhile
import Mathlib.Tactic.SplitIfs

/-!
# Runs that stop at a character

What a run of characters is does not depend on what comes after the character that stops it.
-/

namespace Restyle.Text

variable {p : Char → Bool} {d : Char}

theorem takeWhile_append_stop (hp : p d = false) (s t : List Char) :
    (s ++ d :: t).takeWhile p = s.takeWhile p := by
  induction s with
  | nil => simp [hp]
  | cons c s ih => simp [List.takeWhile_cons, ih]

theorem dropWhile_append_stop (hp : p d = false) (s t : List Char) :
    (s ++ d :: t).dropWhile p = s.dropWhile p ++ d :: t := by
  induction s with
  | nil => simp [hp]
  | cons c s ih =>
    simp only [List.cons_append, List.dropWhile_cons, ih]
    split_ifs <;> rfl

theorem takeWhile_append_of_head? {t : List Char} (h : ∀ e ∈ t.head?, p e = false)
    (s : List Char) :
    (s ++ t).takeWhile p = s.takeWhile p ∧ (s ++ t).dropWhile p = s.dropWhile p ++ t := by
  cases t with
  | nil => simp
  | cons e t => exact ⟨takeWhile_append_stop (h e rfl) s t, dropWhile_append_stop (h e rfl) s t⟩

/-- A run of at most `n` characters that stops before the end does not depend on what comes next. -/
theorem takeWhile_take_append {n : Nat} {s t : List Char}
    (h : ((s.take n).takeWhile p).length < s.length ∨ ∀ e ∈ t.head?, p e = false) :
    ((s ++ t).take n).takeWhile p = (s.take n).takeWhile p := by
  induction s generalizing n with
  | nil =>
    have ht := h.resolve_left (by simp)
    cases n with
    | zero => rfl
    | succ n =>
      cases t with
      | nil => rfl
      | cons e t => simp [ht e rfl]
  | cons c s ih =>
    cases n with
    | zero => rfl
    | succ n =>
      rw [List.cons_append, List.take_succ_cons, List.take_succ_cons, List.takeWhile_cons,
        List.takeWhile_cons]
      split_ifs with hc
      · rw [ih (h.imp_left fun h => ?_)]
        rw [List.take_succ_cons, List.takeWhile_cons, if_pos hc, List.length_cons,
          List.length_cons] at h
        exact Nat.lt_of_succ_lt_succ h
      · rfl

theorem takeWhile_take_append_stop (hp : p d = false) (n : Nat) (s t : List Char) :
    ((s ++ d :: t).take n).takeWhile p = (s.take n).takeWhile p := by
  refine takeWhile_take_append (.inr ?_)
  rintro e ⟨⟩
  exact hp

/-- A run of at most `n` characters does not go on with a character, or it takes it. -/
theorem takeWhile_take_append_or (p : Char → Bool) (n : Nat) (s : List Char) (d : Char)
    (t : List Char) :
    ((s ++ d :: t).take n).takeWhile p = (s.take n).takeWhile p ∨
      s.length < (((s ++ d :: t).take n).takeWhile p).length := by
  induction s generalizing n with
  | nil =>
    cases n with
    | zero => exact .inl rfl
    | succ n =>
      rw [List.nil_append, List.take_succ_cons, List.takeWhile_cons]
      split_ifs
      · exact .inr (Nat.succ_pos _)
      · exact .inl rfl
  | cons c s ih =>
    cases n with
    | zero => exact .inl rfl
    | succ n =>
      rw [List.cons_append, List.take_succ_cons, List.take_succ_cons, List.takeWhile_cons,
        List.takeWhile_cons]
      split_ifs
      · exact (ih n).imp (congrArg (List.cons c)) Nat.succ_lt_succ
      · exact .inl rfl

theorem length_takeWhile_take_le (n : Nat) (s : List Char) :
    ((s.take n).takeWhile p).length ≤ s.length :=
  ((List.takeWhile_prefix _).trans (List.take_prefix _ _)).length_le

/-- An end piece that holds a character still holds what comes before it. -/
theorem exists_append_of_suffix {x s t : List Char} (h : x <:+ s ++ d :: t)
    (hlength : t.length < x.length) : ∃ s', x = s' ++ d :: t ∧ s' <:+ s := by
  induction s with
  | nil =>
    rcases List.suffix_cons_iff.1 h with rfl | h
    · exact ⟨[], rfl, List.suffix_refl _⟩
    · exact absurd h.length_le (by omega)
  | cons c s ih =>
    rcases List.suffix_cons_iff.1 h with rfl | h
    · exact ⟨c :: s, rfl, List.suffix_refl _⟩
    · obtain ⟨s', hx, hs⟩ := ih h
      exact ⟨s', hx, hs.trans (List.suffix_cons _ _)⟩

/-! ## Trimming -/

theorem exists_trimEnd {α : Type} (p : α → Bool) (cs : List α) :
    ∃ bs, cs = (cs.reverse.dropWhile p).reverse ++ bs ∧ ∀ b ∈ bs, p b := by
  refine ⟨(cs.reverse.takeWhile p).reverse, ?_, fun b hb => ?_⟩
  · rw [← List.reverse_append, List.takeWhile_append_dropWhile, List.reverse_reverse]
  · exact List.all_eq_true.1 List.all_takeWhile b (List.mem_reverse.1 hb)

theorem exists_trim {α : Type} (p : α → Bool) (cs : List α) :
    ∃ as bs, cs = as ++ (((cs.dropWhile p).reverse.dropWhile p).reverse ++ bs) ∧
      (∀ a ∈ as, p a) ∧ ∀ b ∈ bs, p b := by
  obtain ⟨bs, hcs, hbs⟩ := exists_trimEnd p (cs.dropWhile p)
  refine ⟨cs.takeWhile p, bs, ?_, fun a ha => List.all_eq_true.1 List.all_takeWhile a ha, hbs⟩
  rw [← hcs, List.takeWhile_append_dropWhile]

/-- What is dropped at the ends does not matter. -/
theorem trim_append {α : Type} {p : α → Bool} {as bs : List α} (has : ∀ a ∈ as, p a)
    (hbs : ∀ b ∈ bs, p b) (cs : List α) :
    (((as ++ (cs ++ bs)).dropWhile p).reverse.dropWhile p).reverse =
      ((cs.dropWhile p).reverse.dropWhile p).reverse := by
  have hall : bs.dropWhile p = [] := List.dropWhile_eq_nil_iff.2 hbs
  have hreverse : ∀ b ∈ bs.reverse, p b := fun b hb => hbs b (List.mem_reverse.1 hb)
  rw [List.dropWhile_append_of_pos has, List.dropWhile_append]
  split_ifs with hnil
  · rw [hall, List.isEmpty_iff.1 hnil]
  · rw [List.reverse_append, List.dropWhile_append_of_pos hreverse]

theorem isPrefixOf_append_stop {pre : List Char} {d : Char} (h : d ∉ pre) (s u : List Char) :
    pre.isPrefixOf (s ++ d :: u) = pre.isPrefixOf s := by
  induction pre generalizing s with
  | nil => rfl
  | cons c pre ih =>
    rw [List.mem_cons, not_or] at h
    cases s with
    | nil => simp [List.isPrefixOf, Ne.symm h.1]
    | cons a s => rw [List.cons_append, List.isPrefixOf, List.isPrefixOf, ih h.2]

end Restyle.Text
