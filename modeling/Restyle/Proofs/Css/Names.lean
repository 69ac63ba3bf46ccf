import Restyle.Proofs.Css.Scan

/-!
# Names and the texts that write them

`Lexer.WritesName` says which text writes which name, character by character and escape by escape. A
name that is read is written by the text that it takes, but for a backslash at the very end of the
whole text (`Lexer.writesName_or_cut`). What is so of all texts that write names then needs no look
at how they are read.
-/

namespace Restyle.Css.Lexer

open Text

/-! ## Parts of a text -/

theorem exists_cons_of_suffix {c : Char} {p r rest : List Char} (hrest : rest <:+ r)
    (hp : p ++ rest = c :: r) : ∃ q, p = c :: q ∧ q ++ rest = r := by
  obtain ⟨q, hq⟩ := hrest
  refine ⟨q, ?_, hq⟩
  apply (List.append_left_inj rest).1
  rw [hp, List.cons_append, hq]

theorem dropSpace_eq (s : List Char) :
    ∃ spaces, s = spaces ++ dropSpace s ∧ ∀ c ∈ spaces, isSpace c := by
  cases s with
  | nil => exact ⟨[], rfl, by simp⟩
  | cons c r =>
    rw [dropSpace]
    split_ifs with hc
    · exact ⟨[c], rfl, by simpa using hc⟩
    · exact ⟨[], rfl, by simp⟩

/-- An escape takes the character after its backslash, then digits and white space at most. -/
theorem exists_cons_of_escape (c : Char) (r : List Char) :
    ∃ e, c :: r = c :: e ++ (escape (c :: r)).2 ∧ (∀ x ∈ e, isHexDigit x ∨ isSpace x) ∧
      (isHexDigit c ∨ e = [] ∧ (escape (c :: r)).1 = c) := by
  by_cases hc : isHexDigit c
  · obtain ⟨more, t, rfl, hmore, heq⟩ := escape_of_isHexDigit hc r
    obtain ⟨spaces, ht, hspaces⟩ := dropSpace_eq t
    refine ⟨more ++ spaces, ?_, fun x hx => ?_, .inl hc⟩
    · rw [heq, List.cons_append, List.append_assoc, ← ht]
    · exact (List.mem_append.1 hx).imp (List.all_eq_true.1 hmore x) (hspaces x)
  · exact ⟨[], by simp [escape, hc], by simp, .inr ⟨rfl, by simp [escape, hc]⟩⟩

/-! ## Names -/

/-- The source texts of a name that does not end with the text. -/
inductive WritesName : List Char → List Char → Prop where
  /-- Nothing is left. -/
  | nil : WritesName [] []
  /-- A name character. -/
  | char {c : Char} {p n : List Char} (isName : isNameChar c) (rest : WritesName p n) :
      WritesName (c :: p) (c :: n)
  /-- An escape: a backslash, a character, and more of a number if the character is a digit. -/
  | escape {c value : Char} {e p n : List Char} (more : ∀ x ∈ e, isHexDigit x ∨ isSpace x)
      (isSelf : isHexDigit c ∨ e = [] ∧ value = c) (rest : WritesName p n) :
      WritesName ('\\' :: c :: (e ++ p)) (value :: n)

/-- A name that is read is written by the text that it takes. At the end of the whole text a
backslash that escapes nothing may come after that. -/
theorem writesName_or_cut {s p : List Char} (hp : p ++ (name s).2 = s) :
    WritesName p (name s).1 ∨ (name s).2 = [] ∧
      ∃ p' n' c, p = p' ++ ['\\'] ∧ (name s).1 = n' ++ [c] ∧ WritesName p' n' := by
  fun_induction name s generalizing p with
  | case1 =>
    obtain rfl : p = [] := by simpa using hp
    exact .inl .nil
  | case2 c r hc n rest heq ih =>
    rw [heq] at ih
    have hsuffix := name_suffix r
    rw [heq] at hsuffix
    obtain ⟨q, rfl, hq⟩ := exists_cons_of_suffix hsuffix hp
    rcases ih hq with hwrites | ⟨hend, p', n', x, rfl, hn, hwrites⟩
    · exact .inl (.char hc hwrites)
    · exact .inr ⟨hend, c :: p', c :: n', x, rfl, congrArg (c :: ·) hn, .char hc hwrites⟩
  | case3 c r hc hescape hlength n rest heq ih =>
    rw [heq] at ih
    rw [hescape.1] at hp
    cases r with
    | nil =>
      rw [Lexer.escape, name] at heq
      cases heq
      exact .inr ⟨rfl, [], [], _, by simpa using hp, rfl, .nil⟩
    | cons x r =>
      obtain ⟨e, hr, he, hself⟩ := exists_cons_of_escape x r
      obtain ⟨q, hq⟩ := name_suffix (Lexer.escape (x :: r)).2
      rw [heq] at hq
      obtain rfl : p = '\\' :: x :: (e ++ q) := by
        apply (List.append_left_inj rest).1
        rw [hp, List.cons_append, List.cons_append, List.append_assoc, hq, ← List.cons_append,
          ← hr]
      rcases ih hq with hwrites | ⟨hend, p', n', y, rfl, hn, hwrites⟩
      · exact .inl (.escape he hself hwrites)
      · exact .inr ⟨hend, _, _, y, by simp, congrArg (List.cons _) hn, .escape he hself hwrites⟩
  | case4 c r hc hescape =>
    obtain rfl : p = [] := by simpa using hp
    exact .inl .nil

theorem writesName {s p : List Char} (hp : p ++ (name s).2 = s) (hrest : (name s).2 ≠ []) :
    WritesName p (name s).1 :=
  (writesName_or_cut hp).resolve_right fun hcut => hrest hcut.1

end Restyle.Css.Lexer
