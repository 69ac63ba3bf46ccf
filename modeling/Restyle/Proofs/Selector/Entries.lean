import Restyle.Proofs.Selector.Identifier
import Restyle.Text.Blank

/-!
# Text inside of one entry

`EntryState.within` follows a text that does not leave the entry of a selector list in which it
stands. Such a text is the front of that entry (`entriesFrom_append`), and a list that is such a
text is one entry (`entriesFrom_of_within`).
-/

namespace Restyle.Selector

open Text Css Css.Lexer

namespace EntryState

/-- The state outside of strings with the given number of open groups. -/
abbrev level (depth : Nat) : EntryState :=
  ⟨depth, none, false⟩

/-- The state after a text; there is none if a comma of the text ends the entry. -/
def within (st : EntryState) (cs : List Char) : Option EntryState :=
  cs.foldlM (fun st c => if st.separates c then none else some (st.next c)) st

/-- Whether a character does nothing outside of strings: it neither escapes, quotes, opens, closes
nor separates. -/
def isNeutral (c : Char) : Bool :=
  !(['\\', '"', '\'', '(', '[', ')', ']', ','].contains c)

variable {st st' : EntryState} {d : Nat} {c : Char} {as bs r : List Char}

theorem within_cons :
    within st (c :: r) = if st.separates c then none else within (st.next c) r := by
  rw [within, List.foldlM_cons]
  split_ifs <;> rfl

theorem within_append : within st (as ++ bs) = (within st as).bind (within · bs) :=
  List.foldlM_append

theorem within_append_of_eq (h : within st as = some st') :
    within st (as ++ bs) = within st' bs := by
  rw [within_append, h, Option.bind_some]

theorem isSome_within_of_append (h : (within st (as ++ bs)).isSome) : (within st as).isSome := by
  rw [within_append] at h
  cases hfront : within st as with
  | none => simp [hfront] at h
  | some st' => rfl

theorem ne_of_isNeutral (h : isNeutral c) :
    c ≠ '\\' ∧ c ≠ '"' ∧ c ≠ '\'' ∧ c ≠ '(' ∧ c ≠ '[' ∧ c ≠ ')' ∧ c ≠ ']' ∧ c ≠ ',' := by
  simpa [isNeutral] using h

theorem within_cons_of_isNeutral (h : isNeutral c) :
    within (level d) (c :: r) = within (level d) r := by
  have hne := ne_of_isNeutral h
  simp [within_cons, separates, next, hne]

theorem within_of_isNeutral (h : ∀ c ∈ as, isNeutral c) :
    within (level d) as = some (level d) := by
  induction as with
  | nil => rfl
  | cons c as ih =>
    rw [List.forall_mem_cons] at h
    rw [within_cons_of_isNeutral h.1, ih h.2]

/-- After a backslash any character is read as it is. -/
theorem within_escape {quote : Option Char} :
    within ⟨d, quote, false⟩ ('\\' :: c :: r) = within ⟨d, quote, false⟩ r := by
  simp [within_cons, separates, next]

/-- Inside a string only its quote and a backslash are told apart. -/
theorem next_of_quoted {quote : Char} (hc : c ≠ '\\') (hquote : c ≠ quote) :
    next ⟨d, some quote, false⟩ c = ⟨d, some quote, false⟩ := by
  simp [next, hc, hquote]

theorem next_quote {quote : Char} (hquote : quote ≠ '\\') :
    next ⟨d, some quote, false⟩ quote = level d := by
  simp [next, hquote]

theorem within_cons_of_quoted {quote : Char} (hc : c ≠ '\\') (hquote : c ≠ quote) :
    within ⟨d, some quote, false⟩ (c :: r) = within ⟨d, some quote, false⟩ r := by
  rw [within_cons, next_of_quoted hc hquote]
  rfl

theorem within_of_quoted {quote : Char} (h : ∀ c ∈ as, c ≠ '\\' ∧ c ≠ quote) :
    within ⟨d, some quote, false⟩ as = some ⟨d, some quote, false⟩ := by
  induction as with
  | nil => rfl
  | cons c as ih =>
    rw [List.forall_mem_cons] at h
    rw [within_cons_of_quoted h.1.1 h.1.2, ih h.2]

theorem within_cons_of_quote {quote : Char} (hquote : quote ≠ '\\') :
    within ⟨d, some quote, false⟩ (quote :: r) = within (level d) r := by
  rw [within_cons, next_quote hquote]
  rfl

theorem within_open (hc : c = '(' ∨ c = '[') :
    within (level d) (c :: r) = within (level (d + 1)) r := by
  rcases hc with rfl | rfl <;> simp [within_cons, separates, next]

theorem within_close (hc : c = ')' ∨ c = ']') :
    within (level d) (c :: r) = within (level (d - 1)) r := by
  rcases hc with rfl | rfl <;> simp [within_cons, separates, next]

theorem within_quote (hc : c = '"' ∨ c = '\'') :
    within (level d) (c :: r) = within ⟨d, some c, false⟩ r := by
  rcases hc with rfl | rfl <;> simp [within_cons, separates, next]

theorem isNeutral_of {p : Char → Bool}
    (hnone : ['\\', '"', '\'', '(', '[', ')', ']', ','].any p = false) (h : p c) :
    isNeutral c := by
  rw [isNeutral, Bool.not_eq_true', ← Bool.not_eq_true]
  intro hmem
  rw [List.any_eq_true.2 ⟨c, List.contains_iff_mem.1 hmem, h⟩] at hnone
  cases hnone

theorem isNeutral_of_isNameChar (h : isNameChar c) : isNeutral c :=
  isNeutral_of (by decide) h

theorem isNeutral_of_isBlank (h : isBlank c) : isNeutral c :=
  isNeutral_of (by decide) h

theorem isNeutral_of_isSpace (h : isSpace c) : isNeutral c :=
  isNeutral_of_isBlank (isBlank_of_isSpace h)

end EntryState

open EntryState

variable {st st' : EntryState} {s r : List Char}

/-- A text that does not leave its entry is the front of it. -/
theorem entriesFrom_append (h : st.within s = some st') (r : List Char) :
    entriesFrom st (s ++ r) = (entriesFrom st' r).modifyHead (s ++ ·) := by
  induction s generalizing st with
  | nil =>
    obtain rfl : st = st' := Option.some.inj h
    cases he : entriesFrom st r <;> simp [he]
  | cons c s ih =>
    rw [within_cons] at h
    split_ifs at h with hcomma
    rw [List.cons_append, entriesFrom, if_neg hcomma, ih h]
    cases he : entriesFrom st' r with
    | nil => exact absurd he (entriesFrom_ne_nil _ _)
    | cons e es => rfl

theorem entriesFrom_of_within (h : (st.within s).isSome) : entriesFrom st s = [s] := by
  obtain ⟨st', hst⟩ := Option.isSome_iff_exists.1 h
  have happend := entriesFrom_append hst []
  rw [List.append_nil] at happend
  rw [happend, entriesFrom]
  simp

end Restyle.Selector
