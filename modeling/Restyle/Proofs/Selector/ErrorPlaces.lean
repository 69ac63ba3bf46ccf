import Mathlib.Data.String.Basic
import Restyle.Proofs.Css.Tiling
import Restyle.Proofs.Selector.Concatenation

/-!
# Where errors of selectors point

A reader reports a character that is not expected together with an offset, which counts from the
start of the entry that is read. `ErrsIn` says that such a character is one of the characters that
the reader was given, at that place. It holds for every reader, so the character stands in the first
malformed entry of a list, and the bytes before that entry have to be added to find it in the text
of the list. Main statement: `parse_eq_unexpectedChar`.
-/

namespace Restyle.Selector

open Text

/-! ## Characters at an offset -/

/-- Whether a character stands at a byte offset of a text. -/
structure StandsAt (c : Char) (offset : Nat) (s : String) : Prop where
  /-- The offset is between two characters. -/
  isValid : (⟨offset⟩ : String.Pos.Raw).IsValid s
  /-- The text goes on there. -/
  lt_size : offset < s.utf8ByteSize
  /-- The character is the next one. -/
  get?_eq : String.Pos.Raw.get? s ⟨offset⟩ = some c

theorem byteSize_eq_utf8Len (cs : List Char) : byteSize cs = String.utf8Len cs := by
  induction cs with
  | nil => rfl
  | cons c cs ih => rw [byteSize, ih, String.utf8Len_cons, Nat.add_comm]

theorem standsAt_of_toList {s : String} {front rest : List Char} {c : Char}
    (h : s.toList = front ++ c :: rest) : StandsAt c (byteSize front) s where
  isValid := Css.Lexeme.isValid_of_append h
  lt_size := by
    have hpos := c.utf8Size_pos
    rw [← Css.Lexeme.bytes_eq, bytes, h, byteSize_append, byteSize]
    omega
  get?_eq := by
    rw [← String.ofList_toList (s := s), h, byteSize_eq_utf8Len, String.get?_of_valid]
    rfl

/-! ## Errors of readers -/

/-- Whether a character that is not expected, if that is what a reader reports, is a character of
the text that it was given, at the offset that counts from the start of an entry of the given
size. -/
def ErrsIn (size : Nat) (s : List Char) {α : Type} (x : Except Error α) : Prop :=
  ∀ c o, x = .error (.unexpectedChar c o) →
    ∃ rest, c :: rest <:+ s ∧ o = size - byteSize (c :: rest)

theorem Takes.isSuffix {s rest : List Char} (h : Takes s rest) : rest <:+ s := by
  obtain ⟨p, rfl, -⟩ := h
  exact List.suffix_append p rest

section

variable {size : Nat} {s r rest : List Char} {α β : Type}

theorem errsIn_ok (a : α) : ErrsIn size s (.ok a) := by
  intro c o h
  cases h

theorem errsIn_error {e : Error} (h : ∀ c o, e ≠ .unexpectedChar c o) :
    ErrsIn size s (.error e : Except Error α) :=
  fun c o he => absurd (Except.error.inj he) (h c o)

theorem errsIn_unexpected (h : r <:+ s) :
    ErrsIn size s (.error (unexpected size r) : Except Error α) := by
  intro c o he
  cases r with
  | nil => cases he
  | cons c r =>
    cases he
    exact ⟨r, h, rfl⟩

namespace ErrsIn

theorem mono {x : Except Error α} (h : ErrsIn size r x) (hr : r <:+ s) : ErrsIn size s x := by
  intro c o he
  obtain ⟨rest, hrest, ho⟩ := h c o he
  exact ⟨rest, hrest.trans hr, ho⟩

theorem bind {x : Except Error α} {f : α → Except Error β} (hx : ErrsIn size s x)
    (hf : ∀ a, x = .ok a → ErrsIn size s (f a)) : ErrsIn size s (x >>= f) := by
  cases x with
  | error e =>
    intro c o he
    exact hx c o (congrArg Except.error (Except.error.inj he))
  | ok a => exact hf a rfl

theorem map {x : Except Error α} (hx : ErrsIn size s x) (f : α → β) :
    ErrsIn size s (f <$> x) := by
  cases x with
  | error e =>
    intro c o he
    exact hx c o (congrArg Except.error (Except.error.inj he))
  | ok a => exact errsIn_ok (f a)

/-- An error is the same whatever was to be read. -/
theorem error {e : Error} (h : ErrsIn size s (.error e : Except Error α)) :
    ErrsIn size s (.error e : Except Error β) :=
  fun c o he => h c o (congrArg Except.error (Except.error.inj he))

end ErrsIn

/-! ## Names and strings -/

theorem errsIn_nameChars (s : List Char) : ErrsIn size s (nameChars s) := by
  fun_induction nameChars s with
  | case1 => exact errsIn_ok _
  | case2 => exact errsIn_error (by simp)
  | case3 c r ih =>
    exact (ih.mono ⟨['\\', c], rfl⟩).bind fun _ _ => errsIn_ok _
  | case4 c r _ _ _ ih => exact (ih.mono (List.suffix_cons c r)).bind fun _ _ => errsIn_ok _
  | case5 => exact errsIn_ok _

theorem errsIn_name (s : List Char) : ErrsIn size s (name size s) := by
  refine (errsIn_nameChars s).bind fun p _ => ?_
  dsimp only
  split_ifs
  · exact errsIn_unexpected (List.suffix_refl s)
  · exact errsIn_ok _

theorem errsIn_ident (s : List Char) : ErrsIn size s (ident size s) := by
  unfold ident
  split_ifs
  · refine (errsIn_name s).bind fun p _ => ?_
    dsimp only
    split_ifs
    · exact errsIn_error (by simp)
    · exact errsIn_ok _
  · exact errsIn_unexpected (List.suffix_refl s)

theorem errsIn_stringChars (quote : Char) (s : List Char) :
    ErrsIn size s (stringChars quote s) := by
  fun_induction stringChars quote s with
  | case1 | case2 => exact errsIn_error (by simp)
  | case3 c r ih => exact (ih.mono ⟨['\\', c], rfl⟩).bind fun _ _ => errsIn_ok _
  | case4 => exact errsIn_ok _
  | case5 c r _ _ _ ih => exact (ih.mono (List.suffix_cons c r)).bind fun _ _ => errsIn_ok _

/-! ## Attributes -/

theorem errsIn_expect (c : Char) (s : List Char) : ErrsIn size s (expect size c s) := by
  unfold expect
  split
  · split_ifs
    · exact errsIn_ok _
    · exact errsIn_unexpected (List.suffix_refl _)
  · exact errsIn_unexpected (List.suffix_refl _)

theorem errsIn_operator (s : List Char) : ErrsIn size s (operator size s) := by
  unfold operator
  split
  case h_1 | h_2 => exact errsIn_ok _
  case h_8 => exact errsIn_unexpected (List.suffix_refl _)
  all_goals
    exact ((errsIn_expect '=' _).mono (List.suffix_cons _ _)).bind fun _ _ => errsIn_ok _

theorem errsIn_attributeValue (s : List Char) : ErrsIn size s (attributeValue size s) := by
  unfold attributeValue
  split
  · split_ifs
    · exact ((errsIn_stringChars _ _).mono (List.suffix_cons _ _)).bind fun _ _ => errsIn_ok _
    · exact errsIn_ident _
  · exact errsIn_ident _

theorem errsIn_caseFlag (s : List Char) : ErrsIn size s (caseFlag size s) := by
  unfold caseFlag
  split
  case h_7 => exact errsIn_unexpected (List.suffix_refl _)
  all_goals exact errsIn_ok _

theorem skipSpace_suffix (s : List Char) : skipSpace s <:+ s :=
  List.dropWhile_suffix _

theorem errsIn_attributeTest (s : List Char) : ErrsIn size s (attributeTest size s) := by
  refine ((errsIn_ident _).mono (skipSpace_suffix s)).bind fun ⟨n, r₁⟩ h₁ => ?_
  have hname : skipSpace r₁ <:+ s :=
    (skipSpace_suffix r₁).trans ((Takes.ident h₁).isSuffix.trans (skipSpace_suffix s))
  refine ((errsIn_operator _).mono hname).bind fun ⟨op, r₂⟩ h₂ => ?_
  have hop : r₂ <:+ s := (Takes.operator h₂).isSuffix.trans hname
  dsimp only
  split_ifs
  · exact ((errsIn_expect ']' r₂).mono hop).bind fun _ _ => errsIn_ok _
  · have hspace := (skipSpace_suffix r₂).trans hop
    refine ((errsIn_attributeValue _).mono hspace).bind fun ⟨value, r₃⟩ h₃ => ?_
    have hvalue : skipSpace r₃ <:+ s :=
      (skipSpace_suffix r₃).trans ((Takes.attributeValue h₃).isSuffix.trans hspace)
    refine ((errsIn_caseFlag _).mono hvalue).bind fun ⟨flag, r₄⟩ h₄ => ?_
    have hflag : r₄ <:+ s := (Takes.caseFlag h₄).isSuffix.trans hvalue
    exact ((errsIn_expect ']' r₄).mono hflag).bind fun _ _ => errsIn_ok _

/-! ## Conditions -/

theorem errsIn_ofName (n : String) : ErrsIn size s (PseudoClass.ofName n) := by
  unfold PseudoClass.ofName
  split
  case h_13 =>
    split_ifs
    all_goals exact errsIn_error (by simp)
  all_goals exact errsIn_ok _

theorem errsIn_pseudo (s : List Char) : ErrsIn size s (pseudo size s) := by
  unfold pseudo
  split
  · refine ((errsIn_ident _).mono (List.suffix_cons _ _)).bind fun _ _ => ?_
    exact errsIn_error (by simp)
  · refine (errsIn_ident _).bind fun p _ => ?_
    dsimp only
    split
    · split_ifs
      · exact errsIn_ok _
      · exact errsIn_error (by simp)
    · exact (errsIn_ofName _).bind fun _ _ => errsIn_ok _

theorem errsIn_piece (s : List Char) : ErrsIn size s (piece? size s) := by
  unfold piece?
  split
  · exact ((errsIn_ident _).mono (List.suffix_cons _ _)).bind fun _ _ => errsIn_ok _
  · exact ((errsIn_name _).mono (List.suffix_cons _ _)).bind fun _ _ => errsIn_ok _
  · exact ((errsIn_attributeTest _).mono (List.suffix_cons _ _)).bind fun _ _ => errsIn_ok _
  · exact ((errsIn_pseudo _).mono (List.suffix_cons _ _)).map _
  · exact errsIn_ok _

theorem errsIn_tagPart (s : List Char) : ErrsIn size s (tagPart size s) := by
  unfold tagPart
  split
  · exact errsIn_ok _
  · split_ifs
    · exact (errsIn_ident _).bind fun _ _ => errsIn_ok _
    · exact errsIn_ok _

theorem suffix_of_piece {p : Piece} (h : piece? size s = .ok (some (p, rest))) :
    rest <:+ s := by
  cases p with
  | simple x => exact (Takes.piece h).isSuffix
  | negation =>
    obtain ⟨p, -, rfl, -⟩ := TakesParen.piece h
    exact ⟨p ++ ['('], by simp⟩

/-! ## Compounds -/

/-- What is left of a text that a reader returns, once the bound on its length is dropped. -/
theorem map_val_eq_ok {α : Type} {p : α → Prop} {x : Except Error (Subtype p)} {a : Subtype p}
    (h : x = .ok a) : x.map Subtype.val = .ok a.1 := by
  rw [h]
  rfl

/-- Whether the negations in texts of less than the given length report characters of theirs. -/
def NegationsErrIn (size length : Nat) : Prop :=
  ∀ r : List Char, r.length < length → ErrsIn size r (negation size r)

theorem NegationsErrIn.mono {m n : Nat} (h : NegationsErrIn size n) (hle : m ≤ n) :
    NegationsErrIn size m :=
  fun r hr => h r (hr.trans_le hle)

theorem errsIn_conditions_of_negation (hnegation : NegationsErrIn size s.length) :
    ErrsIn size s (conditions size s) := by
  induction hn : s.length using Nat.strong_induction_on generalizing s with
  | _ n ih =>
    subst hn
    rw [conditions]
    split
    · rename_i e he
      have herror : ErrsIn size s _ := errsIn_piece s
      rw [he] at herror
      exact herror.error
    · exact errsIn_ok _
    · rename_i x r hpiece
      have hlt := length_of_piece? hpiece
      have hrest := ih r.length hlt (hnegation.mono hlt.le) rfl
      exact (hrest.mono (suffix_of_piece hpiece)).bind fun _ _ => errsIn_ok _
    · rename_i r hpiece
      have hlt := length_of_piece? hpiece
      have hr := suffix_of_piece hpiece
      refine ((hnegation r hlt).mono hr).bind fun p hp => ?_
      have hlt₁ : p.1.2.length < s.length := p.2.trans hlt
      have hr₁ : p.1.2 <:+ s :=
        (List.suffix_cons _ _).trans ((Takes.negation (map_val_eq_ok hp)).isSuffix.trans hr)
      have hrest := ih p.1.2.length hlt₁ (hnegation.mono hlt₁.le) rfl
      exact (hrest.mono hr₁).bind fun _ _ => errsIn_ok _

theorem errsIn_compound_of_negation (hnegation : NegationsErrIn size s.length) :
    ErrsIn size s (compound size s) := by
  rw [compound]
  split
  · rename_i e he
    have herror : ErrsIn size s _ := errsIn_tagPart s
    rw [he] at herror
    exact herror.error
  · rename_i tags r htags
    have hle : r.length ≤ s.length := (Nat.le_add_left _ _).trans (length_of_tagPart htags)
    have hr := (Takes.tagPart htags).isSuffix
    have hrest := errsIn_conditions_of_negation (hnegation.mono hle)
    refine (hrest.mono hr).bind fun p hp => ?_
    have hp : Takes r p.1.2 := .conditions (fun _ _ _ _ h => .negation h) (map_val_eq_ok hp)
    dsimp only
    split
    · exact errsIn_unexpected (hp.isSuffix.trans hr)
    · exact errsIn_ok _

theorem errsIn_negation (s : List Char) : ErrsIn size s (negation size s) := by
  -- The negations inside of the first compound and the compounds after a comma are both shorter.
  induction hn : s.length using Nat.strong_induction_on generalizing s with
  | _ n ih =>
    subst hn
    have hshorter : NegationsErrIn size s.length := fun r hr => ih r.length hr r rfl
    rw [negation]
    have hcompound : ErrsIn size (skipSpace s) (compound size (skipSpace s)) :=
      errsIn_compound_of_negation (hshorter.mono (length_skipSpace_le s))
    refine (hcompound.mono (skipSpace_suffix s)).bind fun p hp => ?_
    have hr : skipSpace p.1.2 <:+ s :=
      (skipSpace_suffix _).trans
        ((Takes.compound (map_val_eq_ok hp)).isSuffix.trans (skipSpace_suffix s))
    dsimp only
    split
    · rename_i r hcomma
      rw [hcomma] at hr
      have hlt : r.length < s.length := by
        have := hr.length_le
        rwa [List.length_cons] at this
      exact ((hshorter r hlt).mono ((List.suffix_cons _ r).trans hr)).bind fun _ _ => errsIn_ok _
    · exact errsIn_ok _
    · exact errsIn_unexpected hr

theorem errsIn_compound (s : List Char) : ErrsIn size s (compound size s) :=
  errsIn_compound_of_negation fun r _ => errsIn_negation r

/-! ## Complex selectors -/

theorem errsIn_complexRest (left : Complex) (s : List Char) :
    ErrsIn size s (complexRest size left s) := by
  fun_induction complexRest size left s with
  | case1 => exact errsIn_ok _
  | case2 left s => exact errsIn_unexpected (skipSpace_suffix s)
  | case3 => exact errsIn_error (by simp)
  | case4 left s _ _ k r hk _ _ ih =>
    have hr : r <:+ s := (Takes.combinator hk).isSuffix.trans (skipSpace_suffix s)
    refine ((errsIn_compound r).mono hr).bind fun p hp => ?_
    exact (ih p.1.1 p.1.2 p.2).mono ((Takes.compound (map_val_eq_ok hp)).isSuffix.trans hr)

theorem errsIn_complex (s : List Char) : ErrsIn (byteSize s) s (complex s) := by
  unfold complex
  split_ifs
  · exact errsIn_error (by simp)
  · refine ((errsIn_compound _).mono (skipSpace_suffix s)).bind fun p hp => ?_
    exact (errsIn_complexRest _ _).mono
      ((Takes.compound (map_val_eq_ok hp)).isSuffix.trans (skipSpace_suffix s))

end

/-- The character that an entry is refused for stands in it, at the offset that is told. -/
theorem exists_of_complex_eq_error {e : List Char} {c : Char} {o : Nat}
    (h : complex e = .error (.unexpectedChar c o)) :
    ∃ front rest, e = front ++ c :: rest ∧ byteSize front = o := by
  obtain ⟨rest, ⟨front, rfl⟩, rfl⟩ := errsIn_complex e c o h
  exact ⟨front, rest, rfl, by rw [byteSize_append, Nat.add_sub_cancel]⟩

/-! ## Lists -/

/-- The offset at which an entry starts that comes after others. -/
def entryStart (before : List (List Char)) : Nat :=
  byteSize (before.flatMap (· ++ [',']))

theorem entryStart_eq_zero_iff {before : List (List Char)} :
    entryStart before = 0 ↔ before = [] := by
  cases before with
  | nil => exact iff_of_true rfl rfl
  | cons e before =>
    refine iff_of_false (fun h => ?_) (by simp)
    rw [entryStart, List.flatMap_cons, byteSize_append, byteSize_append] at h
    have hcomma : byteSize [','] = 1 := rfl
    omega

theorem intercalate_append_cons (before : List (List Char)) (e : List Char)
    (after : List (List Char)) :
    [','].intercalate (before ++ e :: after) =
      before.flatMap (· ++ [',']) ++ e ++ after.flatMap (',' :: ·) := by
  induction before with
  | nil =>
    induction after generalizing e with
    | nil => simp
    | cons e' after ih =>
      rw [List.nil_append, List.intercalate_cons_cons, ← List.nil_append (e' :: after), ih]
      simp
  | cons b before ih =>
    rw [List.cons_append, List.intercalate_cons_of_ne_nil (by simp), ih]
    simp

/-- The error of a list is that of the first entry that cannot be read. -/
theorem exists_of_mapM_eq_error {es : List (List Char)} {err : Error}
    (h : es.mapM complex = .error err) :
    ∃ before e after, es = before ++ e :: after ∧ (∀ b ∈ before, ∃ x, complex b = .ok x) ∧
      complex e = .error err := by
  induction es with
  | nil => cases h
  | cons e es ih =>
    rw [List.mapM_cons] at h
    cases he : complex e with
    | error err' =>
      rw [he] at h
      cases h
      exact ⟨[], e, es, rfl, by simp, he⟩
    | ok x =>
      cases hes : es.mapM complex with
      | ok xs =>
        rw [he, hes] at h
        cases h
      | error err' =>
        rw [he, hes] at h
        cases h
        obtain ⟨before, e', after, rfl, hbefore, he'⟩ := ih hes
        exact ⟨e :: before, e', after, rfl, List.forall_mem_cons.2 ⟨⟨x, he⟩, hbefore⟩, he'⟩

/-- A character that is not expected stands in the first entry of the list that cannot be read, at
the offset that is told. In the text of the list it stands at that offset from the start of the
entry, which is the start of the text for the first entry and for no other one. -/
theorem parse_eq_unexpectedChar {t : String} {c : Char} {o : Nat}
    (h : parse t = .error (.unexpectedChar c o)) :
    ∃ before e after, entriesFrom .start t.toList = before ++ e :: after ∧
      t.toList = before.flatMap (· ++ [',']) ++ e ++ after.flatMap (',' :: ·) ∧
      (∀ b ∈ before, ∃ x, complex b = .ok x) ∧ complex e = .error (.unexpectedChar c o) ∧
      StandsAt c o (String.ofList e) ∧ StandsAt c (entryStart before + o) t ∧
      (entryStart before + o = o ↔ before = []) := by
  obtain ⟨before, e, after, hentries, hbefore, he⟩ := exists_of_mapM_eq_error h
  have ht : t.toList = before.flatMap (· ++ [',']) ++ e ++ after.flatMap (',' :: ·) := by
    rw [← intercalate_append_cons, ← hentries, intercalate_entriesFrom]
  obtain ⟨front, rest, rfl, rfl⟩ := exists_of_complex_eq_error he
  refine ⟨before, _, after, hentries, ht, hbefore, he, ?_, ?_, ?_⟩
  · exact standsAt_of_toList String.toList_ofList
  · rw [entryStart, ← byteSize_append]
    rw [List.append_assoc, List.append_assoc, List.cons_append, ← List.append_assoc] at ht
    exact standsAt_of_toList ht
  · rw [← entryStart_eq_zero_iff]
    omega

/-- A character of a negation in the second entry. -/
theorem parse_eq_unexpectedChar_nested :
    parse "é,:not(.b,é!)" = .error (.unexpectedChar '!' 10) ∧
      StandsAt '!' 10 ":not(.b,é!)" ∧ StandsAt '!' 13 "é,:not(.b,é!)" := by
  have hparse : parse "é,:not(.b,é!)" = .error (.unexpectedChar '!' 10) := by
    with_unfolding_all rfl
  obtain ⟨before, e, after, hentries, -, hbefore, he, hentry, hlist, -⟩ :=
    parse_eq_unexpectedChar hparse
  have hsplit : entriesFrom .start "é,:not(.b,é!)".toList =
      ["é".toList, ":not(.b,é!)".toList] := by
    decide
  rw [hsplit] at hentries
  simp only [List.cons_eq_append_iff, List.nil_eq_append_iff] at hentries
  rcases hentries with ⟨rfl, h⟩ | ⟨_, rfl, ⟨rfl, h⟩ | ⟨_, rfl, ⟨rfl, h⟩⟩⟩
  · cases h
    exact absurd hentry.lt_size (by decide)
  · cases h
    exact ⟨hparse, hentry, hlist⟩
  · cases h

/-- In the second entry, the bytes of the first one are not counted. -/
theorem parse_misplaces_unexpectedChar :
    parse "a,b!" = .error (.unexpectedChar '!' 1) ∧ ¬ StandsAt '!' 1 "a,b!" := by
  refine ⟨by with_unfolding_all rfl, fun h => ?_⟩
  exact absurd h.get?_eq (by decide)

end Restyle.Selector
