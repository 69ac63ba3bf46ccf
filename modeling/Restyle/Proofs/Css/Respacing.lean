import Restyle.Proofs.Css.DroppedComments

/-!
# Reading a text with other white space

`Lexer.Respaced` says that two texts differ in nothing but white space up to where a piece of them
ends: white space inside of the piece may be one space instead, and white space at its end may be
gone. A token that comes before one of the texts is read before the other as well
(`Lexer.token_respaced`), so lexemes that are cut from a text are cut from the text that is written
with other white space (`Lexeme.CutsInto.respaced`).
-/

namespace Restyle.Css

open Text

namespace Lexer

/-- Whether a piece of a style sheet ends before a character: a delimiter, the colon after a name,
or the mark of `!important`. -/
def isEnd (c : Char) : Bool :=
  isDelimiter c || c == ':' || c == '!'

/-- Whether two texts differ in white space only, up to where a piece of them ends. -/
inductive Respaced : List Char → List Char → Prop where
  /-- The piece ends, and white space at its end is gone. -/
  | stop {spaces u w : List Char} {d e : Char} (areSpaces : ∀ s ∈ spaces, isSpace s) (hd : isEnd d)
      (he : isEnd e) (notMark : ['!', '-', '-'].isPrefixOf (e :: w) = false) :
      Respaced (spaces ++ d :: u) (e :: w)
  /-- A character is the same. -/
  | char (c : Char) {x y : List Char} (rest : Respaced x y) : Respaced (c :: x) (c :: y)
  /-- White space is one space instead. -/
  | space {s : Char} {ss x y : List Char} (areSpaces : ∀ e ∈ s :: ss, isSpace e)
      (rest : Respaced x y) : Respaced (s :: (ss ++ x)) (' ' :: y)

variable {c d e : Char} {p u w x y : List Char}

/-! ## Where a piece ends -/

theorem end_cases (h : isEnd c) :
    c = '\x7b' ∨ c = '\x7d' ∨ c = ';' ∨ c = ',' ∨ c = ':' ∨ c = '!' := by
  simpa [isEnd, isDelimiter, or_assoc] using h

theorem isSpace_end (h : isEnd c) : isSpace c = false := by
  rcases end_cases h with rfl | rfl | rfl | rfl | rfl | rfl <;> rfl

/-- Words do not go on with white space or with what ends a piece. -/
theorem word_ends (h : isSpace c ∨ isEnd c) (u : List Char) :
    continuesName (c :: u) = false ∧ startsName (c :: u) = false ∧
      Numeral.startsDigit (c :: u) = false ∧ startsPoint (c :: u) = false ∧
        startsPlus (c :: u) = false ∧ c ≠ '(' ∧ c ≠ '%' ∧ c ≠ '-' := by
  rcases h with h | h
  · simp only [isSpace, Bool.or_eq_true, beq_iff_eq] at h
    rcases h with (((rfl | rfl) | rfl) | rfl) | rfl <;>
      exact ⟨rfl, rfl, rfl, rfl, rfl, by decide, by decide, by decide⟩
  · rcases end_cases h with rfl | rfl | rfl | rfl | rfl | rfl <;>
      exact ⟨rfl, rfl, rfl, rfl, rfl, by decide, by decide, by decide⟩

theorem seesSame_of_ends (hc : isSpace c ∨ isEnd c) (hd : isSpace d ∨ isEnd d)
    (u w : List Char) : SeesSame (c :: u) (d :: w) := by
  obtain ⟨hcontinues, hstarts, hdigit, hpoint, hplus, -⟩ := word_ends hc u
  obtain ⟨hcontinues', hstarts', hdigit', hpoint', hplus', hparen, hpercent, -⟩ := word_ends hd w
  refine ⟨by rw [hcontinues, hcontinues'], by rw [hstarts, hstarts'], by rw [hdigit, hdigit'],
    by rw [hpoint, hpoint'], by rw [hplus, hplus'], fun h => ?_, fun h => ?_⟩
  · exact absurd (Option.some.inj h) hparen
  · exact absurd (Option.some.inj h) hpercent

/-! ## What the readers see of other white space -/

namespace Respaced

theorem append_left (h : Respaced x y) (p : List Char) : Respaced (p ++ x) (p ++ y) := by
  induction p with
  | nil => exact h
  | cons c p ih => exact ih.char c

/-- Characters that neither are white space nor end a piece stay where they are. -/
theorem isPrefixOf (h : Respaced x y) (pre : List Char)
    (hpre : ∀ c ∈ pre, isSpace c = false ∧ isEnd c = false) :
    pre.isPrefixOf y → pre.isPrefixOf x := by
  induction h generalizing pre with
  | @stop spaces u w d e areSpaces hd he notMark =>
    cases pre with
    | nil => exact fun _ => rfl
    | cons c pre =>
      intro hfits
      simp only [List.isPrefixOf, Bool.and_eq_true, beq_iff_eq] at hfits
      have hc := (hpre c List.mem_cons_self).2
      rw [hfits.1, he] at hc
      cases hc
  | char c rest ih =>
    cases pre with
    | nil => exact fun _ => rfl
    | cons c' pre =>
      simp only [List.isPrefixOf, Bool.and_eq_true]
      exact And.imp_right (ih pre fun e he => hpre e (List.mem_cons_of_mem c' he))
  | space areSpaces rest ih =>
    cases pre with
    | nil => exact fun _ => rfl
    | cons c pre =>
      intro hfits
      simp only [List.isPrefixOf, Bool.and_eq_true, beq_iff_eq] at hfits
      have hc := (hpre c List.mem_cons_self).1
      rw [hfits.1] at hc
      cases hc

/-- The mark `<!--` does not come about. -/
theorem isPrefixOf_mark (h : Respaced x y) :
    ['!', '-', '-'].isPrefixOf y → ['!', '-', '-'].isPrefixOf x := by
  cases h with
  | stop areSpaces hd he notMark =>
    intro hfits
    rw [notMark] at hfits
    cases hfits
  | char c rest =>
    simp only [List.isPrefixOf, Bool.and_eq_true]
    exact And.imp_right (rest.isPrefixOf ['-', '-'] (by simp [isSpace, isEnd, isDelimiter]))
  | space areSpaces rest =>
    intro hfits
    cases hfits

theorem startsSpace (h : Respaced x y) (hy : Lexer.startsSpace y) : Lexer.startsSpace x := by
  cases h with
  | stop areSpaces hd he notMark =>
    have he : isSpace _ := hy
    rw [isSpace_end ‹_›] at he
    cases he
  | char c rest => exact hy
  | space areSpaces rest => exact areSpaces _ List.mem_cons_self

theorem head?_hyphen (h : Respaced x y) : y.head? = some '-' ↔ x.head? = some '-' := by
  cases h with
  | @stop spaces u w d e areSpaces hd he notMark =>
    have hx : ∀ c ∈ (spaces ++ d :: u).head?, c ≠ '-' := by
      cases spaces with
      | nil =>
        rintro c ⟨⟩
        exact (word_ends (.inr hd) u).2.2.2.2.2.2.2
      | cons s spaces =>
        rintro c ⟨⟩
        exact (word_ends (.inl (areSpaces s List.mem_cons_self)) []).2.2.2.2.2.2.2
    have hy := (word_ends (.inr he) w).2.2.2.2.2.2.2
    exact iff_of_false (fun heq => hy (Option.some.inj heq)) fun heq => hx _ heq rfl
  | char c rest => exact Iff.rfl
  | @space s ss x y areSpaces rest =>
    have hs := (word_ends (.inl (areSpaces s List.mem_cons_self)) []).2.2.2.2.2.2.2
    exact iff_of_false (by simp) fun heq => hs (Option.some.inj heq)

theorem quoteAhead (h : Respaced x y) (hx : Lexer.quoteAhead x) : Lexer.quoteAhead y := by
  induction h with
  | @stop spaces u w d e areSpaces hd he notMark =>
    rw [quoteAhead_spaces areSpaces] at hx
    rcases end_cases hd with rfl | rfl | rfl | rfl | rfl | rfl <;> cases hx
  | @char c x y rest ih =>
    cases hc : isSpace c with
    | true =>
      have hspaces : ∀ e ∈ [c], isSpace e := List.forall_mem_singleton.2 hc
      rw [← List.singleton_append, quoteAhead_spaces hspaces] at hx ⊢
      exact ih hx
    | false => rwa [quoteAhead_of_not_isSpace hc y x]
  | @space s ss x y areSpaces rest ih =>
    rw [← List.cons_append, quoteAhead_spaces areSpaces] at hx
    rw [← List.singleton_append, quoteAhead_spaces (by simp [isSpace])]
    exact ih hx

end Respaced

/-! ## Tokens -/

theorem startsUnsigned_eq (s : List Char) :
    Numeral.startsUnsigned s = (Numeral.startsDigit s || startsPoint s) := by
  cases s with
  | nil => rfl
  | cons c r =>
    by_cases hc : c = '.'
    · subst hc
      rfl
    · simp [Numeral.startsUnsigned, startsPoint, hc]

theorem startsAfterHyphen_eq (s : List Char) :
    startsAfterHyphen s = (s.head? == some '-' || startsName s) := by
  unfold startsName
  split
  · rfl
  · simp [startsAfterHyphen, isNameStart]
  · rename_i c r hhyphen hbackslash
    have hc : (c == '-') = false := beq_eq_false_iff_ne.2 hhyphen
    have hc' : (c == '\\') = false := beq_eq_false_iff_ne.2 hbackslash
    simp [startsAfterHyphen, hc, hc']
  · rfl

/-- A token that runs into none of one text runs into none of the other. -/
theorem Respaced.runsInto (h : Respaced x y) (hsame : SeesSame x y) {t : Token} {text : List Char}
    (hx : t.runsInto text x = false) : t.runsInto text y = false := by
  have hspace : Lexer.startsSpace x = false → Lexer.startsSpace y = false := fun hfalse =>
    Bool.eq_false_iff.2 fun htrue => by
      rw [h.startsSpace htrue] at hfalse
      cases hfalse
  have hmark : ∀ pre : List Char, (pre.isPrefixOf y → pre.isPrefixOf x) →
      pre.isPrefixOf x = false → pre.isPrefixOf y = false := fun pre himp hfalse =>
    Bool.eq_false_iff.2 fun htrue => by
      rw [himp htrue] at hfalse
      cases hfalse
  have hunsigned : Numeral.startsUnsigned y = Numeral.startsUnsigned x := by
    rw [startsUnsigned_eq, startsUnsigned_eq, hsame.digit, hsame.point]
  have hhyphen : startsAfterHyphen y = startsAfterHyphen x := by
    have hhead : (y.head? == some '-') = (x.head? == some '-') := by
      rw [Bool.eq_iff_iff, beq_iff_eq, beq_iff_eq, h.head?_hyphen]
    rw [startsAfterHyphen_eq, startsAfterHyphen_eq, hhead, hsame.starts]
  unfold Token.runsInto at hx ⊢
  split at hx
  · exact hsame.continues.trans hx
  · exact hsame.starts.trans hx
  · exact hunsigned.trans hx
  · rw [hunsigned, hhyphen]
    exact hx
  · exact hsame.digit.trans hx
  · exact hmark _ h.isPrefixOf_mark hx
  · exact hmark _ (h.isPrefixOf _ (by simp [isSpace, isEnd, isDelimiter])) hx
  · simp only [Bool.or_eq_false_iff, Bool.and_eq_false_iff] at hx ⊢
    exact ⟨hx.1.imp_right (hmark _ (h.isPrefixOf _ (by simp [isSpace, isEnd, isDelimiter]))),
      hx.2.imp_right hspace⟩
  · simp only [Bool.and_eq_false_iff] at hx ⊢
    exact hx.imp_right hspace
  · simp only [Bool.and_eq_false_iff] at hx ⊢
    exact hx.imp_right hspace
  · simp only [Bool.and_eq_false_iff] at hx ⊢
    exact hx.imp_right hspace
  · rfl

/-- A token is read before the text with other white space as well, other than a backslash, which
would start an escape if the line feed after it were gone. -/
theorem token_respaced {t : Token} (hspace : isSpace c = false)
    (hskip : skipComments (c :: (p ++ d :: u)) = c :: (p ++ d :: u))
    (h : token c (p ++ d :: u) = (t, d :: u)) (hbroken : t ≠ .badString)
    (hbackslash : t ≠ .delim '\\') (hy : Respaced (d :: u) y) (hsame : SeesSame (d :: u) y) :
    skipComments (c :: (p ++ y)) = c :: (p ++ y) ∧ token c (p ++ y) = (t, y) := by
  by_cases hslash : c = '/'
  · subst hslash
    obtain ⟨rfl, hp⟩ := Prod.mk.inj h
    obtain rfl := List.append_left_eq_self.1 hp
    refine ⟨skipComments_eq_self fun r hr => ?_, rfl⟩
    have hstar := hy.isPrefixOf ['*'] (by simp [isSpace, isEnd, isDelimiter])
      (isPrefixOf_iff_exists.2 ⟨r, (List.cons.inj hr).2⟩)
    obtain ⟨r, hr⟩ := isPrefixOf_iff_exists.1 hstar
    exact not_comment_of_skipComments hskip r (congrArg ('/' :: ·) hr)
  · have hline : t = .badString ∨ t = .delim '\\' → d = '\n' → y.head? = some '\n' := fun h =>
      absurd h (not_or.2 ⟨hbroken, hbackslash⟩)
    have hself := (token_append_iff (y := d :: u) (fun _ hd => congrArg some hd) id
      (fun _ => .refl _) hspace hslash h).1 h
    exact ⟨skipComments_cons hslash _, (token_append_iff hline hy.quoteAhead (fun _ => hsame) hspace
      hslash h).2 (hy.runsInto hsame hself)⟩

/-- Whether a text may stand in the place of another after a token: it differs in white space only,
and words see no difference. -/
structure Resembles (x y : List Char) : Prop where
  /-- The texts differ in white space only. -/
  respaced : Respaced x y
  /-- Words see no difference. -/
  word : SeesSame x y

/-- What ends a piece may stand in the place of white space with another end after it. -/
theorem resembles_stop {spaces : List Char} (hspaces : ∀ s ∈ spaces, isSpace s) (hd : isEnd d)
    (he : isEnd e) (hmark : ['!', '-', '-'].isPrefixOf (e :: w) = false) (u : List Char) :
    Resembles (spaces ++ d :: u) (e :: w) := by
  refine ⟨.stop hspaces hd he hmark, ?_⟩
  cases spaces with
  | nil => exact seesSame_of_ends (.inr hd) (.inr he) _ _
  | cons s spaces =>
    exact seesSame_of_ends (.inl (hspaces s List.mem_cons_self)) (.inr he) _ _

end Lexer

/-! ## Lexemes -/

namespace Lexeme

open Lexer

variable {x y Y Z : List Char} {l : Lexeme} {ls as bs zs : List Lexeme}

/-- The first lexeme that is cut from a text, and the text after it. -/
theorem CutsInto.exists_cons (h : CutsInto x (l :: ls)) :
    ∃ t c p y, x = c :: (p ++ y) ∧ l = ⟨t, String.ofList (c :: p), 0⟩ ∧
      Lexer.skipComments (c :: (p ++ (y ++ ['\x7b']))) = c :: (p ++ (y ++ ['\x7b'])) ∧
        Lexer.token c (p ++ (y ++ ['\x7b'])) = (t, y ++ ['\x7b']) ∧
          (t ≠ .badString ∧ t ≠ .badUrl) ∧ CutsInto y ls := by
  cases h with
  | @cons c r y source t _ noComment reads whole split rest =>
    obtain ⟨p, hp⟩ := Lexer.token_suffix c (r ++ ['\x7b'])
    rw [reads] at hp
    obtain rfl : p ++ y = r := by
      apply (List.append_left_inj ['\x7b']).1
      rw [List.append_assoc, hp]
    obtain rfl : source = c :: p := List.append_cancel_right split
    rw [← hp] at noComment reads
    exact ⟨t, c, p, y, rfl, rfl, noComment, reads, whole, rest⟩

/-- A text goes on with a lexeme in front if that is read there. -/
theorem CutsInto.cons_token {t : Token} {c : Char} {p : List Char} (h : CutsInto y ls)
    (hskip : Lexer.skipComments (c :: (p ++ (y ++ ['\x7b']))) = c :: (p ++ (y ++ ['\x7b'])))
    (hreads : Lexer.token c (p ++ (y ++ ['\x7b'])) = (t, y ++ ['\x7b']))
    (whole : t ≠ .badString ∧ t ≠ .badUrl) :
    CutsInto (c :: (p ++ y)) (⟨t, String.ofList (c :: p), 0⟩ :: ls) := by
  rw [← List.append_assoc] at hskip hreads
  exact .cons hskip hreads whole rfl h

/-- White space is read in front of a text that does not start with any. -/
theorem CutsInto.cons_space {s : Char} {ss : List Char} (h : CutsInto y ls)
    (hy : startsSpace (y ++ ['\x7b']) = false) (hs : ∀ e ∈ s :: ss, Text.isSpace e) :
    CutsInto (s :: (ss ++ y)) (⟨.whitespace, String.ofList (s :: ss), 0⟩ :: ls) := by
  rw [List.forall_mem_cons] at hs
  refine h.cons_token (Lexer.skipComments_cons ?_ _) ?_ ⟨by simp, by simp⟩
  · rintro rfl
    cases hs.1
  · have hdrop : (y ++ ['\x7b']).dropWhile Text.isSpace = y ++ ['\x7b'] := by
      rw [not_startsSpace_iff] at hy
      cases hrest : y ++ ['\x7b'] with
      | nil => rfl
      | cons e r =>
        rw [hrest] at hy
        exact List.dropWhile_cons_of_neg (by simp [hy e rfl])
    rw [Lexer.token_of_isSpace hs.1, List.dropWhile_append_of_pos hs.2, hdrop]

/-- After white space that is cut from a text comes no more of it. -/
theorem startsSpace_of_reads {c : Char} {r : List Char} {t : Token} (hc : Text.isSpace c)
    (h : Lexer.token c r = (t, y)) : startsSpace y = false := by
  rw [Lexer.token_of_isSpace hc] at h
  have hhead := List.head?_dropWhile_not Text.isSpace r
  rw [(Prod.mk.inj h).2] at hhead
  rw [not_startsSpace_iff]
  intro e he
  rw [Option.mem_def.1 he] at hhead
  simpa using hhead

/-- Lexemes that are cut from a text are cut from it too when white space is written as it is or as
one space, and another text that ends the piece comes after them. -/
theorem CutsInto.respaced {f : Lexeme → Lexeme} (h : CutsInto x (as ++ bs))
    (hf : ∀ l ∈ as, f l = l ∨ l.isSpace ∧ f l = ⟨.whitespace, " ", 0⟩)
    (hbackslash : ∀ l ∈ as, l.token ≠ .delim '\\') (hZ : CutsInto Z zs)
    (hend : Resembles (Lexeme.written bs ++ ['\x7b']) (Z ++ ['\x7b'])) :
    CutsInto (Lexeme.written (as.map f) ++ Z) (as.map f ++ zs) ∧
      Resembles (x ++ ['\x7b']) (Lexeme.written (as.map f) ++ Z ++ ['\x7b']) := by
  induction as generalizing x with
  | nil =>
    have hx : Lexeme.written bs = x := h.written
    rw [hx] at hend
    exact ⟨hZ, hend⟩
  | cons l as ih =>
    obtain ⟨t, c, p, y, rfl, rfl, hskip, hreads, whole, rest⟩ := h.exists_cons
    obtain ⟨hcut, hresembles⟩ := ih rest (fun l hl => hf l (List.mem_cons_of_mem _ hl))
      (fun l hl => hbackslash l (List.mem_cons_of_mem _ hl))
    have hl := hf _ List.mem_cons_self
    have ht := hbackslash _ List.mem_cons_self
    rw [List.map_cons, written_cons, List.append_assoc, List.cons_append]
    generalize Lexeme.written (as.map f) ++ Z = Y at hcut hresembles
    cases hc : Text.isSpace c with
    | true =>
      obtain ⟨rfl, hp⟩ := spaces_of_reads hreads hc
      have hspaces : ∀ e ∈ c :: p, Text.isSpace e := List.forall_mem_cons.2 ⟨hc, hp⟩
      have hY : startsSpace (Y ++ ['\x7b']) = false := Bool.eq_false_iff.2 fun htrue => by
        have hfalse := startsSpace_of_reads hc hreads
        rw [hresembles.respaced.startsSpace htrue] at hfalse
        cases hfalse
      rcases hl with hl | ⟨-, hl⟩ <;> rw [hl]
      · rw [String.toList_ofList, List.cons_append]
        refine ⟨hcut.cons_space hY hspaces, ?_⟩
        rw [List.cons_append, List.cons_append, List.append_assoc, List.append_assoc]
        exact ⟨hresembles.respaced.append_left (c :: p),
          seesSame_of_ends (.inl hc) (.inl hc) _ _⟩
      · refine ⟨hcut.cons_space hY (List.forall_mem_singleton.2 rfl), ?_⟩
        rw [List.cons_append, List.append_assoc]
        exact ⟨.space hspaces hresembles.respaced, seesSame_of_ends (.inl hc) (.inl rfl) _ _⟩
    | false =>
      have hne := Lexer.token_ne_whitespace hc hreads
      replace hl := hl.resolve_right fun h => hne (of_decide_eq_true h.1)
      obtain ⟨d, u, hrest⟩ : ∃ d u, y ++ ['\x7b'] = d :: u :=
        List.exists_cons_of_ne_nil (by simp)
      rw [hrest] at hskip hreads hresembles
      obtain ⟨hskip', hreads'⟩ := Lexer.token_respaced hc hskip hreads whole.1 ht
        hresembles.respaced hresembles.word
      rw [hl, String.toList_ofList, List.cons_append]
      refine ⟨hcut.cons_token hskip' hreads' whole, ?_⟩
      rw [List.cons_append, List.cons_append, List.append_assoc, List.append_assoc, hrest]
      refine ⟨hresembles.respaced.append_left (c :: p), Lexer.seesSame_of_token ?_
        (Lexer.startsPlus_of_token hreads hreads')⟩
      rw [hreads, hreads']

end Lexeme

end Restyle.Css
