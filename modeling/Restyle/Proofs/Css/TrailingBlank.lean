import Restyle.Proofs.Css.DroppedComments

/-!
# Tokens that end in white space

A token that is not white space ends in it only if it is a word whose last escape takes it: strings,
addresses and functions end with the character that closes them, and no other token holds white
space (`Lexer.token_blank`).
-/

namespace Restyle.Css

open Text

/-- Whether a text ends in a backslash with hexadecimal digits after it, as many as an escape has at
most. -/
def EndsInEscape (s : List Char) : Prop :=
  ∃ front digits, s = front ++ '\\' :: digits ∧ digits.all isHexDigit ∧ digits.length ≤ 6

theorem EndsInEscape.append {s : List Char} (h : EndsInEscape s) (front : List Char) :
    EndsInEscape (front ++ s) := by
  obtain ⟨before, digits, rfl, hdigits⟩ := h
  exact ⟨front ++ before, digits, by rw [List.append_assoc], hdigits⟩

theorem EndsInEscape.of_suffix {s t : List Char} (h : EndsInEscape s) (hst : s <:+ t) :
    EndsInEscape t := by
  obtain ⟨front, rfl⟩ := hst
  exact h.append front

namespace Lexer

variable {q x : List Char} {e : Char}

/-! ## Names -/

theorem isNameChar_of_isSpace (he : isSpace e) : isNameChar e = false := by
  simp only [isSpace, Bool.or_eq_true, beq_iff_eq] at he
  rcases he with (((rfl | rfl) | rfl) | rfl) | rfl <;> rfl

/-- What is left of a text where a character has not been taken still holds it. -/
theorem not_append_suffix (t : List Char) : ¬ t ++ e :: x <:+ x := by
  intro h
  have := h.length_le
  rw [List.length_append, List.length_cons] at this
  omega

/-- An escape that takes white space at its end is one by number. -/
theorem digits_of_escape (he : isSpace e) {y : Char} {r : List Char}
    (h : (escape (y :: (r ++ e :: x))).2 <:+ x) :
    (y :: r).all isHexDigit ∧ (y :: r).length ≤ 6 := by
  by_cases hy : isHexDigit y
  · rw [escape_of_hex hy, takeWhile_take_append_stop (isHexDigit_of_isSpace he),
      List.drop_append_of_le_length (length_takeWhile_take_le 5 r)] at h
    have htake : r.drop ((r.take 5).takeWhile isHexDigit).length = [] := by
      by_contra hne
      rw [dropSpace_append hne] at h
      exact not_append_suffix _ h
    have hle := List.drop_eq_nil_iff.1 htake
    have hwhole : (r.take 5).takeWhile isHexDigit = r :=
      ((List.takeWhile_prefix _).trans (List.take_prefix _ _)).eq_of_length_le hle
    have hlength := (List.takeWhile_prefix (p := isHexDigit) (l := r.take 5)).length_le.trans
      (List.length_take_le 5 r)
    rw [hwhole] at hlength
    refine ⟨?_, Nat.succ_le_succ hlength⟩
    rw [List.all_cons, hy, Bool.true_and, ← hwhole]
    exact List.all_takeWhile
  · rw [Bool.not_eq_true] at hy
    rw [escape_of_not_hex hy] at h
    exact (not_append_suffix _ h).elim

/-- A name that ends in white space ends in an escape that takes it. -/
theorem endsInEscape_of_name (he : isSpace e) (h : (name (q ++ e :: x)).2 = x) :
    EndsInEscape q := by
  induction hlength : q.length using Nat.strongRecOn generalizing q with
  | ind k ih =>
    subst hlength
    cases q with
    | nil =>
      have hname : name (e :: x) = ([], e :: x) := by
        have hbackslash : e ≠ '\\' := by
          rintro rfl
          cases he
        rw [name, if_neg (by simp [isNameChar_of_isSpace he]), if_neg (by simp [hbackslash])]
      rw [List.nil_append, hname] at h
      exact (not_append_suffix [] ⟨[], h⟩).elim
    | cons c q =>
      rw [List.cons_append] at h
      by_cases hc : isNameChar c
      · rw [name_of_isNameChar hc] at h
        exact (ih q.length (Nat.lt_succ_self _) h rfl).append [c]
      by_cases hescapes : c = '\\' ∧ escapes (q ++ e :: x)
      swap
      · rw [name, if_neg hc, if_neg hescapes] at h
        exact (not_append_suffix (c :: q) ⟨[], h⟩).elim
      obtain ⟨rfl, hescapes⟩ := hescapes
      cases q with
      | nil => exact ⟨[], [], rfl, rfl, by simp⟩
      | cons y r =>
        rw [List.cons_append, escapes_cons, bne_iff_ne] at hescapes
        rw [List.cons_append, name_of_escape hescapes] at h
        rcases escape_append y r e x with ⟨a, t, hto, hread, -⟩ | htaken
        · rw [hread] at h
          have hends := ih t.length (hto.length_lt _) h rfl
          exact hends.of_suffix (hto.suffix.trans ⟨['\\', y], rfl⟩)
        · obtain ⟨hdigits, hle⟩ := digits_of_escape he htaken
          exact ⟨[], y :: r, rfl, hdigits, hle⟩

/-! ## Strings and addresses -/

/-- A string that does not end with the text ends with its quote. -/
theorem quote_suffix {quote : Char} {s v : List Char} (h : string quote s = (some v, x))
    (hx : x ≠ []) : quote :: x <:+ s := by
  fun_induction string quote s generalizing v with
  | case1 | case4 => exact absurd (Prod.mk.inj h).2.symm hx
  | case2 => rw [(Prod.mk.inj h).2]
  | case3 => cases (Prod.mk.inj h).1
  | case5 _ _ r' ih => exact (ih h).trans ⟨['\\', '\n'], rfl⟩
  | case6 x r _ _ v' rest heq _ _ ih =>
    obtain ⟨hv, rfl⟩ := Prod.mk.inj h
    obtain ⟨w, rfl, -⟩ := Option.map_eq_some_iff.1 hv
    exact (ih heq).trans ((escape_suffix _).trans (List.suffix_cons _ _))
  | case7 _ _ _ _ _ v' rest heq ih =>
    obtain ⟨hv, rfl⟩ := Prod.mk.inj h
    obtain ⟨w, rfl, -⟩ := Option.map_eq_some_iff.1 hv
    exact (ih heq).trans (List.suffix_cons _ _)

/-- An address that does not end with the text ends with its parenthesis. -/
theorem paren_suffix {s v : List Char} (h : url s = (some v, x)) (hx : x ≠ []) :
    ')' :: x <:+ s := by
  fun_induction url s generalizing v with
  | case1 | case3 => exact absurd (Prod.mk.inj h).2.symm hx
  | case2 => rw [(Prod.mk.inj h).2]
  | case4 c r _ _ r' heq =>
    obtain ⟨-, rfl⟩ := Prod.mk.inj h
    rw [← heq]
    exact (List.dropWhile_suffix _).trans (List.suffix_cons _ _)
  | case5 | case6 | case8 => cases (Prod.mk.inj h).1
  | case7 r _ _ v' rest heq _ _ _ ih =>
    obtain ⟨hv, rfl⟩ := Prod.mk.inj h
    obtain ⟨w, rfl, -⟩ := Option.map_eq_some_iff.1 hv
    exact (ih heq).trans ((escape_suffix _).trans (List.suffix_cons _ _))
  | case9 _ _ _ _ _ _ v' rest heq ih =>
    obtain ⟨hv, rfl⟩ := Prod.mk.inj h
    obtain ⟨w, rfl, -⟩ := Option.map_eq_some_iff.1 hv
    exact (ih heq).trans (List.suffix_cons _ _)

/-! ## Tokens -/

theorem eq_of_suffix {d : Char} (h : d :: x <:+ q ++ e :: x) : d = e := by
  have heq := List.suffix_of_suffix_length_le h (List.suffix_append q (e :: x)) (by simp)
  exact (List.cons.inj (heq.eq_of_length (by simp))).1

section

variable {t : Token} (he : isSpace e) (hx : x ≠ []) (hstring : t ≠ .badString) (hurl : t ≠ .badUrl)

include he

theorem not_suffix_of_closing {d : Char} (hd : isSpace d = false) (h : d :: x <:+ q ++ e :: x) :
    False := by
  rw [eq_of_suffix h, he] at hd
  cases hd

include hx in
theorem blank_stringToken {quote : Char} {s : List Char} (hquote : isSpace quote = false)
    (hstring : t ≠ .badString) (h : stringToken quote s = (t, x)) (hs : s <:+ q ++ e :: x) :
    False := by
  unfold stringToken at h
  split at h
  · rename_i v rest hread
    obtain ⟨-, rfl⟩ := Prod.mk.inj h
    exact not_suffix_of_closing he hquote ((quote_suffix hread hx).trans hs)
  · exact hstring (Prod.mk.inj h).1.symm

include hx in
theorem blank_nameToken (hurl : t ≠ .badUrl) (h : nameToken (q ++ e :: x) = (t, x)) :
    t.isWord ∧ EndsInEscape q := by
  obtain ⟨n, rest, hname⟩ : ∃ n rest, name (q ++ e :: x) = (n, rest) := ⟨_, _, rfl⟩
  have hrest := name_suffix (q ++ e :: x)
  rw [hname] at hrest
  by_cases hparen : ∃ r, rest = '(' :: r
  · obtain ⟨r, rfl⟩ := hparen
    exfalso
    rw [nameToken_of_paren hname] at h
    split_ifs at h
    · split at h
      · rename_i v rest hread
        obtain ⟨-, rfl⟩ := Prod.mk.inj h
        have hclose := (paren_suffix hread hx).trans (List.dropWhile_suffix _)
        exact not_suffix_of_closing he rfl
          (hclose.trans ((List.suffix_cons _ _).trans hrest))
      · exact hurl (Prod.mk.inj h).1.symm
    · obtain ⟨-, rfl⟩ := Prod.mk.inj h
      exact not_suffix_of_closing he rfl hrest
  · rw [nameToken_of_name hname fun r hr => hparen ⟨r, hr⟩] at h
    obtain ⟨rfl, rfl⟩ := Prod.mk.inj h
    exact ⟨rfl, endsInEscape_of_name he (by rw [hname])⟩

theorem blank_numberToken (h : numberToken (q ++ e :: x) = (t, x)) :
    t.isWord ∧ EndsInEscape q := by
  refine ⟨isWord_of_number (congrArg Prod.fst h), ?_⟩
  have htext := Numeral.text_read (q ++ e :: x)
  have hsolid : ∀ c ∈ (Numeral.read (q ++ e :: x)).1.text, isSpace c = false :=
    forall_mem_numeral
      (fun c hc => by
        refine forall_hexDigit (p := fun c => c.isDigit → isSpace c = false) ?_
          (by simp [isHexDigit, hc]) hc
        decide) (by simp [isSpace]) _
  obtain ⟨n, rest, hread⟩ : ∃ n rest, Numeral.read (q ++ e :: x) = (n, rest) := ⟨_, _, rfl⟩
  rw [numberToken, hread] at h
  rw [hread] at htext hsolid
  dsimp only at h htext hsolid
  split_ifs at h with hunit
  · -- The unit is a name that holds the white space.
    have hrest : (name rest).2 = x := congrArg Prod.snd h
    have hsuffix := name_suffix rest
    have hend := continuesName_name rest
    rw [hrest] at hsuffix hend
    have hlt : x.length < rest.length := by
      refine Nat.lt_of_le_of_ne hsuffix.length_le fun hlength => ?_
      rw [hsuffix.eq_of_length hlength, continuesName_of_startsName hunit] at hend
      cases hend
    obtain ⟨q', rfl, hq⟩ := exists_append_of_suffix ⟨_, htext⟩ hlt
    exact (endsInEscape_of_name he hrest).of_suffix hq
  · exfalso
    split at h
    · obtain ⟨-, rfl⟩ := Prod.mk.inj h
      exact not_suffix_of_closing he rfl ⟨_, htext⟩
    · obtain ⟨-, rfl⟩ := Prod.mk.inj h
      have hn : n.text = q ++ [e] := by
        apply (List.append_left_inj rest).1
        rw [htext, List.append_assoc]
        rfl
      have := hsolid e (by rw [hn]; simp)
      rw [he] at this
      cases this

include hx hstring hurl in
/-- A token that ends in white space is white space or a word whose last escape takes it, unless the
text ends there. -/
theorem token_blank {c : Char} {r : List Char} (h : token c r = (t, x))
    (hq : c :: r = q ++ e :: x) : t = .whitespace ∨ t.isWord ∧ EndsInEscape q := by
  have hr : r <:+ q ++ e :: x := hq ▸ List.suffix_cons c r
  have hsingle : isSpace c = false → r ≠ x := by
    rintro hc rfl
    exact not_suffix_of_closing he hc ⟨[], hq⟩
  -- A name after the first character.
  have hname : isSpace c = false → (name r).2 = x → EndsInEscape q := by
    intro hc hname
    cases q with
    | nil => exact (hsingle hc (List.cons.inj hq).2).elim
    | cons a q =>
      rw [(List.cons.inj hq).2] at hname
      exact (endsInEscape_of_name he hname).append [a]
  unfold token at h
  by_cases hc : isSpace c
  · rw [if_pos hc] at h
    exact .inl (Prod.mk.inj h).1.symm
  rw [if_neg hc] at h
  rw [Bool.not_eq_true] at hc
  right
  split at h
  case h_1 | h_2 => exact (blank_stringToken he hx rfl hstring h hr).elim
  case h_3 =>
    unfold hashToken at h
    split at h
    · obtain ⟨rfl, hrest⟩ := Prod.mk.inj h
      exact ⟨rfl, hname rfl hrest⟩
    · exact (hsingle rfl (Prod.mk.inj h).2).elim
  case h_13 | h_15 =>
    split_ifs at h
    · rw [hq] at h
      exact blank_numberToken he h
    · exact (hsingle rfl (Prod.mk.inj h).2).elim
  case h_14 =>
    unfold hyphenToken at h
    split_ifs at h
    · rw [hq] at h
      exact blank_numberToken he h
    · split at h
      · obtain ⟨-, rfl⟩ := Prod.mk.inj h
        exact (not_suffix_of_closing he rfl ((List.suffix_cons _ _).trans hr)).elim
      · split_ifs at h
        · rw [hq] at h
          exact blank_nameToken he hx hurl h
        · exact (hsingle rfl (Prod.mk.inj h).2).elim
  case h_16 =>
    unfold lessToken at h
    split at h
    · obtain ⟨-, rfl⟩ := Prod.mk.inj h
      exact (not_suffix_of_closing he rfl
        ((List.suffix_cons _ _).trans ((List.suffix_cons _ _).trans hr))).elim
    · exact (hsingle rfl (Prod.mk.inj h).2).elim
  case h_17 =>
    unfold atToken at h
    split_ifs at h
    · obtain ⟨rfl, hrest⟩ := Prod.mk.inj h
      exact ⟨rfl, hname rfl hrest⟩
    · exact (hsingle rfl (Prod.mk.inj h).2).elim
  case h_18 =>
    split_ifs at h
    · rw [hq] at h
      exact blank_nameToken he hx hurl h
    · exact (hsingle rfl (Prod.mk.inj h).2).elim
  case h_19 =>
    split_ifs at h
    · rw [hq] at h
      exact blank_numberToken he h
    · rw [hq] at h
      exact blank_nameToken he hx hurl h
    · exact (hsingle hc (Prod.mk.inj h).2).elim
  all_goals exact (hsingle rfl (Prod.mk.inj h).2).elim

end

end Lexer

/-! ## Lexemes -/

namespace Lexeme

theorem Scans.eq_nil {inWord : Bool} {ls : List Lexeme} (h : Scans inWord [] ls) : ls = [] := by
  generalize hs : ([] : List Char) = s at h
  cases h with
  | nil => rfl
  | cons skips => simp at hs

/-- A lexeme that ends in white space and has another one after it is white space or a word whose
last escape takes it. -/
theorem Scans.blank {inWord : Bool} {s q : List Char} {e : Char} {as ls bs : List Lexeme}
    {l : Lexeme} (h : Scans inWord s ls) (hls : ls = as ++ l :: bs) (hbs : bs ≠ [])
    (hwhole : l.isBroken = false) (hsource : l.source.toList = q ++ [e]) (he : Text.isSpace e) :
    l.token = .whitespace ∨ l.token.isWord ∧ EndsInEscape q := by
  by_cases hspace : l.token = .whitespace
  · exact .inl hspace
  induction h generalizing as with
  | nil => simp at hls
  | @cons inWord front p x c t start ls skips isComment reads rest ih =>
    obtain ⟨as', -, hls⟩ := exists_of_gap_append hspace hls
    cases as' with
    | cons a as' => exact ih (List.cons.inj hls).2
    | nil =>
      obtain ⟨rfl, rfl⟩ := List.cons.inj hls
      have hx : x ≠ [] := by
        rintro rfl
        exact hbs rest.eq_nil
      simp only [isBroken, Bool.or_eq_false_iff, decide_eq_false_iff_not] at hwhole
      rw [String.toList_ofList] at hsource
      refine Lexer.token_blank he hx hwhole.1 hwhole.2 reads ?_
      rw [← List.cons_append, hsource, List.append_assoc]
      rfl

end Lexeme

end Restyle.Css
