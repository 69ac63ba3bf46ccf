import Restyle.Proofs.Css.ContainedSheets
import Restyle.Proofs.Selector.Entries

/-!
# Tokens inside of one entry

Selectors are split at their commas twice: as lexemes, and as characters once they are text. Here is
what the characters of one token do to the state of the second split: all but those of an unquoted
address leave it outside of strings, with as many open groups as the token leaves
(`Lexer.passes_token`).
-/

namespace Restyle.Css

open Text Selector.EntryState

namespace Lexer

/-! ## Names -/

theorem isNeutral_of_isHexDigit {c : Char} (h : isHexDigit c) : isNeutral c :=
  isNeutral_of_isNameChar (isNameChar_of_isHexDigit h)

/-- What goes on with an escape by number does nothing outside of strings. -/
theorem isNeutral_of_more {c : Char} (h : isHexDigit c ∨ isSpace c) : isNeutral c :=
  h.elim isNeutral_of_isHexDigit isNeutral_of_isSpace

theorem WritesName.within {p n : List Char} (h : WritesName p n) (d : Nat) :
    within (level d) p = some (level d) := by
  induction h with
  | nil => rfl
  | char isName _ ih =>
    rw [within_cons_of_isNeutral (isNeutral_of_isNameChar isName), ih]
  | escape more _ _ ih =>
    have hmore := within_of_isNeutral (d := d) fun x hx => isNeutral_of_more (more x hx)
    rw [within_escape, within_append_of_eq hmore, ih]

/-- The source text of a name ends like the name, or in an escape by number. -/
theorem WritesName.getLast? {p n : List Char} (h : WritesName p n) :
    p = [] ∧ n = [] ∨
      ∃ c, p.getLast? = some c ∧ (n.getLast? = some c ∨ isHexDigit c ∨ isSpace c) := by
  induction h with
  | nil => exact .inl ⟨rfl, rfl⟩
  | @char c p n isName rest ih =>
    rcases ih with ⟨rfl, rfl⟩ | ⟨x, hp, hn⟩
    · exact .inr ⟨c, rfl, .inl rfl⟩
    · exact .inr ⟨x, by simp [List.getLast?_cons, hp], hn.imp_left fun h => by
        simp [List.getLast?_cons, h]⟩
  | @escape c value e p n more isSelf rest ih =>
    rcases ih with ⟨rfl, rfl⟩ | ⟨x, hp, hn⟩
    · rcases e.eq_nil_or_concat with rfl | ⟨e, x, rfl⟩
      · refine .inr ⟨c, rfl, isSelf.symm.imp ?_ .inl⟩
        rintro ⟨-, rfl⟩
        rfl
      · exact .inr ⟨x, by simp [List.getLast?_cons], .inr (more x (by simp))⟩
    · exact .inr ⟨x, by simp [List.getLast?_cons, hp], hn.imp_left fun h => by
        simp [List.getLast?_cons, h]⟩

/-! ## Strings -/

/-- A string with text after it ends outside of strings. -/
theorem within_string {quote : Char} (hquote : quote = '"' ∨ quote = '\'') {s p v : List Char}
    (hp : p ++ (string quote s).2 = s) (hv : (string quote s).1 = some v)
    (hrest : (string quote s).2 ≠ []) (d : Nat) :
    within ⟨d, some quote, false⟩ p = some (level d) := by
  have hslash : quote ≠ '\\' := by
    rcases hquote with rfl | rfl <;> decide
  fun_induction string quote s generalizing p v with
  | case1 => exact absurd rfl hrest
  | case2 r =>
    obtain rfl : p = [quote] := (List.append_left_inj r).1 hp
    exact within_cons_of_quote hslash
  | case3 => cases hv
  | case4 => exact absurd rfl hrest
  | case5 r _ _ ih =>
    obtain ⟨q, hq⟩ := string_suffix quote r
    obtain rfl : p = '\\' :: '\n' :: q := by
      apply (List.append_left_inj (string quote r).2).1
      rw [hp, List.cons_append, List.cons_append, hq]
    rw [within_escape, ih hq hv hrest]
  | case6 x r hfeed hlength v' rest heq _ _ ih =>
    rw [heq] at ih
    obtain ⟨e, hr, he, -⟩ := exists_cons_of_escape x r
    obtain ⟨q, hq⟩ := string_suffix quote (Lexer.escape (x :: r)).2
    rw [heq] at hq
    obtain rfl : p = '\\' :: x :: (e ++ q) := by
      apply (List.append_left_inj rest).1
      rw [hp, List.cons_append, List.cons_append, List.append_assoc, hq, ← List.cons_append, ← hr]
    obtain ⟨v'', hv'', -⟩ := Option.map_eq_some_iff.1 hv
    have hmore : within ⟨d, some quote, false⟩ e = some ⟨d, some quote, false⟩ := by
      refine within_of_quoted fun y hy => ?_
      have hne := ne_of_isNeutral (isNeutral_of_more (he y hy))
      rcases hquote with rfl | rfl
      · exact ⟨hne.1, hne.2.1⟩
      · exact ⟨hne.1, hne.2.2.1⟩
    rw [within_escape, within_append_of_eq hmore, ih hq hv'' hrest]
  | case7 c r hne _ hback v' rest heq ih =>
    rw [heq] at ih
    have hsuffix := string_suffix quote r
    rw [heq] at hsuffix
    obtain ⟨q, rfl, hq⟩ := exists_cons_of_suffix hsuffix hp
    obtain ⟨v'', hv'', -⟩ := Option.map_eq_some_iff.1 hv
    rw [within_cons_of_quoted hback hne, ih hq hv'' hrest]

/-! ## Numerals -/

section

variable {P : Char → Prop} (hdigit : ∀ c, c.isDigit → P c)

include hdigit in
theorem forall_mem_digits (s : List Char) : ∀ c ∈ s.takeWhile Char.isDigit, P c :=
  fun c h => hdigit c (List.all_eq_true.1 List.all_takeWhile c h)

variable (hmark : ∀ c ∈ ['+', '-', '.', 'e', 'E'], P c)

include hmark

theorem forall_mem_readSign (s : List Char) : ∀ c ∈ (Numeral.readSign s).1.toList, P c := by
  intro c h
  unfold Numeral.readSign at h
  split at h <;> simp at h <;> subst h <;> exact hmark _ (by decide)

include hdigit

theorem forall_mem_readFraction (s : List Char) :
    ∀ c ∈ ((Numeral.readFraction s).1.map ('.' :: ·)).getD [], P c := by
  intro c h
  unfold Numeral.readFraction at h
  split at h
  · split_ifs at h
    · rcases List.mem_cons.1 h with rfl | h
      · exact hmark _ (by decide)
      · exact forall_mem_digits hdigit _ c h
    · cases h
  · cases h

theorem forall_mem_readExponent (s : List Char) :
    ∀ c ∈ ((Numeral.readExponent s).1.map Exponent.text).getD [], P c := by
  intro c h
  unfold Numeral.readExponent at h
  split at h
  · rename_i e r
    split_ifs at h with hletter
    · dsimp only at h
      split_ifs at h
      · rcases List.mem_cons.1 h with rfl | h
        · rcases hletter with rfl | rfl <;> exact hmark _ (by decide)
        · rcases List.mem_append.1 h with h | h
          · exact forall_mem_readSign hmark _ c h
          · exact forall_mem_digits hdigit _ c h
      · cases h
    · cases h
  · cases h

/-- What holds of digits and of the marks between them holds of the characters of a numeral. -/
theorem forall_mem_numeral (s : List Char) : ∀ c ∈ (Numeral.read s).1.text, P c := by
  intro c h
  simp only [Numeral.text, List.mem_append] at h
  rcases h with ((h | h) | h) | h
  · exact forall_mem_readSign hmark _ c h
  · exact forall_mem_digits hdigit _ c h
  · exact forall_mem_readFraction hdigit hmark _ c h
  · exact forall_mem_readExponent hdigit hmark _ c h

end

theorem isNeutral_of_mem_numeral {s : List Char} {c : Char} (h : c ∈ (Numeral.read s).1.text) :
    isNeutral c :=
  forall_mem_numeral (P := fun c => isNeutral c)
    (fun _ hc => isNeutral_of (p := Char.isDigit) (by decide) hc)
    (List.all_eq_true.1 (by decide)) s c h

theorem within_numeral (s : List Char) (d : Nat) :
    within (level d) (Numeral.read s).1.text = some (level d) :=
  within_of_isNeutral fun _ h => isNeutral_of_mem_numeral h

end Lexer

/-! ## Tokens -/

/-- What the source text of a token does to the state outside of strings. An unquoted address starts
with a name and a parenthesis, like a function, but its inside is not told apart. -/
def Token.Passes (t : Token) (p : List Char) : Prop :=
  match t with
  | .url _ => ∃ n c y, p = n ++ '(' :: y ∧ (∀ d, within (level d) n = some (level d)) ∧
      n.getLast? = some c ∧ c.toLower ≠ 't'
  | .function _ | .leftParen | .leftBracket => ∀ d, within (level d) p = some (level (d + 1))
  | .rightParen | .rightBracket => ∀ d, within (level d) p = some (level (d - 1))
  | .delim c => c ≠ '\\' → ∀ d, within (level d) p = some (level d)
  | .badString | .badUrl | .comma => True
  | _ => ∀ d, within (level d) p = some (level d)

/-- Tokens of all kinds but these leave as many groups open in the text as among the lexemes. -/
theorem Token.Passes.within {t : Token} {p : List Char} (h : t.Passes p) (hurl : ∀ v, t ≠ .url v)
    (hcomma : t ≠ .comma) (hback : t ≠ .delim '\\') (hstring : t ≠ .badString)
    (hbadUrl : t ≠ .badUrl) (d : Nat) :
    within (level d) p =
      some (level (if t.opensGroup then d + 1 else if t.closesGroup then d - 1 else d)) := by
  cases t
  case url v => exact absurd rfl (hurl v)
  case comma => exact absurd rfl hcomma
  case badString => exact absurd rfl hstring
  case badUrl => exact absurd rfl hbadUrl
  case delim c => exact h (fun hc => hback (by rw [hc])) d
  all_goals exact h d

namespace Lexer

theorem toLower_ne_of_more {c : Char} (h : isHexDigit c ∨ isSpace c) : c.toLower ≠ 't' := by
  rcases h with h | h
  · refine forall_hexDigit (p := fun c => c.toLower ≠ 't') ?_ h
    decide
  · simp only [isSpace, Bool.or_eq_true, beq_iff_eq] at h
    rcases h with (((rfl | rfl) | rfl) | rfl) | rfl <;> decide

/-- The name before an unquoted address does not end in a `t`. -/
theorem WritesName.getLast?_of_url {p n : List Char} (h : WritesName p n)
    (hn : sameLetters (String.ofList n) "url") :
    ∃ c, p.getLast? = some c ∧ c.toLower ≠ 't' := by
  have hlower : n.map Char.toLower = ['u', 'r', 'l'] := by
    have hurl : lower (String.ofList n) = lower "url" := eq_of_beq hn
    simpa [toList_lower] using congrArg String.toList hurl
  rcases h.getLast? with ⟨-, rfl⟩ | ⟨c, hc, hlast | hmore⟩
  · cases hlower
  · refine ⟨c, hc, fun ht => ?_⟩
    have := congrArg List.getLast? hlower
    rw [List.getLast?_map, hlast, Option.map_some, ht] at this
    revert this
    decide
  · exact ⟨c, hc, toLower_ne_of_more hmore⟩

theorem passes_nameToken {s p : List Char} :
    p ++ (nameToken s).2 = s → (nameToken s).2 ≠ [] → (nameToken s).1.Passes p := by
  obtain ⟨q, hq⟩ := name_suffix s
  have hwrites := writesName hq
  unfold nameToken
  generalize name s = np at hq hwrites ⊢
  obtain ⟨n, rest⟩ := np
  dsimp only at hq hwrites ⊢
  split
  · rename_i r
    have hwrites := hwrites (by simp)
    have haddress : ∀ {rest'}, rest' <:+ r → p ++ rest' = s → ∃ y, p = q ++ '(' :: y := by
      rintro rest' ⟨y, rfl⟩ hp
      refine ⟨y, (List.append_left_inj rest').1 ?_⟩
      rw [hp, ← hq, List.append_assoc, List.cons_append]
    split_ifs with hurl
    · rw [Bool.and_eq_true] at hurl
      have hrest := (url_suffix (r.dropWhile isSpace)).trans (List.dropWhile_suffix _)
      obtain ⟨c, hc, hct⟩ := hwrites.getLast?_of_url hurl.1
      split
      · rename_i v rest' hv
        rw [hv] at hrest
        intro hp _
        obtain ⟨y, rfl⟩ := haddress hrest hp
        exact ⟨q, c, y, rfl, hwrites.within, hc, hct⟩
      · exact fun _ _ => trivial
    · intro hp _ d
      obtain rfl : p = q ++ ['('] := by
        apply (List.append_left_inj r).1
        rw [hp, ← hq]
        simp
      rw [within_append_of_eq (hwrites.within d), within_open (.inl rfl)]
      rfl
  · intro hp hrest d
    obtain rfl : p = q := (List.append_left_inj rest).1 (hp.trans hq.symm)
    exact (hwrites hrest).within d

theorem passes_numberToken {s p : List Char} :
    p ++ (numberToken s).2 = s → (numberToken s).2 ≠ [] → (numberToken s).1.Passes p := by
  have hnumeral := Numeral.text_read s
  have hwithin := within_numeral s
  unfold numberToken
  generalize Numeral.read s = np at hnumeral hwithin ⊢
  obtain ⟨n, rest⟩ := np
  dsimp only at hnumeral hwithin ⊢
  split_ifs
  · intro hp hrest d
    obtain ⟨q, hq⟩ := name_suffix rest
    obtain rfl : p = n.text ++ q := by
      apply (List.append_left_inj (name rest).2).1
      rw [hp, ← hnumeral, List.append_assoc, hq]
    rw [within_append_of_eq (hwithin d), (writesName hq hrest).within]
  · split
    · rename_i r _
      intro hp _ d
      obtain rfl : p = n.text ++ ['%'] := by
        apply (List.append_left_inj r).1
        rw [hp, ← hnumeral]
        simp
      rw [within_append_of_eq (hwithin d), within_cons_of_isNeutral (by decide)]
      rfl
    · intro hp _ d
      obtain rfl : p = n.text := (List.append_left_inj rest).1 (hp.trans hnumeral.symm)
      exact hwithin d

theorem passes_stringToken {quote : Char} (hquote : quote = '"' ∨ quote = '\'') {s p : List Char} :
    p ++ (stringToken quote s).2 = quote :: s → (stringToken quote s).2 ≠ [] →
      (stringToken quote s).1.Passes p := by
  obtain ⟨q, hq⟩ := string_suffix quote s
  have hwithin := fun v => within_string (v := v) hquote hq
  unfold stringToken
  generalize string quote s = sp at hq hwithin ⊢
  obtain ⟨v, rest⟩ := sp
  cases v with
  | none => exact fun _ _ => trivial
  | some v =>
    intro hp hrest d
    obtain rfl : p = quote :: q := by
      apply (List.append_left_inj rest).1
      rw [hp, List.cons_append, hq]
    rw [within_quote hquote, hwithin v rfl hrest]

theorem eq_singleton_of_append {c : Char} {r p : List Char} (hp : p ++ r = c :: r) : p = [c] :=
  (List.append_left_inj r).1 hp

/-- A character that is a token of its own does nothing outside of strings. -/
theorem within_single {c : Char} (hc : isNeutral c) {r p : List Char} (hp : p ++ r = c :: r)
    (d : Nat) : within (level d) p = some (level d) := by
  rw [eq_singleton_of_append hp]
  exact within_cons_of_isNeutral hc

/-- A name after a mark such as `#` does nothing outside of strings. -/
theorem within_mark_name {c : Char} (hc : isNeutral c) {r p : List Char}
    (hp : p ++ (name r).2 = c :: r) (hrest : (name r).2 ≠ []) (d : Nat) :
    within (level d) p = some (level d) := by
  obtain ⟨q, rfl, hq⟩ := exists_cons_of_suffix (name_suffix r) hp
  rw [within_cons_of_isNeutral hc, (writesName hq hrest).within]

theorem passes_hashToken {r p : List Char} :
    p ++ (hashToken r).2 = '#' :: r → (hashToken r).2 ≠ [] → (hashToken r).1.Passes p := by
  unfold hashToken
  split
  · exact within_mark_name (by decide)
  · exact fun hp _ _ => within_single (by decide) hp

theorem passes_atToken {r p : List Char} :
    p ++ (atToken r).2 = '@' :: r → (atToken r).2 ≠ [] → (atToken r).1.Passes p := by
  unfold atToken
  split
  · exact within_mark_name (by decide)
  · exact fun hp _ _ => within_single (by decide) hp

theorem passes_hyphenToken {r p : List Char} :
    p ++ (hyphenToken r).2 = '-' :: r → (hyphenToken r).2 ≠ [] → (hyphenToken r).1.Passes p := by
  unfold hyphenToken
  split
  · exact passes_numberToken
  · split
    · rename_i r _
      intro hp _ d
      obtain rfl : p = ['-', '-', '>'] := (List.append_left_inj r).1 hp
      exact within_of_isNeutral (by simp [isNeutral])
    · split
      · exact passes_nameToken
      · exact fun hp _ _ => within_single (by decide) hp

theorem passes_lessToken {r p : List Char} :
    p ++ (lessToken r).2 = '<' :: r → (lessToken r).1.Passes p := by
  unfold lessToken
  split
  · rename_i r
    intro hp d
    obtain rfl : p = ['<', '!', '-', '-'] := (List.append_left_inj r).1 hp
    exact within_of_isNeutral (by simp [isNeutral])
  · exact fun hp _ => within_single (by decide) hp

/-- A token with text after it keeps its characters inside of one entry. -/
theorem passes_token {c : Char} {r p : List Char} :
    p ++ (token c r).2 = c :: r → (token c r).2 ≠ [] → (token c r).1.Passes p := by
  unfold token
  split
  · rename_i hspace
    intro hp _ d
    obtain ⟨q, rfl, hq⟩ := exists_cons_of_suffix (List.dropWhile_suffix isSpace) hp
    have hspaces : q = r.takeWhile isSpace := by
      apply (List.append_left_inj (r.dropWhile isSpace)).1
      rw [hq, List.takeWhile_append_dropWhile]
    refine within_of_isNeutral (List.forall_mem_cons.2 ⟨isNeutral_of_isSpace hspace, ?_⟩)
    intro x hx
    rw [hspaces] at hx
    exact isNeutral_of_isSpace (List.all_eq_true.1 List.all_takeWhile x hx)
  · split
    case h_1 => exact passes_stringToken (.inl rfl)
    case h_2 => exact passes_stringToken (.inr rfl)
    case h_3 => exact passes_hashToken
    case h_4 | h_6 =>
      intro hp _ d
      rw [eq_singleton_of_append hp, within_open (by decide)]
      rfl
    case h_5 | h_7 =>
      intro hp _ d
      rw [eq_singleton_of_append hp, within_close (by decide)]
      rfl
    case h_10 => exact fun _ _ => trivial
    case h_13 | h_15 =>
      split
      · exact passes_numberToken
      · exact fun hp _ _ => within_single (by decide) hp
    case h_14 => exact passes_hyphenToken
    case h_16 => exact fun hp _ => passes_lessToken hp
    case h_17 => exact passes_atToken
    case h_18 =>
      split
      · exact passes_nameToken
      · exact fun _ _ hne => absurd rfl hne
    case h_19 =>
      split
      · exact passes_numberToken
      · split
        · exact passes_nameToken
        · refine fun hp _ _ => within_single ?_ hp
          simp only [isNeutral, List.contains_eq_mem, List.mem_cons, List.not_mem_nil, or_false]
          simp_all
    all_goals exact fun hp _ => within_single (by decide) hp

end Lexer

end Restyle.Css
