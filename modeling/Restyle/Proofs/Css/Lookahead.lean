import Restyle.Proofs.Css.WordsAhead

/-!
# Reading a token before another text

A token that was read from a text is read the same when another text comes after it, as long as the
readers of words see no difference there. Main statement: what a token does not run into
(`Token.runsInto`), it is read before (`Lexer.token_append_iff`).
-/

namespace Restyle.Css

open Text

namespace Lexer

variable {c d : Char} {p u y : List Char}

/-! ## Strings and addresses -/

theorem cons_append_ne {q z : List Char} (c : Char) : c :: (q ++ z) ≠ z :=
  fun h => List.cons_ne_nil c q (List.append_left_eq_self.1 h)

section

variable {quote : Char} (hquote : quote ≠ '\\')

include hquote

/-- A string takes its first character, unless a line feed breaks it off there. -/
theorem string_cons_suffix (c : Char) (r : List Char) :
    c = '\n' ∧ c ≠ quote ∨ (string quote (c :: r)).2 <:+ r := by
  by_cases hc : c = quote
  · right
    rw [string.eq_def]
    simp only [hc, if_true]
    exact List.suffix_refl r
  by_cases hbreak : c = '\n'
  · exact .inl ⟨hbreak, hc⟩
  right
  by_cases hbackslash : c = '\\'
  · subst hbackslash
    cases r with
    | nil =>
      rw [string.eq_def]
      simp only [hc, if_false, if_true, Char.reduceEq]
      exact List.suffix_refl _
    | cons x r =>
      by_cases hx : x = '\n'
      · subst hx
        rw [string_continued hquote]
        exact (string_suffix quote r).trans (List.suffix_cons _ _)
      · rw [string_backslash hquote hx]
        exact (string_suffix quote _).trans (escape_suffix _)
  · rw [string.eq_def]
    simp only [hc, hbreak, hbackslash, if_false]
    exact string_suffix quote r

/-- A string is read before another text, where a line feed has to break it off if one did. -/
theorem string_append {v : Option (List Char)} (h : string quote (p ++ d :: u) = (v, d :: u))
    (hbreak : v = none → d = '\n' → y.head? = some '\n') : string quote (p ++ y) = (v, y) := by
  have hstop : ∀ {v}, string quote (d :: u) = (v, d :: u) → d = '\n' ∧ d ≠ quote := by
    intro v h
    refine (string_cons_suffix hquote d u).resolve_right fun htaken => ?_
    rw [h] at htaken
    exact not_suffix_self htaken
  have hbroken : ∀ r, '\n' ≠ quote → string quote ('\n' :: r) = (none, '\n' :: r) := by
    intro r hne
    rw [string.eq_def]
    simp only [hne, if_false, if_true]
  induction hlength : p.length using Nat.strongRecOn generalizing p v with
  | ind k ih =>
    subst hlength
    cases p with
    | nil =>
      obtain ⟨rfl, hne⟩ := hstop h
      rw [List.nil_append, hbroken u hne] at h
      obtain rfl := (Prod.mk.inj h).1
      obtain ⟨r, rfl⟩ := List.head?_eq_some_iff.1 (hbreak rfl rfl)
      rw [List.nil_append, hbroken r hne]
    | cons c q =>
      rw [List.cons_append] at h ⊢
      by_cases hbackslash : c = '\\'
      · subst hbackslash
        cases q with
        | nil =>
          have htaken := (string_cons_suffix hquote '\\' (d :: u)).resolve_left (by simp)
          by_cases hd : d = '\n'
          · subst hd
            rw [List.nil_append, string_continued hquote] at h
            have htaken := string_suffix quote u
            rw [h] at htaken
            exact (not_suffix_self htaken).elim
          · rw [List.nil_append, string_backslash hquote hd] at h
            have htaken := (string_suffix quote _).trans (escape_cons_suffix d u)
            rw [congrArg Prod.snd h] at htaken
            exact (not_suffix_self htaken).elim
        | cons x r =>
          rw [List.cons_append] at h ⊢
          by_cases hx : x = '\n'
          · subst hx
            rw [string_continued hquote] at h ⊢
            exact ih r.length (Nat.lt_add_of_pos_right Nat.two_pos) h hbreak rfl
          · rw [string_backslash hquote hx] at h ⊢
            rw [Prod.mk.injEq] at h
            obtain ⟨rfl, hrest⟩ := h
            rcases escape_append x r d u with ⟨a, t, hto, hread, hopen⟩ | htaken
            · rw [hread] at hrest ⊢
              have hother := hto.read y fun h => by
                have hspace := hopen h
                obtain ⟨rfl, -⟩ := h
                rw [(hstop (Prod.ext rfl hrest)).1] at hspace
                cases hspace
              rw [hread] at hbreak
              rw [hother, ih t.length (hto.length_lt _) (Prod.ext rfl hrest)
                (fun hv => hbreak (Option.map_eq_none_iff.2 hv)) rfl]
            · have htaken := (string_suffix quote _).trans htaken
              rw [hrest] at htaken
              exact (not_suffix_self htaken).elim
      · rw [string.eq_def] at h ⊢
        simp only [hbackslash, if_false] at h ⊢
        split_ifs at h ⊢ with hc hline
        · rw [Prod.mk.injEq] at h
          rw [List.append_left_eq_self.1 h.2, h.1, List.nil_append]
        · exact (cons_append_ne c (congrArg Prod.snd h)).elim
        · rw [Prod.mk.injEq] at h
          obtain ⟨rfl, hrest⟩ := h
          rw [ih q.length (Nat.lt_succ_self _) (Prod.ext rfl hrest)
            (fun hv => hbreak (Option.map_eq_none_iff.2 hv)) rfl]

end

/-- The rest of a malformed address takes its first character. -/
theorem badUrlRest_cons_suffix (c : Char) (r : List Char) : badUrlRest (c :: r) <:+ r := by
  rw [badUrlRest]
  split_ifs
  · exact List.suffix_refl r
  · exact (badUrlRest_suffix _).trans (escape_suffix r)
  · exact badUrlRest_suffix r

theorem not_badUrlRest_self (h : badUrlRest (d :: u) = d :: u) : False := by
  have htaken := badUrlRest_cons_suffix d u
  rw [h] at htaken
  exact not_suffix_self htaken

/-- The rest of a malformed address is read before any other text. -/
theorem badUrlRest_append (h : badUrlRest (p ++ d :: u) = d :: u) (y : List Char) :
    badUrlRest (p ++ y) = y := by
  induction hlength : p.length using Nat.strongRecOn generalizing p with
  | ind k ih =>
    subst hlength
    cases p with
    | nil => exact (not_badUrlRest_self h).elim
    | cons c q =>
      rw [List.cons_append, badUrlRest] at h ⊢
      by_cases hparen : c = ')'
      · rw [if_pos hparen] at h ⊢
        rw [List.append_left_eq_self.1 h, List.nil_append]
      rw [if_neg hparen] at h ⊢
      cases q with
      | nil =>
        rw [List.nil_append] at h
        split_ifs at h
        · have htaken := (badUrlRest_suffix _).trans (escape_cons_suffix d u)
          rw [h] at htaken
          exact (not_suffix_self htaken).elim
        · exact (not_badUrlRest_self h).elim
      | cons x r =>
        rw [List.cons_append, escapes_cons] at h ⊢
        split_ifs at h ⊢ with hescapes
        · rcases escape_append x r d u with ⟨a, t, hto, hread, -⟩ | htaken
          · dsimp only at h ⊢
            rw [hread] at h
            rw [hto.read y fun hopen => (not_badUrlRest_self (hopen.1 ▸ h)).elim]
            exact ih t.length (hto.length_lt _) h rfl
          · have htaken := (badUrlRest_suffix _).trans htaken
            rw [h] at htaken
            exact (not_suffix_self htaken).elim
        · exact ih (x :: r).length (Nat.lt_succ_self _) h rfl

/-- An address takes its first character. -/
theorem url_cons_suffix (c : Char) (r : List Char) : (url (c :: r)).2 <:+ r := by
  rw [url]
  by_cases hparen : c = ')'
  · rw [if_pos hparen]
  rw [if_neg hparen]
  split_ifs
  · have hdrop := List.dropWhile_suffix (l := r) isSpace
    split
    · exact List.nil_suffix
    · rename_i e s heq
      rw [heq] at hdrop
      split_ifs
      · exact (List.suffix_cons e s).trans hdrop
      · exact (badUrlRest_suffix _).trans hdrop
  · exact badUrlRest_suffix r
  · exact (url_suffix _).trans (escape_suffix r)
  · exact badUrlRest_suffix r
  · exact url_suffix r

theorem not_url_self {v : Option (List Char)} (h : url (d :: u) = (v, d :: u)) : False := by
  have htaken := url_cons_suffix d u
  rw [h] at htaken
  exact not_suffix_self htaken

/-- What comes after white space is more than a text that is left. -/
theorem exists_dropWhile_append {q : List Char}
    (h : ¬ (q ++ d :: u).dropWhile isSpace <:+ d :: u) :
    ∃ e s, ∀ y, (q ++ y).dropWhile isSpace = e :: s ++ y := by
  induction q with
  | nil => exact absurd (List.dropWhile_suffix _) h
  | cons c q ih =>
    rw [List.cons_append, List.dropWhile_cons] at h
    split_ifs at h with hc
    · obtain ⟨e, s, hother⟩ := ih h
      refine ⟨e, s, fun y => ?_⟩
      rw [List.cons_append, List.dropWhile_cons_of_pos hc, hother]
    · exact ⟨c, q, fun y => by rw [List.cons_append, List.dropWhile_cons_of_neg hc]⟩

/-- White space that ends an address is read before any other text. -/
theorem url_space_append {q : List Char} {v : Option (List Char)} (hc : isSpace c)
    (h : url (c :: (q ++ d :: u)) = (v, d :: u)) (y : List Char) :
    url (c :: (q ++ y)) = (v, y) := by
  have hparen : c ≠ ')' := by
    rintro rfl
    exact absurd hc (by decide)
  rw [url, if_neg hparen, if_pos hc] at h ⊢
  have hmore : ¬ (q ++ d :: u).dropWhile isSpace <:+ d :: u := by
    intro hsuffix
    split at h
    · cases (Prod.mk.inj h).2
    · rename_i e s heq
      rw [heq] at hsuffix
      have hlt : s.length < (d :: u).length := hsuffix.length_le
      split_ifs at h
      · rw [(Prod.mk.inj h).2] at hlt
        exact absurd hlt (Nat.lt_irrefl _)
      · have hle := (badUrlRest_cons_suffix e s).length_le
        rw [(Prod.mk.inj h).2] at hle
        omega
  obtain ⟨e, s, hother⟩ := exists_dropWhile_append hmore
  rw [hother] at h ⊢
  rw [List.cons_append] at h ⊢
  dsimp only at h ⊢
  split_ifs at h ⊢
  · rw [Prod.mk.injEq] at h
    rw [List.append_left_eq_self.1 h.2, h.1, List.nil_append]
  · rw [Prod.mk.injEq] at h
    rw [← List.cons_append] at h ⊢
    rw [badUrlRest_append h.2, h.1]

/-- An address is read before any other text. -/
theorem url_append {v : Option (List Char)} (h : url (p ++ d :: u) = (v, d :: u))
    (y : List Char) : url (p ++ y) = (v, y) := by
  induction hlength : p.length using Nat.strongRecOn generalizing p v with
  | ind k ih =>
    subst hlength
    cases p with
    | nil => exact (not_url_self h).elim
    | cons c q =>
      rw [List.cons_append] at h ⊢
      by_cases hspace : isSpace c
      · exact url_space_append hspace h y
      rw [url] at h ⊢
      by_cases hparen : c = ')'
      · rw [if_pos hparen] at h ⊢
        rw [Prod.mk.injEq] at h
        rw [List.append_left_eq_self.1 h.2, h.1, List.nil_append]
      rw [if_neg hparen, if_neg hspace] at h ⊢
      by_cases hbreak : c = '"' ∨ c = '\'' ∨ c = '('
      · rw [if_pos hbreak, Prod.mk.injEq] at h
        rw [if_pos hbreak, badUrlRest_append h.2, h.1]
      rw [if_neg hbreak] at h ⊢
      by_cases hbackslash : c = '\\'
      · rw [if_pos hbackslash] at h ⊢
        cases q with
        | nil =>
          rw [List.nil_append] at h
          split_ifs at h
          · have htaken := (url_suffix _).trans (escape_cons_suffix d u)
            rw [congrArg Prod.snd h] at htaken
            exact (not_suffix_self htaken).elim
          · exact (not_badUrlRest_self (congrArg Prod.snd h)).elim
        | cons x r =>
          rw [List.cons_append, escapes_cons] at h ⊢
          split_ifs at h ⊢ with hescapes
          · rw [Prod.mk.injEq] at h
            obtain ⟨rfl, hrest⟩ := h
            rcases escape_append x r d u with ⟨a, t, hto, hread, -⟩ | htaken
            · dsimp only
              rw [hread] at hrest ⊢
              have hother := hto.read y fun hopen => by
                obtain ⟨rfl, -⟩ := hopen
                exact (not_url_self (Prod.ext rfl hrest)).elim
              rw [hother, ih t.length (hto.length_lt _) (Prod.ext rfl hrest) rfl]
            · have htaken := (url_suffix _).trans htaken
              rw [hrest] at htaken
              exact (not_suffix_self htaken).elim
          · rw [Prod.mk.injEq] at h
            rw [← List.cons_append] at h ⊢
            rw [badUrlRest_append h.2, h.1]
      · rw [if_neg hbackslash, Prod.mk.injEq] at h
        obtain ⟨rfl, hrest⟩ := h
        rw [if_neg hbackslash, ih q.length (Nat.lt_succ_self _) (Prod.ext rfl hrest) rfl]

/-! ## Tokens that start with a name -/

section

variable {q s n : List Char} {t : Token}

/-- White space before an address that is read goes on with more text. -/
theorem exists_dropWhile_of_url (h : (url ((s ++ d :: u).dropWhile isSpace)).2 = d :: u) :
    ∃ e r, ∀ y, (s ++ y).dropWhile isSpace = e :: r ++ y := by
  have hmore : ¬ (s ++ d :: u).dropWhile isSpace <:+ d :: u := by
    intro hsuffix
    cases hdrop : (s ++ d :: u).dropWhile isSpace with
    | nil =>
      rw [hdrop, url] at h
      cases h
    | cons e r =>
      rw [hdrop] at h hsuffix
      have hle := (url_cons_suffix e r).length_le
      have hlt : r.length < (d :: u).length := hsuffix.length_le
      rw [h] at hle
      omega
  exact exists_dropWhile_append hmore

/-- A name with its parenthesis is read before another text, in which a quote comes first if it did
before. -/
theorem nameToken_paren_append
    (hname : name (q ++ '(' :: (s ++ d :: u)) = (n, '(' :: (s ++ d :: u)))
    (h : nameToken (q ++ '(' :: (s ++ d :: u)) = (t, d :: u))
    (hquote : quoteAhead (d :: u) → quoteAhead y) :
    nameToken (q ++ '(' :: (s ++ y)) = (t, y) ∧ t.isWord = false := by
  have hname' : name (q ++ '(' :: (s ++ y)) = (n, '(' :: (s ++ y)) := by
    refine (name_append_iff hname).2 ⟨rfl, ?_⟩
    rintro - e ⟨⟩
    rfl
  rw [nameToken_of_paren hname] at h
  rw [nameToken_of_paren hname']
  cases hurl : sameLetters (String.ofList n) "url" with
  | false =>
    rw [hurl, Bool.false_and, if_neg (by simp), Prod.mk.injEq] at h
    obtain ⟨rfl, hs⟩ := h
    rw [Bool.false_and, if_neg (by simp), List.append_left_eq_self.1 hs, List.nil_append]
    exact ⟨rfl, rfl⟩
  | true =>
    rw [hurl] at h
    rw [Bool.true_and] at h ⊢
    split_ifs at h with hahead
    · have hrest : (url ((s ++ d :: u).dropWhile isSpace)).2 = d :: u := by
        split at h <;> rename_i hread <;> rw [hread] <;> exact (Prod.mk.inj h).2
      obtain ⟨e, r, hother⟩ := exists_dropWhile_of_url hrest
      have hahead' : quoteAhead (s ++ y) = quoteAhead (s ++ d :: u) := by
        rw [quoteAhead, quoteAhead, hother, hother]
        rfl
      rw [hahead', if_pos hahead, hother]
      rw [hother] at h
      split at h
      all_goals
        rename_i hread
        rw [Prod.mk.injEq] at h
        obtain ⟨rfl, rfl⟩ := h
        rw [url_append hread]
        exact ⟨rfl, rfl⟩
    · rw [Prod.mk.injEq] at h
      obtain ⟨rfl, hs⟩ := h
      obtain rfl := List.append_left_eq_self.1 hs
      rw [List.nil_append, Bool.not_eq_true, Bool.not_eq_false'] at hahead
      rw [List.nil_append, hquote hahead]
      exact ⟨rfl, rfl⟩

/-- A parenthesis after a name is taken. -/
theorem not_nameToken_paren (hname : name p = (n, '(' :: u)) : nameToken p ≠ (t, '(' :: u) := by
  intro h
  rw [nameToken_of_paren hname] at h
  split_ifs at h
  · have htaken := (url_suffix (u.dropWhile isSpace)).trans (List.dropWhile_suffix _)
    split at h <;> rename_i hurl <;> rw [hurl, (Prod.mk.inj h).2] at htaken <;>
      exact not_suffix_self htaken
  · exact not_suffix_self ⟨[], (Prod.mk.inj h).2.symm⟩

/-- An identifier is read before another text if its name is. -/
theorem nameToken_ident_append_iff (hname : name (p ++ d :: u) = (n, d :: u)) (hparen : d ≠ '(')
    (hsame : SeesSame (d :: u) y) :
    nameToken (p ++ y) = (.ident (String.ofList n), y) ↔
      (endsOpen p → startsSpace y = false) := by
  have hcontinues : continuesName y = false := hsame.continues.trans (continuesName_of_name hname)
  have hiff := name_append_iff (y := y) hname
  rw [not_startsSpace_iff]
  constructor
  · intro hread
    have hname' := name_of_nameToken (congrArg Prod.fst hread)
    rw [hread, String.toList_ofList] at hname'
    exact (hiff.1 hname').2
  · intro hspace
    refine nameToken_of_name (hiff.2 ⟨hcontinues, hspace⟩) fun r hr => hparen ?_
    have hhead := hsame.paren (by rw [hr]; rfl)
    rwa [List.head?_cons, Option.some.injEq] at hhead

end

/-- A token that starts with a name is read before another text in which the readers see no
difference, unless the escape that ends it takes white space there. -/
theorem nameToken_append_iff {t : Token} (h : nameToken (p ++ d :: u) = (t, d :: u))
    (hquote : quoteAhead (d :: u) → quoteAhead y) (hsame : t.isWord → SeesSame (d :: u) y) :
    startsName (p ++ y) = startsName (p ++ d :: u) ∧
      (nameToken (p ++ y) = (t, y) ↔ (t.isWord → endsOpen p → startsSpace y = false)) := by
  obtain ⟨n, rest, hname⟩ : ∃ n rest, name (p ++ d :: u) = (n, rest) := ⟨_, _, rfl⟩
  have hrest := nameToken_suffix (p ++ d :: u)
  have hparts := name_suffix (p ++ d :: u)
  rw [hname] at hrest hparts
  rw [h] at hrest
  obtain ⟨s, rfl⟩ := hrest
  obtain ⟨q, hq⟩ := hparts
  dsimp only at hq
  obtain rfl : q ++ s = p := by
    apply (List.append_left_inj (d :: u)).1
    rw [List.append_assoc, hq]
  rw [List.append_assoc] at h hname
  rw [List.append_assoc, List.append_assoc]
  by_cases hparen : ∃ r, s ++ d :: u = '(' :: r
  · obtain ⟨r, hr⟩ := hparen
    cases s with
    | nil =>
      obtain ⟨rfl, rfl⟩ := List.cons.inj hr
      exact absurd h (not_nameToken_paren hname)
    | cons e s =>
      obtain ⟨rfl, rfl⟩ := List.cons.inj hr
      obtain ⟨hread, hword⟩ := nameToken_paren_append hname h hquote
      refine ⟨startsName_append hname rfl, iff_of_true hread fun hword' => ?_⟩
      rw [hword] at hword'
      cases hword'
  · rw [nameToken_of_name hname fun r hr => hparen ⟨r, hr⟩, Prod.mk.injEq] at h
    obtain ⟨rfl, hs⟩ := h
    obtain rfl := List.append_left_eq_self.1 hs
    rw [List.nil_append] at hname
    rw [List.nil_append, List.nil_append, List.append_nil]
    have hsame := hsame rfl
    have hne : d ≠ '(' := by
      rintro rfl
      exact hparen ⟨u, rfl⟩
    have hcontinues : continuesName y = false := hsame.continues.trans (continuesName_of_name hname)
    refine ⟨startsName_append hname hcontinues, ?_⟩
    exact (nameToken_ident_append_iff hname hne hsame).trans ⟨fun h _ => h, fun h => h rfl⟩

end Lexer

/-! ## What tokens run into -/

open Lexer

/-- Whether a token with this text would not be read as it is before another text, though nothing
keeps the two apart: a character that starts longer tokens would go on with one of them or start a
comment, `--` would go on with a mark, and an escape would take white space. -/
def Token.runsInto (t : Token) (text after : List Char) : Bool :=
  match t with
  | .delim '#' => continuesName after
  | .delim '@' => startsName after
  | .delim '+' => Numeral.startsUnsigned after
  | .delim '-' => Numeral.startsUnsigned after || startsAfterHyphen after
  | .delim '.' => Numeral.startsDigit after
  | .delim '<' => ['!', '-', '-'].isPrefixOf after
  | .delim '/' => ['*'].isPrefixOf after
  | .ident _ =>
    (text = ['-', '-'] && ['>'].isPrefixOf after) || (endsOpen text && startsSpace after)
  | .atKeyword _ | .hash _ _ | .dimension _ _ => endsOpen text && startsSpace after
  | _ => false

namespace Token

variable (text after : List Char)

theorem runsInto_numberSign : (delim '#').runsInto text after = continuesName after :=
  rfl

theorem runsInto_at : (delim '@').runsInto text after = startsName after :=
  rfl

theorem runsInto_hyphen : (delim '-').runsInto text after =
    (Numeral.startsUnsigned after || startsAfterHyphen after) :=
  rfl

theorem runsInto_less : (delim '<').runsInto text after = ['!', '-', '-'].isPrefixOf after :=
  rfl

theorem runsInto_slash : (delim '/').runsInto text after = ['*'].isPrefixOf after :=
  rfl

theorem runsInto_ident (name : String) : (ident name).runsInto text after =
    ((text = ['-', '-'] && ['>'].isPrefixOf after) || (endsOpen text && startsSpace after)) :=
  rfl

theorem runsInto_atKeyword (name : String) :
    (atKeyword name).runsInto text after = (endsOpen text && startsSpace after) :=
  rfl

theorem runsInto_hash (name : String) (kind : HashKind) :
    (hash name kind).runsInto text after = (endsOpen text && startsSpace after) :=
  rfl

theorem runsInto_dimension (value : Decimal) (unit : String) :
    (dimension value unit).runsInto text after = (endsOpen text && startsSpace after) :=
  rfl

/-- Other characters start no longer token. -/
theorem runsInto_delim {c : Char} (h : c ∉ ['#', '@', '+', '-', '.', '<', '/']) :
    (delim c).runsInto text after = false := by
  unfold runsInto
  split <;> simp_all

end Token

namespace Lexer

theorem isPrefixOf_iff_exists {pre : List Char} : pre.isPrefixOf y ↔ ∃ r, y = pre ++ r := by
  rw [List.isPrefixOf_iff_prefix]
  exact ⟨fun ⟨r, hr⟩ => ⟨r, hr.symm⟩, fun ⟨r, hr⟩ => ⟨r, hr.symm⟩⟩

section

variable {t : Token} {s text : List Char}

theorem runsInto_of_number (h : (numberToken s).1 = t) :
    t.runsInto text y = false ↔
      ((∃ v unit, t = .dimension v unit) → endsOpen text → startsSpace y = false) := by
  unfold numberToken at h
  dsimp only at h
  split_ifs at h
  · subst h
    rw [Token.runsInto_dimension, Bool.and_eq_false_imp]
    exact ⟨fun h _ => h, fun h => h ⟨_, _, rfl⟩⟩
  · split at h <;> subst h <;> exact iff_of_true rfl (by rintro ⟨_, _, hunit⟩; cases hunit)

theorem runsInto_of_name (h : (nameToken s).1 = t)
    (htext : text = ['-', '-'] → ['>'].isPrefixOf y = false) :
    t.runsInto text y = false ↔ (t.isWord → endsOpen text → startsSpace y = false) := by
  unfold nameToken at h
  dsimp only at h
  split at h
  · split_ifs at h
    · split at h <;> subst h <;> exact iff_of_true rfl fun hword => by cases hword
    · subst h
      exact iff_of_true rfl fun hword => by cases hword
  · subst h
    have hmark : (decide (text = ['-', '-']) && ['>'].isPrefixOf y) = false := by
      rw [Bool.and_eq_false_imp, decide_eq_true_eq]
      exact htext
    rw [Token.runsInto_ident, hmark, Bool.false_or, Bool.and_eq_false_imp]
    exact ⟨fun h _ => h, fun h => h rfl⟩

end

/-! ## Tokens -/

section

variable {t : Token} (hline : t = .badString ∨ t = .delim '\\' → d = '\n' → y.head? = some '\n')
  (hquote : quoteAhead (d :: u) → quoteAhead y) (hsame : t.isWord → SeesSame (d :: u) y)

include hline in
theorem stringToken_append {quote : Char} (hslash : quote ≠ '\\')
    (h : stringToken quote (p ++ d :: u) = (t, d :: u)) (text : List Char) :
    stringToken quote (p ++ y) = (t, y) ↔ t.runsInto text y = false := by
  unfold stringToken at h ⊢
  split at h
  all_goals
    rename_i hread
    rw [Prod.mk.injEq] at h
    obtain ⟨rfl, rfl⟩ := h
  · rw [string_append hslash hread (by simp)]
    exact iff_of_true rfl rfl
  · rw [string_append hslash hread fun _ => hline (.inl rfl)]
    exact iff_of_true rfl rfl

include hsame in
theorem hashToken_append_iff (h : hashToken (p ++ d :: u) = (t, d :: u)) :
    hashToken (p ++ y) = (t, y) ↔ t.runsInto ('#' :: p) y = false := by
  unfold hashToken at h
  by_cases hcontinues : continuesName (p ++ d :: u)
  · rw [if_pos hcontinues, Prod.mk.injEq] at h
    obtain ⟨n, hname⟩ : ∃ n, name (p ++ d :: u) = (n, d :: u) := ⟨_, Prod.ext rfl h.2⟩
    rw [hname] at h
    dsimp only at h
    have hword : t.isWord := by rw [← h.1]; rfl
    have hy : continuesName y = false := (hsame hword).continues.trans (continuesName_of_name hname)
    rw [hashToken, if_pos ((continuesName_append hname hcontinues).2 y), startsName_append hname hy,
      ← h.1, Token.runsInto_hash, endsOpen_cons (by decide), Bool.and_eq_false_imp]
    exact named_append_iff (fun a b h => String.ofList_inj.1 (Token.hash.inj h).1) hname hy
  · rw [if_neg hcontinues, Prod.mk.injEq] at h
    obtain ⟨rfl, hp⟩ := h
    obtain rfl := List.append_left_eq_self.1 hp
    rw [List.nil_append, hashToken, Token.runsInto_numberSign]
    split_ifs with hy <;> simp [hy]

include hsame in
theorem atToken_append_iff (h : atToken (p ++ d :: u) = (t, d :: u)) :
    atToken (p ++ y) = (t, y) ↔ t.runsInto ('@' :: p) y = false := by
  unfold atToken at h
  split_ifs at h with hstarts
  · rw [Prod.mk.injEq] at h
    obtain ⟨n, hname⟩ : ∃ n, name (p ++ d :: u) = (n, d :: u) := ⟨_, Prod.ext rfl h.2⟩
    rw [hname] at h
    have hword : t.isWord := by rw [← h.1]; rfl
    have hy : continuesName y = false := (hsame hword).continues.trans (continuesName_of_name hname)
    rw [atToken, if_pos ((startsName_append hname hy).trans hstarts), ← h.1,
      Token.runsInto_atKeyword, endsOpen_cons (by decide), Bool.and_eq_false_imp]
    exact named_append_iff (fun a b h => String.ofList_inj.1 (Token.atKeyword.inj h)) hname hy
  · rw [Prod.mk.injEq] at h
    obtain ⟨rfl, hp⟩ := h
    obtain rfl := List.append_left_eq_self.1 hp
    rw [List.nil_append, atToken, Token.runsInto_at]
    split_ifs with hy <;> simp [hy]

theorem lessToken_append_iff (h : lessToken (p ++ d :: u) = (t, d :: u)) :
    lessToken (p ++ y) = (t, y) ↔ t.runsInto ('<' :: p) y = false := by
  unfold lessToken at h
  split at h
  · rename_i r hp
    rw [Prod.mk.injEq] at h
    obtain ⟨rfl, rfl⟩ := h
    obtain rfl : p = ['!', '-', '-'] := List.append_cancel_right hp
    exact iff_of_true rfl rfl
  · rw [Prod.mk.injEq] at h
    obtain ⟨rfl, hp⟩ := h
    obtain rfl := List.append_left_eq_self.1 hp
    rw [List.nil_append, Token.runsInto_less, Bool.eq_false_iff, Ne, isPrefixOf_iff_exists]
    unfold lessToken
    split
    · simp
    · rename_i hmark
      exact iff_of_true rfl fun ⟨r, hr⟩ => hmark r hr

theorem isWord_of_number (h : (numberToken s).1 = t) : t.isWord := by
  unfold numberToken at h
  dsimp only at h
  split_ifs at h
  · exact h ▸ rfl
  · split at h <;> exact h ▸ rfl

include hsame in
/-- A sign or a point that is a token of its own is one before another text that no number starts
with, and a number that starts with it is read as numbers are. -/
theorem markToken_append_iff {test : List Char → Bool}
    (htest : ∀ z, test z = Numeral.starts (c :: z))
    (hruns : ∀ z, (Token.delim c).runsInto [c] z = test z)
    (h : (if test (p ++ d :: u) then numberToken (c :: (p ++ d :: u))
      else (.delim c, p ++ d :: u)) = (t, d :: u)) :
    (if test (p ++ y) then numberToken (c :: (p ++ y)) else (.delim c, p ++ y)) = (t, y) ↔
      t.runsInto (c :: p) y = false := by
  split_ifs at h with hstarts
  · have ht : (numberToken (c :: p ++ d :: u)).1 = t := congrArg Prod.fst h
    rw [htest] at hstarts
    obtain ⟨hstarts', hiff⟩ := numberToken_append_iff (c := c) (q := p) h hstarts
      (hsame (isWord_of_number ht))
    rw [List.cons_append, ← htest] at hstarts'
    rw [if_pos hstarts', runsInto_of_number ht]
    exact hiff
  · rw [Prod.mk.injEq] at h
    obtain ⟨rfl, hp⟩ := h
    obtain rfl := List.append_left_eq_self.1 hp
    rw [List.nil_append, hruns]
    split_ifs with hy
    · refine iff_of_false (fun heq => ?_) (by simp [hy])
      cases isWord_of_number (congrArg Prod.fst heq)
    · simpa using hy

/-- A token that starts with a name is an identifier, or it takes a parenthesis after the name. -/
theorem nameToken_cases (s : List Char) :
    (∃ v, (nameToken s).1 = .ident v) ∨ ∃ r, (name s).2 = '(' :: r ∧ (nameToken s).2 <:+ r := by
  unfold nameToken
  generalize name s = q
  obtain ⟨n, rest⟩ := q
  dsimp only
  split
  · rename_i r
    refine .inr ⟨r, rfl, ?_⟩
    have hsuffix := (url_suffix (r.dropWhile isSpace)).trans (List.dropWhile_suffix _)
    split_ifs
    · split <;> rename_i hread <;> rwa [hread] at hsuffix
    · exact List.suffix_refl r
  · exact .inl ⟨_, rfl⟩

theorem name_suffix_of_continuesName (h : continuesName (c :: p)) : (name (c :: p)).2 <:+ p := by
  refine name_cons_suffix ?_
  by_cases hbackslash : c = '\\'
  · subst hbackslash
    exact .inr ⟨rfl, h⟩
  · rw [continuesName_cons_of_ne hbackslash] at h
    exact .inl h

theorem startsUnsigned_cons {c : Char} (h : c ≠ '.') (r : List Char) :
    Numeral.startsUnsigned (c :: r) = c.isDigit := by
  simp [Numeral.startsUnsigned, Numeral.startsDigit, h]

theorem hyphenToken_of_ne {s : List Char} (hnumber : ¬ Numeral.startsUnsigned s)
    (hmark : ∀ r, s ≠ '-' :: '>' :: r) :
    hyphenToken s = if startsAfterHyphen s then nameToken ('-' :: s) else (.delim '-', s) := by
  unfold hyphenToken
  rw [if_neg hnumber]
  split
  · exact absurd rfl (hmark _)
  · rfl

theorem not_delim_of_hyphenToken (h : Numeral.startsUnsigned y || startsAfterHyphen y) :
    (hyphenToken y).1 ≠ .delim '-' := by
  unfold hyphenToken
  split_ifs with hnumber
  · intro heq
    cases isWord_of_number heq
  · split
    · simp
    · rw [Bool.or_eq_true] at h
      rw [if_pos (h.resolve_left hnumber)]
      exact nameToken_ne_delim _ _

/-- Two hyphens that a token ends after are an identifier. -/
theorem isIdent_of_hyphens (h : nameToken ('-' :: '-' :: d :: u) = (t, d :: u)) :
    ∃ v, t = .ident v := by
  rcases nameToken_cases ('-' :: '-' :: d :: u) with ⟨v, hv⟩ | ⟨r, hname, hsuffix⟩
  · rw [h] at hv
    exact ⟨v, hv⟩
  · have hrest : (name ('-' :: '-' :: d :: u)).2 <:+ d :: u := by
      rw [name_of_isNameChar (by decide), name_of_isNameChar (by decide)]
      exact name_suffix (d :: u)
    rw [hname] at hrest
    rw [h] at hsuffix
    exact (not_suffix_self (hrest.trans hsuffix)).elim

include hquote hsame

/-- A name that starts with a hyphen is read before another text if names are, unless two hyphens
make a mark there. -/
theorem hyphenName_append_iff (hnumber : ¬ Numeral.startsUnsigned (p ++ d :: u))
    (hmark : ∀ r, p ++ d :: u ≠ '-' :: '>' :: r) (hstarts : startsAfterHyphen (p ++ d :: u))
    (h : nameToken ('-' :: (p ++ d :: u)) = (t, d :: u)) :
    hyphenToken (p ++ y) = (t, y) ↔ t.runsInto ('-' :: p) y = false := by
  -- A name that starts with the hyphen has more characters.
  have hp : p ≠ [] := by
    rintro rfl
    have htaken := nameToken_suffix ('-' :: d :: u)
    rw [name_of_isNameChar (by decide)] at htaken
    rw [List.nil_append] at h hstarts
    rw [h] at htaken
    have hmore := name_suffix_of_continuesName (continuesName_of_startsAfterHyphen hstarts)
    exact not_suffix_self (htaken.trans hmore)
  obtain ⟨c, q, rfl⟩ := List.exists_cons_of_ne_nil hp
  have hpoint : c ≠ '.' := by
    rintro rfl
    exact absurd hstarts (by simp [startsAfterHyphen, isNameStart])
  obtain ⟨hstarts', hiff⟩ := nameToken_append_iff (p := '-' :: c :: q) h hquote hsame
  have hafter : startsAfterHyphen (c :: q ++ y) := hstarts'.trans hstarts
  have hnumber' : ¬ Numeral.startsUnsigned (c :: q ++ y) := by
    rw [List.cons_append, startsUnsigned_cons hpoint] at hnumber ⊢
    exact hnumber
  by_cases hcdc : ∃ r, c :: q ++ y = '-' :: '>' :: r
  · obtain ⟨r, hr⟩ := hcdc
    cases q with
    | cons e q =>
      obtain ⟨rfl, hq⟩ := List.cons.inj hr
      obtain ⟨rfl, -⟩ := List.cons.inj hq
      exact absurd rfl (hmark _)
    | nil =>
      obtain ⟨rfl, rfl⟩ := List.cons.inj hr
      obtain ⟨v, rfl⟩ := isIdent_of_hyphens h
      refine iff_of_false (fun heq => by cases congrArg Prod.fst heq) ?_
      simp [Token.runsInto_ident]
  · rw [hyphenToken_of_ne hnumber' fun r hr => hcdc ⟨r, hr⟩, if_pos hafter,
      runsInto_of_name (congrArg Prod.fst h)]
    · exact hiff
    · intro htext
      obtain ⟨rfl, rfl⟩ : c = '-' ∧ q = [] := by simpa using htext
      rw [Bool.eq_false_iff, Ne, isPrefixOf_iff_exists]
      rintro ⟨r, rfl⟩
      exact hcdc ⟨r, rfl⟩

theorem hyphenToken_append_iff (h : hyphenToken (p ++ d :: u) = (t, d :: u)) :
    hyphenToken (p ++ y) = (t, y) ↔ t.runsInto ('-' :: p) y = false := by
  by_cases hnumber : Numeral.startsUnsigned (p ++ d :: u)
  · unfold hyphenToken at h
    rw [if_pos hnumber] at h
    have ht : (numberToken ('-' :: p ++ d :: u)).1 = t := congrArg Prod.fst h
    obtain ⟨hstarts, hiff⟩ := numberToken_append_iff (c := '-') (q := p) h hnumber
      (hsame (isWord_of_number ht))
    have hnumber' : Numeral.startsUnsigned (p ++ y) := hstarts
    unfold hyphenToken
    rw [if_pos hnumber', runsInto_of_number ht]
    exact hiff
  by_cases hmark : ∃ r, p ++ d :: u = '-' :: '>' :: r
  · obtain ⟨r, hr⟩ := hmark
    have hread : hyphenToken ('-' :: '>' :: r) = (.cdc, r) := rfl
    rw [hr, hread, Prod.mk.injEq] at h
    obtain ⟨rfl, rfl⟩ := h
    obtain rfl : p = ['-', '>'] := List.append_cancel_right hr
    exact iff_of_true rfl rfl
  rw [hyphenToken_of_ne hnumber fun r hr => hmark ⟨r, hr⟩] at h
  split_ifs at h with hstarts
  · exact hyphenName_append_iff hquote hsame hnumber (fun r hr => hmark ⟨r, hr⟩) hstarts h
  · rw [Prod.mk.injEq] at h
    obtain ⟨rfl, hp⟩ := h
    obtain rfl := List.append_left_eq_self.1 hp
    rw [List.nil_append, Token.runsInto_hyphen]
    cases hy : Numeral.startsUnsigned y || startsAfterHyphen y with
    | true =>
      refine iff_of_false (fun heq => ?_) (by simp)
      exact not_delim_of_hyphenToken hy (congrArg Prod.fst heq)
    | false =>
      rw [Bool.or_eq_false_iff] at hy
      refine iff_of_true ?_ rfl
      rw [hyphenToken_of_ne (by simp [hy.1]), if_neg (by simp [hy.2])]
      rintro r rfl
      cases hy.2

include hline

/-- A token that was read from a text is read before another text if nothing shows a difference to
the readers there and the token does not run into it. -/
theorem token_append_iff {c : Char} (hspace : isSpace c = false) (hslash : c ≠ '/')
    (h : token c (p ++ d :: u) = (t, d :: u)) :
    token c (p ++ y) = (t, y) ↔ t.runsInto (c :: p) y = false := by
  have hname {c : Char} {v : List Char} (hc : c ≠ '-') (h : (nameToken v).1 = t) :
      t.runsInto (c :: p) y = false ↔ (t.isWord → endsOpen (c :: p) → startsSpace y = false) :=
    runsInto_of_name h fun htext => absurd (List.cons.inj htext).1 hc
  unfold token at h ⊢
  rw [if_neg (by simp [hspace])] at h ⊢
  split at h
  case h_1 | h_2 => exact stringToken_append hline (by decide) h _
  case h_3 => exact hashToken_append_iff hsame h
  case h_13 => exact markToken_append_iff hsame (fun _ => rfl) (fun _ => rfl) h
  case h_14 => exact hyphenToken_append_iff hquote hsame h
  case h_15 => exact markToken_append_iff hsame (fun _ => rfl) (fun _ => rfl) h
  case h_16 => exact lessToken_append_iff h
  case h_17 => exact atToken_append_iff hsame h
  case h_18 =>
    cases p with
    | nil =>
      rw [List.nil_append, escapes_cons] at h
      split_ifs at h with hescapes <;> rw [bne_iff_ne] at hescapes
      · have htaken := (nameToken_suffix _).trans (name_backslash_suffix hescapes u)
        rw [h] at htaken
        exact (not_suffix_self htaken).elim
      · rw [not_not] at hescapes
        rw [Prod.mk.injEq] at h
        obtain ⟨rfl, -⟩ := h
        obtain ⟨r, rfl⟩ := List.head?_eq_some_iff.1 (hline (.inr rfl) hescapes)
        exact iff_of_true rfl rfl
    | cons x r =>
      rw [List.cons_append, escapes_cons] at h ⊢
      split_ifs at h ⊢
      · rw [hname (by decide) (congrArg Prod.fst h)]
        exact (nameToken_append_iff (p := '\\' :: x :: r) h hquote hsame).2
      · exact (cons_append_ne x (congrArg Prod.snd h)).elim
  case h_19 =>
    have hne : c ≠ '-' := by assumption
    split_ifs at h ⊢ with hdigit hstart
    · have hword := isWord_of_number (congrArg Prod.fst h)
      rw [runsInto_of_number (congrArg Prod.fst h)]
      exact (numberToken_append_iff h (Numeral.starts_of_isDigit hdigit) (hsame hword)).2
    · rw [hname hne (congrArg Prod.fst h)]
      exact (nameToken_append_iff (p := c :: p) h hquote hsame).2
    · rw [Prod.mk.injEq] at h
      obtain ⟨rfl, hp⟩ := h
      obtain rfl := List.append_left_eq_self.1 hp
      refine iff_of_true rfl (Token.runsInto_delim _ _ ?_)
      simp_all
  all_goals
    rw [Prod.mk.injEq] at h
    obtain ⟨rfl, hp⟩ := h
    obtain rfl := List.append_left_eq_self.1 hp
    exact iff_of_true rfl rfl

end

end Lexer

end Restyle.Css
