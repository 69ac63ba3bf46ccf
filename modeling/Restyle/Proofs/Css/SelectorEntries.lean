import Mathlib.Data.List.Chain
import Restyle.Proofs.Css.EntryTokens
import Restyle.Proofs.Css.SelectorLists
import Restyle.Proofs.Css.StyleRules
import Restyle.Proofs.Selector.Balance

/-!
# Entries of style rules

The lexemes of a style rule are cut at their commas, and the text of each piece is read as a list of
selectors once more. Both splits count open groups, and `keepsTogether_flatMap` follows them side by
side. They part at an unquoted address only, and a text with one is no selector. Main statement:
each text of a rule is read as one selector, unless it is malformed (`Stylesheet.parse_selector`).
-/

namespace Restyle.Css

open Text Lexeme Selector Selector.EntryState

/-! ## Lexemes in a row -/

theorem Lexer.nameToken_ne_delim (s : List Char) (c : Char) : (nameToken s).1 ≠ .delim c := by
  unfold nameToken
  generalize name s = p
  obtain ⟨n, rest⟩ := p
  dsimp only
  split
  · split_ifs
    · split <;> simp
    · simp
  · simp

/-- A backslash is a token of its own before a line feed only. -/
theorem Lexer.lineFeed_of_backslash {c : Char} {r : List Char}
    (h : (token c r).1 = .delim '\\') : ∃ r', (token c r).2 = '\n' :: r' := by
  obtain ⟨p, hsource⟩ := exists_source c r
  have hshows := shows_token hsource (by simp [h]) (by simp [h])
  rw [h] at hshows
  obtain ⟨rfl, -⟩ := List.cons.inj hshows
  have htoken : token '\\' r =
      if escapes r then nameToken ('\\' :: r) else (.delim '\\', r) := rfl
  rw [htoken] at h ⊢
  split_ifs at h ⊢ with hescapes
  · exact absurd h (nameToken_ne_delim _ _)
  · unfold escapes at hescapes
    split at hescapes
    · exact ⟨_, rfl⟩
    · exact absurd rfl hescapes

namespace Lexeme

/-- What a lexeme is like if another one comes after it. -/
structure Precedes (l m : Lexeme) : Prop where
  /-- It is white space, or does what its token does to the state of a split. -/
  passes : l.token = .whitespace ∨ l.token.Passes l.source.toList
  /-- A backslash stands before white space. -/
  backslash : l.token = .delim '\\' → m.token = .whitespace

theorem precedes_of_token {l m : Lexeme} {c : Char} {r : List Char}
    (htoken : l.token = (Lexer.token c r).1)
    (hsource : l.source.toList ++ (Lexer.token c r).2 = c :: r) (hrest : (Lexer.token c r).2 ≠ [])
    (hnext : ∀ t, (Lexer.token c r).2 = '\n' :: t → m.token = .whitespace) : Precedes l m := by
  refine ⟨.inr ?_, fun hback => ?_⟩
  · rw [htoken]
    exact Lexer.passes_token hsource hrest
  · rw [htoken] at hback
    obtain ⟨t, ht⟩ := Lexer.lineFeed_of_backslash hback
    exact hnext t ht

theorem head?_scanFrom_lineFeed (inWord : Bool) (start : Nat) (t : List Char) :
    ∀ m ∈ (scanFrom inWord start ('\n' :: t)).head?, m.token = .whitespace := by
  have hskip : Lexer.skipComments ([] ++ '\n' :: t) = '\n' :: t :=
    Lexer.skipComments_cons (by decide) t
  obtain ⟨p, hsource⟩ := Lexer.exists_source '\n' t
  have hscan := @scanFrom_eq_of_skipComments inWord start _ _ _ _ hskip hsource
  rw [List.nil_append] at hscan
  rw [hscan]
  rintro m ⟨⟩
  rfl

/-- In a scan, each lexeme precedes the next one. -/
theorem isChain_scanFrom (inWord : Bool) (start : Nat) (s : List Char) :
    (scanFrom inWord start s).IsChain Precedes := by
  induction hn : s.length using Nat.strong_induction_on generalizing inWord start s with
  | _ n ih =>
    subst hn
    cases hs : Lexer.skipComments s with
    | nil =>
      rw [scanFrom_of_skipComments_eq_nil hs]
      exact .nil
    | cons c r =>
      obtain ⟨comments, source, p, start₁, start₂, hcomments, hsource, -, -, hscan⟩ :=
        @scanFrom_step inWord start _ _ _ hs
      have hlt := Lexer.length_token_lt hs
      have hrest := ih _ hlt (Lexer.token c r).1.isWord start₂ (Lexer.token c r).2 rfl
      have hread : (⟨(Lexer.token c r).1, String.ofList source, start₁⟩ ::
          scanFrom (Lexer.token c r).1.isWord start₂ (Lexer.token c r).2).IsChain Precedes := by
        refine List.isChain_cons.2 ⟨fun m hm => ?_, hrest⟩
        refine precedes_of_token rfl (by rwa [String.toList_ofList]) (fun hnil => ?_) fun t ht => ?_
        · rw [hnil, scanFrom_of_skipComments_eq_nil (by rw [Lexer.skipComments.eq_2]; simp)] at hm
          cases hm
        · rw [ht] at hm
          exact head?_scanFrom_lineFeed _ _ t m hm
      rw [hscan, gap]
      split_ifs
      · refine List.isChain_cons.2 ⟨fun m _ => ⟨.inl rfl, fun h => ?_⟩, hread⟩
        cases h
      · exact hread

/-! ## Both splits side by side -/

/-- The text of a lexeme, white space collapsed. -/
def collapse (l : Lexeme) : List Char :=
  if l.token = .whitespace then [' '] else l.raw.toList

theorem collapse_of_ne {l : Lexeme} (h : l.token ≠ .whitespace) : l.collapse = l.source.toList := by
  rw [collapse, if_neg h, raw, if_neg fun hempty => h hempty.1]

section

variable {closers closers' : List Token} {l m e : Lexeme} {ls p : List Lexeme} {isEscaped : Bool}

/-- A lexeme that is no address leaves as many groups open in the text as among the lexemes, and
white space comes after it if it ends in an escape. -/
theorem within_collapse (hprecedes : Precedes l m) (hspelled : l.Spelled)
    (hurl : ∀ v, l.token ≠ .url v) (hstop : (closers.isEmpty && endsEntry l.token) = false)
    (hafter : closersAfter closers l.token = some closers')
    (hescaped : isEscaped → l.token = .whitespace) :
    ∃ isEscaped', within ⟨closers.length, none, isEscaped⟩ l.collapse =
        some ⟨closers'.length, none, isEscaped'⟩ ∧
      (isEscaped' → m.token = .whitespace) := by
  by_cases hwhite : l.token = .whitespace
  · rw [hwhite] at hafter
    obtain rfl := Option.some.inj hafter
    refine ⟨false, ?_, by simp⟩
    rw [collapse, if_pos hwhite]
    cases isEscaped <;> simp [within, separates, next]
  · obtain rfl : isEscaped = false := by
      rw [Bool.eq_false_iff]
      exact fun h => hwhite (hescaped h)
    rw [collapse_of_ne hwhite]
    by_cases hcomma : l.token = .comma
    · have hopen : closers ≠ [] := by
        rintro rfl
        simp [hcomma, endsEntry] at hstop
      rw [hcomma] at hafter
      obtain rfl := Option.some.inj hafter
      refine ⟨false, ?_, by simp⟩
      rw [hspelled.toList_source hcomma (c := ',') rfl]
      simp [within, separates, next, hopen]
    by_cases hback : l.token = .delim '\\'
    · rw [Spelled, hback] at hspelled
      rw [hback] at hafter
      obtain rfl := Option.some.inj hafter
      refine ⟨true, ?_, fun _ => hprecedes.backslash hback⟩
      rw [show l.source.toList = ['\\'] from hspelled]
      simp [within, separates, next]
    · have hbroken := hspelled.not_broken
      simp only [isBroken, Bool.or_eq_false_iff, decide_eq_false_iff_not] at hbroken
      refine ⟨false, ?_, by simp⟩
      rw [closersAfter_eq_some hafter]
      exact (hprecedes.passes.resolve_left hwhite).within hurl hcomma hback hbroken.1 hbroken.2 _

/-- The text of a piece between commas keeps together, with as many groups open before it as among
the lexemes. -/
theorem keepsTogether_flatMap (hchain : (ls ++ [e]).IsChain Precedes)
    (hspelled : ∀ l ∈ ls, l.Spelled) (hrun : isRun endsEntry closers (ls.map token))
    (hescaped : isEscaped → ∀ m ∈ (ls ++ [e]).head?, m.token = .whitespace)
    (before : Option Char) :
    KeepsTogether before ⟨closers.length, none, isEscaped⟩ (ls.flatMap collapse) := by
  induction ls generalizing closers isEscaped before with
  | nil => exact .inl rfl
  | cons l ls ih =>
    rw [List.cons_append, List.isChain_cons] at hchain
    rw [List.forall_mem_cons] at hspelled
    obtain ⟨hstop, closers', hafter, hrun⟩ := isRun_cons_iff.1 hrun
    have hescaped : isEscaped → l.token = .whitespace := fun h => hescaped h l rfl
    obtain ⟨m, hm⟩ : ∃ m, (ls ++ [e]).head? = some m := by
      cases ls <;> exact ⟨_, rfl⟩
    have hprecedes := hchain.1 m hm
    rw [List.flatMap_cons]
    by_cases hurl : ∃ v, l.token = .url v
    -- The second split sees what stands in an address, so nothing is known behind its parenthesis.
    · obtain ⟨v, hv⟩ := hurl
      have hwhite : l.token ≠ .whitespace := by simp [hv]
      obtain rfl : isEscaped = false := by
        rw [Bool.eq_false_iff]
        exact fun h => hwhite (hescaped h)
      have hpasses := hprecedes.passes.resolve_left hwhite
      rw [hv] at hpasses
      obtain ⟨front, c, y, hsource, hfront, hlast, hc⟩ := hpasses
      refine .inr ⟨front, y ++ ls.flatMap collapse, closers.length, ?_, hfront _, by
        simp [hlast, hc]⟩
      rw [collapse_of_ne hwhite, hsource, List.append_assoc, List.cons_append]
    · obtain ⟨isEscaped', hwithin, hnext⟩ := within_collapse hprecedes hspelled.1
        (not_exists.1 hurl) hstop hafter hescaped
      refine .append hwithin (ih hchain.2 hspelled.2 hrun (fun h x hx => ?_) _)
      obtain rfl : m = x := Option.some.inj (hm.symm.trans hx)
      exact hnext h

/-- A piece between commas closes its groups, and a lexeme comes after it. -/
theorem exists_of_mem_commaPieces (hrun : isRun endsSelectors [] (ls.map token)) (e : Lexeme)
    (hp : p ∈ commaPieces 0 ls) :
    isRun endsEntry [] (p.map token) ∧ ∃ m, p ++ [m] <:+: ls ++ [e] := by
  induction hn : ls.length using Nat.strong_induction_on generalizing ls with
  | _ n ih =>
    subst hn
    rcases commaPieces_cases hrun with ⟨heq, hentry⟩ | ⟨q, k, rest, rfl, -, heq, hentry, hrest⟩ <;>
      rw [List.length_nil] at heq <;> rw [heq] at hp
    · obtain rfl := List.mem_singleton.1 hp
      exact ⟨hentry, e, List.infix_refl _⟩
    · rcases List.mem_cons.1 hp with rfl | hp
      · exact ⟨hentry, k, [], rest ++ [e], by simp⟩
      · obtain ⟨hentry, m, hm⟩ := ih rest.length (by simp; omega) hrest hp rfl
        refine ⟨hentry, m, hm.trans ⟨q ++ [k], [], by simp⟩⟩

/-- The text of a piece between commas is read as one selector, unless it is malformed. -/
theorem parse_collapsed (hrun : isRun endsSelectors [] (ls.map token))
    (hchain : (ls ++ [e]).IsChain Precedes) (hspelled : ∀ l ∈ ls, l.Spelled)
    (hp : p ∈ commaPieces 0 ls) :
    (∃ err, Selector.parse (collapsed p) = .error err ∧
        ∀ c, Selector.complex (collapsed p).toList ≠ .ok c) ∨
      ∃ c, Selector.parse (collapsed p) = .ok [c] ∧
        Selector.complex (collapsed p).toList = .ok c := by
  obtain ⟨hentry, m, hm⟩ := exists_of_mem_commaPieces hrun e hp
  have hwithin : ∀ l ∈ p, l.Spelled := fun l hl =>
    hspelled l ((infix_of_mem_commaPieces hp).subset hl)
  have hpart := List.IsChain.infix hchain hm
  have hkeeps : KeepsTogether none (level 0) (p.flatMap collapse) :=
    keepsTogether_flatMap hpart hwithin hentry (by simp) none
  refine parse_of_keepsTogether ?_
  rw [collapsed, trim, String.toList_ofList, String.toList_ofList]
  exact hkeeps.trimBlanks

end

end Lexeme

/-! ## Rules -/

/-- The selectors of a style rule are read from lexemes in front of a brace. -/
theorem Rule.Reads.exists_selectors {top : Bool} {ls : List Lexeme} {rs : List Rule}
    (h : Reads top ls rs) {r : StyleRule} (hr : r ∈ stylesAll rs) :
    ∃ head b, head ++ [b] <:+: ls ∧ isRun endsSelectors [] (head.map token) ∧
      selectors? head = some r.selectors := by
  induction h with
  | nil => simp [stylesAll] at hr
  | skip _ _ ih =>
    obtain ⟨head, b, hwithin, hhead⟩ := ih hr
    exact ⟨head, b, hwithin.trans (List.suffix_cons _ _).isInfix, hhead⟩
  | @style _ l b c head body rest _ _ _ _ _ isRun hasSelectors _ _ _ _ _ ih =>
    obtain ⟨hself, -, hrest⟩ := infix_block (l :: head) b body c rest
    rw [stylesAll, styles, List.mem_append, List.mem_singleton] at hr
    rcases hr with rfl | hr
    · exact ⟨l :: head, b, hself, isRun, hasSelectors⟩
    · obtain ⟨head', b', hwithin, hhead⟩ := ih hr
      exact ⟨head', b', hwithin.trans hrest, hhead⟩
  | last => simp [stylesAll, styles] at hr
  | @statement _ l e head rest _ _ _ _ _ _ ih =>
    obtain ⟨head', b', hwithin, hhead⟩ := ih (by simpa [stylesAll, styles] using hr)
    exact ⟨head', b', hwithin.trans ⟨l :: (head ++ [e]), [], by simp⟩, hhead⟩
  | @group _ l b c head body rest _ _ _ _ _ _ _ _ _ _ _ ihInside ih =>
    obtain ⟨-, hbody, hrest⟩ := infix_block (l :: head) b body c rest
    rw [stylesAll, styles, List.mem_append] at hr
    rcases hr with hr | hr
    · obtain ⟨head', b', hwithin, hhead⟩ := ihInside hr
      exact ⟨head', b', hwithin.trans hbody, hhead⟩
    · obtain ⟨head', b', hwithin, hhead⟩ := ih hr
      exact ⟨head', b', hwithin.trans hrest, hhead⟩
  | @block _ l b c head body rest _ rule _ _ _ _ _ _ _ inside _ ih =>
    obtain ⟨-, -, hrest⟩ := infix_block (l :: head) b body c rest
    have hnone : styles rule = [] := by
      cases inside <;> simp [styles]
    rw [stylesAll, hnone, List.nil_append] at hr
    obtain ⟨head', b', hwithin, hhead⟩ := ih hr
    exact ⟨head', b', hwithin.trans hrest, hhead⟩

/-- Each selector of a rule is read as one selector, unless it is malformed as a whole: what is one
entry among the lexemes of a style sheet is never a list once it is text. -/
theorem Stylesheet.parse_selector {source : String} {sheet : Stylesheet}
    (h : parse source = .ok sheet) {r : StyleRule} (hr : r ∈ Rule.stylesAll sheet.rules)
    {s : String} (hs : s ∈ r.selectors) :
    (∃ e, Selector.parse s = .error e ∧ ∀ c, Selector.complex s.toList ≠ .ok c) ∨
      ∃ c, Selector.parse s = .ok [c] ∧ Selector.complex s.toList = .ok c := by
  obtain ⟨hbroken, hreads⟩ := parse_eq_ok_iff.1 h
  obtain ⟨head, b, hwithin, hrun, hselectors⟩ := hreads.exists_selectors hr
  have hchain := List.IsChain.infix (isChain_scanFrom _ _ _) hwithin
  have hspelled : ∀ l ∈ head, l.Spelled := fun l hl =>
    spelled_scanFrom hbroken l (hwithin.subset (List.mem_append_left _ hl))
  have htexts : (commaPieces 0 head).map collapsed = r.selectors := by
    have hall := List.forall₂_map_left_iff.2 (forall₂_selectors hselectors)
    rwa [List.forall₂_eq_eq_eq] at hall
  rw [← htexts] at hs
  obtain ⟨p, hp, rfl⟩ := List.mem_map.1 hs
  exact parse_collapsed hrun hchain hspelled hp

/-- A comma inside of a negation is one that neither split cuts at. -/
theorem Stylesheet.parse_selector_negation :
    parse ":not(a,b),c\x7b\x7d" = .ok ⟨[.style ⟨[":not(a,b)", "c"], []⟩]⟩ ∧
      ((∃ e, Selector.parse ":not(a,b)" = .error e ∧
          ∀ c, Selector.complex ":not(a,b)".toList ≠ .ok c) ∨
        ∃ c, Selector.parse ":not(a,b)" = .ok [c] ∧
          Selector.complex ":not(a,b)".toList = .ok c) := by
  have hsheet : parse ":not(a,b),c\x7b\x7d" = .ok ⟨[.style ⟨[":not(a,b)", "c"], []⟩]⟩ := by
    decide +kernel
  exact ⟨hsheet, parse_selector hsheet (r := ⟨[":not(a,b)", "c"], []⟩) List.mem_cons_self
    List.mem_cons_self⟩

end Restyle.Css
