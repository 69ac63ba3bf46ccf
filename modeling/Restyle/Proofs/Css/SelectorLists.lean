import Restyle.Proofs.Css.RoundTrip

/-!
# Selector lists, entry by entry

A selector list is read back from its text if and only if each of its entries is, cut off by the
commas between them, and the first one does not start like something else that can stand in the
place of a style rule: an at-rule, or a mark that is skipped (`Rule.selectorsReadBack_iff_entries`).
So a list that is read back can lose entries as long as the one that is then first starts a rule.
-/

namespace Restyle.Css

open Text Lexeme

/-- Whether a token ends an entry of a selector list. -/
def endsEntry (t : Token) : Bool :=
  endsSelectors t || t = .comma

/-- Whether an entry of a selector list is read back between commas. -/
def IsEntry (s : String) : Prop :=
  ∃ p, CutsInto s.toList p ∧ isRun endsEntry [] (p.map token) ∧ collapsed p = s ∧ s ≠ ""

/-- Whether a text in the place of a rule starts a style rule: it starts neither with an at-keyword
nor, outside of groups, with a mark that is skipped. -/
def startsStyle (top : Bool) (cs : List Char) : Bool :=
  !(['@'].isPrefixOf cs && Lexer.startsName cs.tail) &&
    !(top && ("<!--".toList.isPrefixOf cs || "-->".toList.isPrefixOf cs))

/-! ## Pieces between commas -/

theorem closersAfter_eq_some {closers closers' : List Token} {t : Token}
    (h : closersAfter closers t = some closers') :
    closers'.length = if t.opensGroup then closers.length + 1
      else if t.closesGroup then closers.length - 1 else closers.length := by
  cases t
  case rightParen | rightBracket =>
    cases closers with
    | nil => cases h
    | cons c closers =>
      simp only [closersAfter] at h
      split_ifs at h
      obtain rfl := Option.some.inj h
      rfl
  case leftBrace | rightBrace => cases h
  all_goals
    obtain rfl := Option.some.inj h
    rfl

/-- The first piece of a run goes up to its first comma outside all groups. -/
theorem commaPieces_cases {closers : List Token} {ls : List Lexeme}
    (h : isRun endsSelectors closers (ls.map token)) :
    (commaPieces closers.length ls = [ls] ∧ isRun endsEntry closers (ls.map token)) ∨
      ∃ p k rest, ls = p ++ k :: rest ∧ k.token = .comma ∧
        commaPieces closers.length ls = p :: commaPieces 0 rest ∧
          isRun endsEntry closers (p.map token) ∧ isRun endsSelectors [] (rest.map token) := by
  induction ls generalizing closers with
  | nil => exact .inl ⟨rfl, h⟩
  | cons l ls ih =>
    obtain ⟨hstop, closers', hafter, hls⟩ := isRun_cons_iff.1 h
    have hlength := closersAfter_eq_some hafter
    by_cases hcomma : closers' = [] ∧ l.token = .comma
    · obtain ⟨rfl, hcomma⟩ := hcomma
      have hclosers : closers = [] := by
        rw [hcomma] at hafter
        exact Option.some.inj hafter
      subst hclosers
      refine .inr ⟨[], l, ls, rfl, hcomma, ?_, rfl, hls⟩
      rw [commaPieces, ← hlength, if_pos ⟨rfl, hcomma⟩]
      rfl
    · have hnot : ¬(closers'.length = 0 ∧ l.token = .comma) := by
        rwa [List.length_eq_zero_iff]
      have hentry : (closers.isEmpty && endsEntry l.token) = false := by
        simp only [endsEntry, Bool.and_eq_false_iff, Bool.or_eq_false_iff,
          decide_eq_false_iff_not] at hstop ⊢
        rcases hstop with hstop | hstop
        · exact .inl hstop
        · by_cases hclosers : closers = []
          · refine .inr ⟨hstop, fun heq => hcomma ⟨?_, heq⟩⟩
            rw [heq, hclosers] at hafter
            exact (Option.some.inj hafter).symm
          · exact .inl (by simpa using hclosers)
      have hrun : ∀ {ts}, isRun endsEntry closers' ts →
          isRun endsEntry closers (l.token :: ts) :=
        fun hts => isRun_cons_iff.2 ⟨hentry, closers', hafter, hts⟩
      rw [commaPieces, ← hlength, if_neg hnot]
      rcases ih hls with ⟨hpieces, hentries⟩ | ⟨p, k, rest, rfl, hk, hpieces, hentries, hrest⟩
      · rw [hpieces]
        exact .inl ⟨rfl, hrun hentries⟩
      · rw [hpieces]
        exact .inr ⟨l :: p, k, rest, rfl, hk, rfl, hrun hentries, hrest⟩

theorem toList_selectorsCss_cons (s : String) {ss : List String} (h : ss ≠ []) :
    (selectorsCss (s :: ss)).toList = s.toList ++ ',' :: (selectorsCss ss).toList := by
  rw [selectorsCss]
  · simp
  · exact fun hnil => h hnil

/-! ## Lists and their entries -/

/-- The entries of a list that is read from its own text are read back. -/
theorem isEntry_of_selectors {ls : List Lexeme} {ss : List String}
    (hcut : CutsInto (selectorsCss ss).toList ls)
    (hrun : isRun endsSelectors [] (ls.map token)) (h : selectors? ls = some ss) :
    ∀ s ∈ ss, IsEntry s := by
  induction ss generalizing ls with
  | nil => simp
  | cons s ss ih =>
    have hpieces := selectors?_eq_some_iff.1 h
    rcases commaPieces_cases hrun with ⟨heq, hentry⟩ | ⟨p, k, rest, rfl, hk, heq, hentry, hrest⟩
    · rw [List.length_nil] at heq
      rw [heq] at hpieces
      cases hpieces with
      | cons hs hnil =>
        cases hnil
        intro s' hs'
        obtain rfl := List.mem_singleton.1 hs'
        exact ⟨ls, hcut, hentry, hs⟩
    · rw [List.length_nil] at heq
      rw [heq] at hpieces
      cases hpieces with
      | cons hs hss =>
        have hselectors := selectors?_eq_some_iff.2 hss
        have hne : ss ≠ [] := by
          rintro rfl
          exact commaPieces_ne_nil 0 rest (List.forall₂_nil_right_iff.1 hss)
        rw [toList_selectorsCss_cons s hne] at hcut
        obtain ⟨x, u, htext, hx, hu⟩ := hcut.split (d := ',') rfl hk
        have hfront := weight_collapsed_le false p
        have hback := weight_selectors_le false hu.spelled hselectors
        rw [hs.1, hx.written] at hfront
        rw [hu.written] at hback
        have hweight := congrArg (weight false) htext
        have hcounts : counts false ',' := rfl
        simp only [weight_append, weight_cons_of_counts hcounts] at hweight
        obtain ⟨rfl, rfl⟩ := Source.align hcounts hcounts htext (by omega)
        intro s' hs'
        rcases List.mem_cons.1 hs' with rfl | hs'
        · exact ⟨p, hx, hentry, hs⟩
        · exact ih hu hrest hselectors s' hs'

theorem isRun_of_entry {closers ts : List Token} (h : isRun endsEntry closers ts) :
    isRun endsSelectors closers ts := by
  induction ts generalizing closers with
  | nil => exact h
  | cons t ts ih =>
    obtain ⟨hstop, closers', hafter, h⟩ := isRun_cons_iff.1 h
    refine isRun_cons_iff.2 ⟨?_, closers', hafter, ih h⟩
    simp only [endsEntry, Bool.and_eq_false_iff, Bool.or_eq_false_iff] at hstop ⊢
    exact hstop.imp_right And.left

theorem isRun_append {stop : Token → Bool} {closers as bs : List Token} (h : isRun stop closers as)
    (h' : isRun stop [] bs) : isRun stop closers (as ++ bs) := by
  induction as generalizing closers with
  | nil => rwa [isRun_nil_iff.1 h]
  | cons t ts ih =>
    obtain ⟨hstop, closers', hafter, h⟩ := isRun_cons_iff.1 h
    exact isRun_cons_iff.2 ⟨hstop, closers', hafter, ih h⟩

/-- An entry is a part of the first piece. -/
theorem commaPieces_append {closers : List Token} {p tail q : List Lexeme} {qs : List (List Lexeme)}
    (h : isRun endsEntry closers (p.map token)) (htail : commaPieces 0 tail = q :: qs) :
    commaPieces closers.length (p ++ tail) = (p ++ q) :: qs := by
  induction p generalizing closers with
  | nil =>
    rw [isRun_nil_iff.1 h]
    exact htail
  | cons l p ih =>
    obtain ⟨hstop, closers', hafter, h⟩ := isRun_cons_iff.1 h
    have hnot : ¬(closers'.length = 0 ∧ l.token = .comma) := by
      rintro ⟨hnil, hcomma⟩
      rw [hcomma] at hafter hstop
      rw [← Option.some.inj hafter, List.length_eq_zero_iff] at hnil
      rw [hnil] at hstop
      cases hstop
    rw [List.cons_append, commaPieces, ← closersAfter_eq_some hafter, if_neg hnot, ih h]
    rfl

/-- Entries that are read back make up a list that is. -/
theorem exists_selectors {ss : List String} (hne : ss ≠ []) (h : ∀ s ∈ ss, IsEntry s) :
    ∃ ls, CutsInto (selectorsCss ss).toList ls ∧ isRun endsSelectors [] (ls.map token) ∧
      selectors? ls = some ss := by
  induction ss with
  | nil => exact absurd rfl hne
  | cons s ss ih =>
    obtain ⟨p, hcut, hentry, hs⟩ := h s List.mem_cons_self
    by_cases hss : ss = []
    · subst hss
      refine ⟨p, hcut, isRun_of_entry hentry, selectors?_eq_some_iff.2 ?_⟩
      have htail : commaPieces 0 [] = [] :: [] := rfl
      have hpieces := commaPieces_append hentry htail
      rw [List.append_nil, List.length_nil] at hpieces
      rw [hpieces]
      exact .cons hs .nil
    · obtain ⟨ls, hls, hrun, hselectors⟩ := ih hss fun x hx => h x (List.mem_cons_of_mem s hx)
      refine ⟨p ++ delimiter ',' 0 :: ls, ?_, ?_, selectors?_eq_some_iff.2 ?_⟩
      · rw [toList_selectorsCss_cons s hss]
        exact hcut.append hls rfl
      · rw [List.map_append]
        exact isRun_append (isRun_of_entry hentry) hrun
      · have htail : commaPieces 0 (delimiter ',' 0 :: ls) = [] :: commaPieces 0 ls := rfl
        have hpieces := commaPieces_append hentry htail
        rw [List.append_nil, List.length_nil] at hpieces
        rw [hpieces]
        exact .cons hs (selectors?_eq_some_iff.1 hselectors)

/-! ## The start of a rule -/

theorem startsStyle_append_comma (top : Bool) {s : List Char} (hs : s ≠ []) (u : List Char) :
    startsStyle top (s ++ ',' :: u) = startsStyle top s := by
  obtain ⟨c, r, rfl⟩ := List.exists_cons_of_ne_nil hs
  rw [startsStyle, startsStyle, isPrefixOf_append_stop (by decide),
    isPrefixOf_append_stop (by decide), isPrefixOf_append_stop (by decide), List.cons_append,
    List.tail_cons, List.tail_cons, Lexer.startsName_append_stop rfl]

section

variable {t : List Char} {l : Lexeme} {ls : List Lexeme}

/-- The first lexeme of a text that is cut off is read from its start. -/
theorem Lexeme.CutsInto.exists_head (h : CutsInto t (l :: ls)) :
    ∃ c r r' source, t = c :: r ∧ source ++ r' = t ∧ l.source.toList = source ∧
      Lexer.token c (r ++ ['\x7b']) = (l.token, r' ++ ['\x7b']) := by
  cases h with
  | @cons c r r' source t _ noComment reads whole split rest =>
    exact ⟨c, r, r', source, rfl, split, String.toList_ofList, reads⟩

theorem Lexeme.CutsInto.isAtKeyword_head (h : CutsInto t (l :: ls)) :
    l.token.isAtKeyword = (['@'].isPrefixOf t && Lexer.startsName t.tail) := by
  have hspelled := h.spelled l List.mem_cons_self
  obtain ⟨c, r, r', source, rfl, hsource, hl, hreads⟩ := h.exists_head
  rw [Bool.eq_iff_iff, Bool.and_eq_true, List.isPrefixOf_iff_prefix, List.tail_cons]
  constructor
  · intro hat
    obtain ⟨name, hname⟩ := Token.isAtKeyword_iff.1 hat
    rw [Spelled, hname, hl] at hspelled
    obtain ⟨n, rfl⟩ := hspelled
    obtain ⟨rfl, -⟩ := List.cons.inj hsource
    refine ⟨⟨r, rfl⟩, ?_⟩
    have htoken : Lexer.token '@' (r ++ ['\x7b']) = Lexer.atToken (r ++ ['\x7b']) := rfl
    rw [htoken, Lexer.atToken, Lexer.startsName_append_stop rfl, hname] at hreads
    split_ifs at hreads with hstarts
    · exact hstarts
    · cases (Prod.mk.inj hreads).1
  · rintro ⟨⟨r₁, hprefix⟩, hstarts⟩
    obtain ⟨rfl, -⟩ := List.cons.inj hprefix
    have htoken : Lexer.token '@' (r ++ ['\x7b']) = Lexer.atToken (r ++ ['\x7b']) := rfl
    rw [htoken, Lexer.atToken, Lexer.startsName_append_stop rfl, if_pos hstarts] at hreads
    rw [← (Prod.mk.inj hreads).1]
    rfl

/-- A token of one spelling is read where a text starts with that. -/
theorem Lexeme.CutsInto.isMark_head (h : CutsInto t (l :: ls)) {k : Token} {c : Char}
    {mark : List Char} (hshows : ∀ cs, k.Shows cs → cs = c :: mark)
    (hreads : ∀ r, (Lexer.token c (mark ++ r)).1 = k) :
    decide (l.token = k) = (c :: mark).isPrefixOf t := by
  have hspelled := h.spelled l List.mem_cons_self
  obtain ⟨c', r, r', source, rfl, hsource, hl, htoken⟩ := h.exists_head
  rw [Bool.eq_iff_iff, decide_eq_true_iff, List.isPrefixOf_iff_prefix]
  constructor
  · intro hk
    rw [Spelled, hk, hl] at hspelled
    exact ⟨r', by rw [← hsource, hshows _ hspelled]⟩
  · rintro ⟨r₁, hprefix⟩
    obtain ⟨rfl, rfl⟩ : c = c' ∧ mark ++ r₁ = r := List.cons.inj hprefix
    rw [List.append_assoc] at htoken
    exact (congrArg Prod.fst htoken).symm.trans (hreads _)

/-- Whether a text starts a style rule is seen from its first lexeme. -/
theorem Lexeme.CutsInto.startsStyle_iff (h : CutsInto t (l :: ls))
    (hspace : ∀ c ∈ t.head?, Text.isSpace c = false) (top : Bool) :
    startsStyle top t ↔ Rule.isSkipped top l = false ∧ ∀ name, l.token ≠ .atKeyword name := by
  have hwhite : l.isSpace = false := by
    rw [Bool.eq_false_iff, Lexeme.isSpace, Ne, decide_eq_true_eq]
    intro hwhite
    have hspelled := h.spelled l List.mem_cons_self
    obtain ⟨c, p, hl, -⟩ := h.exists_source l List.mem_cons_self
    rw [Spelled, hwhite, hl] at hspelled
    have hhead : t.head? = some c := by
      rw [← h.written, written_cons, hl]
      rfl
    have hc : Text.isSpace c := hspelled c List.mem_cons_self
    rw [hspace c hhead] at hc
    cases hc
  have hat : (∀ name, l.token ≠ .atKeyword name) ↔ l.token.isAtKeyword = false := by
    rw [Bool.eq_false_iff, Ne, Token.isAtKeyword_iff, not_exists]
  have hcdo : decide (l.token = .cdo) = "<!--".toList.isPrefixOf t :=
    h.isMark_head (fun _ h => h) fun _ => rfl
  have hcdc : decide (l.token = .cdc) = "-->".toList.isPrefixOf t :=
    h.isMark_head (fun _ h => h) fun _ => rfl
  rw [hat, h.isAtKeyword_head, Rule.isSkipped, hwhite, hcdo, hcdc, startsStyle, Bool.false_or,
    Bool.and_eq_true, Bool.not_eq_true', Bool.not_eq_true', and_comm]

end

theorem startsStyle_selectorsCss (top : Bool) {s : String} (hs : s ≠ "") (ss : List String) :
    startsStyle top (selectorsCss (s :: ss)).toList = startsStyle top s.toList ∧
      (selectorsCss (s :: ss)).toList.head? = s.toList.head? := by
  have hne : s.toList ≠ [] := fun hnil => hs (String.toList_eq_nil_iff.1 hnil)
  by_cases hss : ss = []
  · subst hss
    exact ⟨rfl, rfl⟩
  · rw [toList_selectorsCss_cons s hss]
    exact ⟨startsStyle_append_comma top hne _, List.head?_append_of_ne_nil _ hne⟩

/-- A selector list is read back if and only if its entries are and the first one starts a style
rule. -/
theorem Rule.selectorsReadBack_iff_entries {top : Bool} {ss : List String} :
    selectorsReadBack top ss ↔
      (∀ s ∈ ss, IsEntry s) ∧ ∃ s ∈ ss.head?, startsStyle top s.toList := by
  have hspace : ∀ s, IsEntry s → ∀ c ∈ s.toList.head?, Text.isSpace c = false := by
    rintro s ⟨p, -, -, rfl, -⟩ c hc
    rw [Bool.eq_false_iff]
    intro hspace
    have hblank := head?_trim_not_blank _ c hc
    rw [isBlank_of_isSpace hspace] at hblank
    cases hblank
  rw [selectorsReadBack_iff]
  constructor
  · rintro ⟨l, ls, hcut, hskip, hat, hrun, hselectors⟩
    have hentries := isEntry_of_selectors hcut hrun hselectors
    refine ⟨hentries, ?_⟩
    cases ss with
    | nil =>
      have hnil := List.forall₂_nil_right_iff.1 (selectors?_eq_some_iff.1 hselectors)
      exact absurd hnil (commaPieces_ne_nil 0 _)
    | cons s ss =>
      have hs := hentries s List.mem_cons_self
      obtain ⟨-, -, -, -, hne⟩ := id hs
      obtain ⟨hstarts, hhead⟩ := startsStyle_selectorsCss top hne ss
      refine ⟨s, rfl, ?_⟩
      rw [← hstarts]
      exact (hcut.startsStyle_iff (by rw [hhead]; exact hspace s hs) top).2 ⟨hskip, hat⟩
  · rintro ⟨hentries, s, hs, hstarts⟩
    obtain ⟨ss, rfl⟩ := List.head?_eq_some_iff.1 hs
    have hentry := hentries s List.mem_cons_self
    obtain ⟨-, -, -, -, hne⟩ := id hentry
    obtain ⟨ls, hcut, hrun, hselectors⟩ := exists_selectors (List.cons_ne_nil s ss) hentries
    obtain ⟨hstarts', hhead⟩ := startsStyle_selectorsCss top hne ss
    cases ls with
    | nil =>
      have hnil : [] = (selectorsCss (s :: ss)).toList := hcut.written
      rw [← hnil] at hhead
      exact absurd (String.toList_eq_nil_iff.1 (List.head?_eq_none_iff.1 hhead.symm)) hne
    | cons l ls =>
      obtain ⟨hskip, hat⟩ := (hcut.startsStyle_iff (by rw [hhead]; exact hspace s hentry) top).1
        (by rw [hstarts']; exact hstarts)
      exact ⟨l, ls, hcut, hskip, hat, hrun, hselectors⟩

end Restyle.Css
