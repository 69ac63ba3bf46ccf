import Restyle.Proofs.Css.Rewriting
import Restyle.Proofs.Css.WellFormed

/-!
# Runs that keep their text

What stands before a block is written with one space for each piece of white space, and trimmed.
That loses nothing of a run of lexemes if no comment cuts its white space and nothing but white
space stands at its ends (`Lexeme.isTidy`). Such a run is read back from what is written of it, as
a selector, as the selector of a step of an animation and as the part of an at-rule before its
block. The text that is kept of a block is only trimmed, and read back if nothing but white space
is trimmed off (`Lexeme.keepsEnds`).
-/

namespace Restyle.Text

theorem trimBlanks_eq_self {cs : List Char} (hhead : ∀ c ∈ cs.head?, isBlank c = false)
    (hlast : ∀ c ∈ cs.getLast?, isBlank c = false) : trimBlanks cs = cs := by
  have hdrop : ∀ {cs : List Char}, (∀ c ∈ cs.head?, isBlank c = false) →
      cs.dropWhile isBlank = cs := by
    intro cs h
    cases cs with
    | nil => rfl
    | cons c cs => exact List.dropWhile_cons_of_neg (by simp [h c rfl])
  rw [trimBlanks, hdrop hhead, hdrop (by rwa [List.head?_reverse]), List.reverse_reverse]

end Restyle.Text

namespace Restyle.Css

open Text Lexeme

/-! ## Trimming runs -/

namespace Lexeme

/-- Whether nothing but white space is trimmed off the text of a run: the lexemes at its ends, white
space aside, neither start nor end with a blank character. -/
def keepsEnds (ls : List Lexeme) : Bool :=
  !(trimSpace ls).head?.any (·.raw.toList.head?.any isBlank) &&
    !(trimSpace ls).getLast?.any (·.raw.toList.getLast?.any isBlank)

/-- Whether each piece of white space inside of a run is one lexeme: no comment cuts it. -/
def keepsSpaces (ls : List Lexeme) : Bool :=
  (trimSpace ls).IsChain fun l m => ¬(l.isSpace ∧ m.isSpace)

/-- Whether a run is read back from its text with one space for each piece of white space. -/
def isTidy (ls : List Lexeme) : Bool :=
  keepsEnds ls && keepsSpaces ls

/-- A text of lexemes is trimmed already if there is nothing to trim at its ends. -/
theorem trim_flatMap {ms : List Lexeme} {f : Lexeme → List Char} (hne : ∀ l ∈ ms, f l ≠ [])
    (hhead : ∀ l ∈ ms.head?, ∀ c ∈ (f l).head?, isBlank c = false)
    (hlast : ∀ l ∈ ms.getLast?, ∀ c ∈ (f l).getLast?, isBlank c = false) :
    trim (String.ofList (ms.flatMap f)) = String.ofList (ms.flatMap f) := by
  rw [trim, String.toList_ofList, trimBlanks_eq_self]
  · cases ms with
    | nil => simp
    | cons l ms =>
      rw [List.flatMap_cons, List.head?_append_of_ne_nil _ (hne l List.mem_cons_self)]
      exact hhead l rfl
  · induction ms using List.reverseRecOn with
    | nil => simp
    | append_singleton ms l _ =>
      rw [List.flatMap_append, List.flatMap_singleton,
        List.getLast?_append_of_ne_nil _ (hne l (by simp))]
      exact hlast l (by simp)

section

variable {ls back : List Lexeme} {f : Lexeme → List Char}

theorem IsCut.raw_ne_nil (h : IsCut ls back) : ∀ l ∈ ls, l.raw.toList ≠ [] := by
  intro l hl
  cases hspace : l.isSpace with
  | true => exact fun hnil => raw_ne_empty_of_isSpace hspace (String.toList_eq_nil_iff.1 hnil)
  | false =>
    obtain ⟨x, front, hcut⟩ := h.cut
    have hmem : l.plain ∈ (glued (front ++ (ls ++ back))).filter (!·.isSpace) := by
      rw [filter_glued]
      exact List.mem_map_of_mem (by simp [hl, hspace])
    obtain ⟨c, p, hsource, -⟩ := hcut.exists_source l.plain (List.mem_filter.1 hmem).1
    have hsource : l.source.toList = c :: p := hsource
    rw [raw_of_source (by simp [hspace]), hsource]
    exact List.cons_ne_nil c p

/-- Where nothing but white space is trimmed off, the text of what stands between it is left. -/
theorem IsCut.trim_flatMap (h : IsCut ls back) (hkeeps : keepsEnds ls)
    (hf : ∀ l, l.isSpace = false → f l = l.raw.toList) (hspace : ∀ l, l.isSpace → f l ≠ []) :
    trim (String.ofList ((trimSpace ls).flatMap f)) = String.ofList ((trimSpace ls).flatMap f) := by
  have htrimmed := isTrimmed_trimSpace ls
  simp only [keepsEnds, Bool.and_eq_true, Bool.not_eq_true', Option.any_eq_false] at hkeeps
  refine Lexeme.trim_flatMap (fun l hl => ?_) (fun l hl => ?_) fun l hl => ?_
  · cases hl' : l.isSpace with
    | true => exact hspace l hl'
    | false =>
      rw [hf l hl']
      exact h.raw_ne_nil l (mem_of_mem_trimSpace hl)
  · rw [hf l (htrimmed.head l hl)]
    simpa using hkeeps.1 l hl
  · obtain ⟨as, has⟩ := List.getLast?_eq_some_iff.1 hl
    rw [hf l (htrimmed.last as l has)]
    simpa using hkeeps.2 l hl

/-- The text of a run with one space for each piece of white space. -/
theorem IsCut.collapsed_eq (h : IsCut ls back) (hkeeps : keepsEnds ls) :
    (collapsed ls).toList = (trimSpace ls).flatMap collapse := by
  obtain ⟨before, after, hls, hbefore, hafter⟩ := exists_trimSpace ls
  have htrim := h.trim_flatMap hkeeps (f := collapse)
    (fun l hl => if_neg fun hwhite => by simp [isSpace, hwhite] at hl)
    fun l hl => by simp [collapse, of_decide_eq_true hl]
  have hcollapsed := collapsed_append hbefore hafter (trimSpace ls)
  rw [← hls] at hcollapsed
  rw [hcollapsed, Css.collapsed_eq, htrim, String.toList_ofList]

/-- The text of a run that is trimmed is that of what stands between the white space at its ends. -/
theorem IsCut.trim_joined (h : IsCut ls back) (hkeeps : keepsEnds ls) :
    trim (joined ls) = joined (Css.trimSpace ls) := by
  obtain ⟨before, after, hls, hbefore, hafter⟩ := exists_trimSpace ls
  have hblank : ∀ spaces : List Lexeme, (∀ s ∈ spaces, s ∈ ls) → (∀ s ∈ spaces, s.isSpace) →
      ∀ c ∈ (joined spaces).toList, isBlank c := by
    intro spaces hsub hspaces c hc
    rw [joined, String.toList_ofList] at hc
    obtain ⟨s, hs, hc⟩ := List.mem_flatMap.1 hc
    have hspelled : s.token.Shows s.source.toList := h.spelled s (hsub s hs)
    rw [of_decide_eq_true (hspaces s hs)] at hspelled
    rw [raw] at hc
    split_ifs at hc
    · obtain rfl : c = ' ' := by simpa using hc
      rfl
    · exact isBlank_of_isSpace (hspelled c hc)
  have htrim := h.trim_flatMap hkeeps (f := (·.raw.toList)) (fun _ _ => rfl) fun l hl hnil =>
    raw_ne_empty_of_isSpace hl (String.toList_eq_nil_iff.1 hnil)
  nth_rewrite 1 [hls]
  rw [joined_append, joined_append, trim, String.toList_append, String.toList_append,
    trimBlanks_append (hblank before (fun s hs => by rw [hls]; simp [hs]) hbefore)
      (hblank after (fun s hs => by rw [hls]; simp [hs]) hafter)]
  exact htrim

/-! ## One space for each piece of white space -/

theorem written_map_spaced (ls : List Lexeme) : written (ls.map spaced) = ls.flatMap collapse := by
  rw [written, List.flatMap_map]
  refine List.flatMap_congr fun l _ => ?_
  cases hl : l.isSpace with
  | true => rw [spaced, if_pos hl, collapse, if_pos (of_decide_eq_true hl)]; rfl
  | false =>
    rw [spaced_of_not_isSpace hl, collapse_of_ne (of_decide_eq_false hl)]
    rfl

theorem collapsed_map_spaced (ls : List Lexeme) : collapsed (ls.map spaced) = collapsed ls := by
  rw [Css.collapsed_eq, Css.collapsed_eq, List.flatMap_map]
  exact congrArg (fun cs => trim (String.ofList cs))
    (List.flatMap_congr fun l _ => collapse_spaced l)

theorem map_token_map_spaced (ls : List Lexeme) : (ls.map spaced).map token = ls.map token := by
  rw [List.map_map]
  exact List.map_congr_left fun l _ => token_spaced l

theorem collapsed_trimSpace (ls : List Lexeme) : collapsed (trimSpace ls) = collapsed ls := by
  obtain ⟨before, after, hls, hbefore, hafter⟩ := exists_trimSpace ls
  have hcollapsed := collapsed_append hbefore hafter (trimSpace ls)
  rwa [← hls, eq_comm] at hcollapsed

/-- A tidy run is cut from its text. -/
theorem IsCut.cutsInto_collapsed (h : IsCut ls back) (htidy : isTidy ls) :
    CutsInto (collapsed ls).toList ((trimSpace ls).map spaced) := by
  rw [isTidy, Bool.and_eq_true] at htidy
  obtain ⟨after, hafter, htrimmed⟩ := h.trimmed
  have hf : ∀ l ∈ glued (trimSpace ls), spaced l = l ∨
      l.isSpace ∧ spaced l = ⟨.whitespace, " ", 0⟩ := by
    intro l hl
    cases hspace : l.isSpace with
    | true => exact .inr ⟨rfl, if_pos hspace⟩
    | false =>
      have hmem : l ∈ (glued (trimSpace ls)).filter (!·.isSpace) := by simp [hl, hspace]
      rw [filter_glued] at hmem
      obtain ⟨m, -, rfl⟩ := List.mem_map.1 hmem
      exact .inl (spaced_of_not_isSpace hspace)
  have hcut := htrimmed.respaced (isTrimmed_trimSpace ls) hf .nil startsEnd_nil
  rwa [List.append_nil, List.append_nil, map_spaced_glued,
    merged_eq_map (of_decide_eq_true htidy.2), written_map_spaced, ← h.collapsed_eq htidy.1] at hcut

end

end Lexeme

/-! ## Selectors -/

theorem head?_trim_not_space (s : String) : ∀ c ∈ (trim s).toList.head?, isSpace c = false := by
  intro c hc
  rw [Bool.eq_false_iff]
  intro hspace
  have hblank := head?_trim_not_blank s c hc
  rw [isBlank_of_isSpace hspace] at hblank
  cases hblank

theorem isRun_trimSpace {stop : Token → Bool} (hstop : stop .whitespace = false)
    (closers : List Token) (ls : List Lexeme) :
    isRun stop closers ((trimSpace ls).map token) = isRun stop closers (ls.map token) := by
  rw [← isRun_filter hstop, filter_trimSpace, isRun_filter hstop]

theorem trimSpace_cons {l : Lexeme} (hl : l.isSpace = false) (ls : List Lexeme) :
    ∃ ls', trimSpace (l :: ls) = l :: ls' := by
  have hdrop : (l :: ls).dropWhile Lexeme.isSpace = l :: ls :=
    List.dropWhile_cons_of_neg (by simp [hl])
  obtain ⟨bs, hls, hbs⟩ := exists_dropSpaceEnd (l :: ls)
  rw [trimSpace, hdrop]
  cases hend : dropSpaceEnd (l :: ls) with
  | nil =>
    rw [hend, List.nil_append] at hls
    rw [hbs l (by rw [← hls]; simp)] at hl
    cases hl
  | cons m ms =>
    rw [hend, List.cons_append] at hls
    obtain ⟨rfl, -⟩ := List.cons.inj hls
    exact ⟨ms, rfl⟩

/-- What stands before the block of a step is read back if it is tidy. -/
theorem Keyframe.selectorReadsBack_of_isCut {head back : List Lexeme} (h : IsCut head back)
    (htidy : isTidy head) (isRun : Css.isRun endsSelectors [] (head.map token)) :
    selectorReadsBack (collapsed head) := by
  refine selectorReadsBack_iff.2 ⟨_, h.cutsInto_collapsed htidy, fun l hl => ?_, ?_, ?_⟩
  · rw [List.head?_map] at hl
    obtain ⟨m, hm, rfl⟩ := Option.map_eq_some_iff.1 hl
    rw [isSpace_spaced]
    exact (isTrimmed_trimSpace head).head m hm
  · rwa [map_token_map_spaced, isRun_trimSpace rfl]
  · rw [collapsed_map_spaced, collapsed_trimSpace]

/-- An entry of a selector list is read back if it is tidy. -/
theorem isEntry_of_isCut {p back : List Lexeme} (h : IsCut p back) (htidy : isTidy p)
    (isRun : Css.isRun endsEntry [] (p.map token)) (hne : collapsed p ≠ "") :
    IsEntry (collapsed p) := by
  refine ⟨_, h.cutsInto_collapsed htidy, ?_, ?_, hne⟩
  · rwa [map_token_map_spaced, isRun_trimSpace rfl]
  · rw [collapsed_map_spaced, collapsed_trimSpace]

/-- The entries of a selector list are read back if they are tidy. -/
theorem isEntry_of_selectors_of_isCut {ls back : List Lexeme} {ss : List String}
    (h : IsCut ls back) (hrun : isRun endsSelectors [] (ls.map token))
    (htidy : ∀ p ∈ commaPieces 0 ls, isTidy p) (hss : selectors? ls = some ss) :
    ∀ s ∈ ss, IsEntry s := by
  induction ss generalizing ls with
  | nil => simp
  | cons s ss ih =>
    have hpieces := selectors?_eq_some_iff.1 hss
    rcases commaPieces_cases hrun with ⟨heq, hentry⟩ | ⟨p, k, rest, rfl, hk, heq, hentry, hrest⟩ <;>
      rw [List.length_nil] at heq <;> rw [heq] at hpieces htidy
    · cases hpieces with
      | cons hs hnil =>
        cases hnil
        obtain ⟨rfl, hne⟩ := hs
        exact List.forall_mem_singleton.2
          (isEntry_of_isCut h (htidy ls List.mem_cons_self) hentry hne)
    · cases hpieces with
      | cons hs hothers =>
        obtain ⟨rfl, hne⟩ := hs
        have hends : EndsPiece (k :: rest ++ back) := endsPiece_cons (by rw [hk]; rfl) _
        have hfirst := h.left hends
        have hcut := h.right.tail
        rw [List.forall_mem_cons] at htidy ⊢
        exact ⟨isEntry_of_isCut hfirst htidy.1 hentry hne,
          ih hcut hrest htidy.2 (selectors?_eq_some_iff.2 hothers)⟩

/-- The first entry of a selector list goes on with what ends it. -/
theorem exists_first_entry {ls back : List Lexeme} (hrun : isRun endsSelectors [] (ls.map token))
    (hback : EndsPiece back) :
    ∃ p ps tail, commaPieces 0 ls = p :: ps ∧ ls = p ++ tail ∧ EndsPiece (tail ++ back) := by
  rcases commaPieces_cases hrun with ⟨heq, -⟩ | ⟨p, k, rest, rfl, hk, heq, -, -⟩
  · exact ⟨ls, [], [], heq, (List.append_nil ls).symm, hback⟩
  · exact ⟨p, _, k :: rest, heq, rfl, endsPiece_cons (by rw [hk]; rfl) _⟩

/-- A selector list is read back at the start of a rule if its entries are tidy. -/
theorem Rule.selectorsReadBack_of_isCut {top : Bool} {l : Lexeme} {head back : List Lexeme}
    {ss : List String} (h : IsCut (l :: head) back) (notSkipped : isSkipped top l = false)
    (notAt : ∀ name, l.token ≠ .atKeyword name)
    (isRun : Css.isRun endsSelectors [] ((l :: head).map token))
    (hasSelectors : selectors? (l :: head) = some ss)
    (htidy : ∀ p ∈ commaPieces 0 (l :: head), isTidy p) : selectorsReadBack top ss := by
  have hentries := isEntry_of_selectors_of_isCut h isRun htidy hasSelectors
  refine selectorsReadBack_iff_entries.2 ⟨hentries, ?_⟩
  obtain ⟨p, ps, tail, hpieces, hls, hends⟩ := exists_first_entry isRun h.ends
  have hall := selectors?_eq_some_iff.1 hasSelectors
  rw [hpieces] at hall htidy
  cases hall with
  | @cons _ s _ ss hs hothers =>
    obtain ⟨rfl, hne⟩ := hs
    cases p with
    | nil => exact absurd rfl hne
    | cons m p =>
      obtain ⟨rfl, rfl⟩ := List.cons.inj hls
      have hl : l.isSpace = false := (Bool.or_eq_false_iff.1 notSkipped).1
      have hfirst : IsCut (l :: p) (tail ++ back) := IsCut.left h hends
      have hcut := hfirst.cutsInto_collapsed (htidy _ List.mem_cons_self)
      obtain ⟨p', hp'⟩ := trimSpace_cons hl p
      rw [hp', List.map_cons] at hcut
      refine ⟨_, rfl, (hcut.startsStyle_iff (fun c hc => ?_) top).2 ⟨?_, fun name => ?_⟩⟩
      · exact head?_trim_not_space _ c hc
      · rwa [isSkipped, isSpace_spaced, token_spaced]
      · rw [token_spaced]
        exact notAt name

/-! ## At-rules -/

/-- An at-keyword is read before every text that does not go on with it, if no escape at its end
takes white space. -/
theorem Lexer.atToken_of_closed {p u y : List Char} {d : Char} {n : String}
    (h : atToken (p ++ d :: u) = (.atKeyword n, d :: u)) (hclosed : endsOpen p = false)
    (hy : continuesName y = false) : atToken (p ++ y) = (.atKeyword n, y) := by
  unfold atToken at h
  split_ifs at h with hstarts
  · rw [Prod.mk.injEq] at h
    obtain ⟨m, hname⟩ : ∃ m, name (p ++ d :: u) = (m, d :: u) := ⟨_, Prod.ext rfl h.2⟩
    have hread := (name_append_iff hname).2 ⟨hy, fun hopen => by simp [hclosed] at hopen⟩
    rw [hname] at h
    rw [atToken, if_pos ((startsName_append hname hy).trans hstarts), hread]
    exact congrArg (·, y) h.1
  · cases (Prod.mk.inj h).1

theorem Lexeme.CutsInto.eq_nil {ls : List Lexeme} (h : CutsInto [] ls) : ls = [] := by
  cases h
  rfl

/-- An at-keyword that was cut from a text is cut off by a space as well. -/
theorem Lexeme.CutsInto.atKeyword_space {x Y : List Char} {l : Lexeme} {ls ms : List Lexeme}
    {name : String} (h : CutsInto x (l :: ls)) (isAt : l.token = .atKeyword name)
    (hclosed : Lexer.endsOpen l.source.toList = false) (hY : CutsInto (' ' :: Y) ms) :
    CutsInto (l.source.toList ++ ' ' :: Y) (l :: ms) := by
  have hspelled : l.token.Shows l.source.toList := h.spelled l List.mem_cons_self
  obtain ⟨t, c, p, y, rfl, rfl, -, hreads, whole, -⟩ := h.exists_cons
  have ht : t = .atKeyword name := isAt
  subst ht
  obtain ⟨n, hn⟩ := hspelled
  rw [String.toList_ofList] at hn hclosed ⊢
  obtain ⟨rfl, -⟩ := List.cons.inj hn
  obtain ⟨d, u, hrest⟩ : ∃ d u, y ++ ['\x7b'] = d :: u := List.exists_cons_of_ne_nil (by simp)
  rw [hrest] at hreads
  rw [Lexer.endsOpen_cons (by decide)] at hclosed
  exact hY.cons_token (Lexer.skipComments_cons (by decide) _)
    (Lexer.atToken_of_closed hreads hclosed rfl) whole

/-- The part of an at-rule before its block is read back if its prelude is tidy. -/
theorem AtHead.readsBack_of_isCut {l : Lexeme} {head back : List Lexeme} {name : String}
    (h : IsCut (l :: head) back) (isAt : l.token = .atKeyword name)
    (hclosed : Lexer.endsOpen l.raw.toList = false)
    (isRun : Css.isRun endsAtHead [] (head.map token)) (htidy : isTidy head) :
    AtHead.readsBack ⟨Rule.atName l, collapsed head⟩ := by
  have hl : l.isSpace = false := by simp [Lexeme.isSpace, isAt]
  have hraw : l.raw = l.source := raw_of_source (by simp [hl])
  have hhead := h.tail.cutsInto_collapsed htidy
  have hcss := toList_css ⟨Rule.atName l, collapsed head⟩
  rw [← List.cons_append, ← h.named l List.mem_cons_self name isAt] at hcss
  by_cases hnil : collapsed head = ""
  · have hspaces : ∀ s ∈ head, s.isSpace := by
      obtain ⟨before, after, hsplit, hbefore, hafter⟩ := exists_trimSpace head
      rw [hnil, String.toList_empty] at hhead
      rw [List.map_eq_nil_iff.1 hhead.eq_nil] at hsplit
      rw [hsplit]
      exact List.forall_mem_append.2 ⟨hbefore, hafter⟩
    have hname := (h.head (h.ends.append_left hspaces)).verbatim (isTrimmed_singleton hl) .nil
      startsEnd_nil
    rw [joined_singleton, glued_cons hl] at hname
    refine readsBack_iff.2 ⟨l.plain, [], name, ?_, isAt, rfl, congrArg _ hnil⟩
    rw [hcss, if_pos hnil]
    exact hname
  · have hblank : Lexer.startsSpace ((collapsed head).toList ++ ['\x7b']) = false := by
      refine Lexer.not_startsSpace_iff.2 fun c hc => ?_
      rw [List.head?_append_of_ne_nil _ (mt String.toList_eq_nil_iff.1 hnil)] at hc
      exact head?_trim_not_space _ c hc
    have hspaces : ∀ s ∈ [' '], Text.isSpace s := List.forall_mem_singleton.2 rfl
    have hspace := hhead.cons_space hblank hspaces
    rw [List.nil_append] at hspace
    obtain ⟨x, front, hx⟩ := h.cut
    rw [List.cons_append, glued_append_cons hl] at hx
    rw [hraw] at hcss hclosed
    refine readsBack_iff.2 ⟨l.plain, ⟨.whitespace, String.ofList [' '], 0⟩ ::
      (trimSpace head).map spaced, name, ?_, isAt, ?_, ?_⟩
    · rw [hcss, if_neg hnil]
      exact (hx.after (glued front)).atKeyword_space isAt hclosed hspace
    · rw [← isRun_filter rfl, List.filter_cons_of_neg (by simp [Lexeme.isSpace]),
        isRun_filter rfl, map_token_map_spaced, isRun_trimSpace rfl]
      exact isRun
    · rw [collapsed_cons_space rfl, collapsed_map_spaced, collapsed_trimSpace]
      rfl

/-! ## Texts of blocks -/

namespace Declaration

variable {ls fs spaces : List Lexeme} {ds : List Declaration}

theorem Reads.append_left (h : Reads ls ds) (hspaces : ∀ s ∈ spaces, s.isSpace) :
    Reads (spaces ++ ls) ds := by
  induction spaces with
  | nil => exact h
  | cons s spaces ih =>
    rw [List.forall_mem_cons] at hspaces
    exact .skip (.inl (of_decide_eq_true hspaces.1)) (ih hspaces.2)

/-- Lexemes are read as declarations without their white space too. -/
theorem Reads.filter (h : Reads ls ds) : ∃ ds', Reads (ls.filter (!·.isSpace)) ds' := by
  induction h with
  | nil => exact ⟨[], .nil⟩
  | @skip l ls ds skipped _ ih =>
    obtain ⟨ds', ih⟩ := ih
    cases hl : l.isSpace with
    | true => exact ⟨ds', by rwa [List.filter_cons_of_neg (by simp [hl])]⟩
    | false =>
      rw [List.filter_cons_of_pos (by simp [hl])]
      exact ⟨ds', .skip skipped ih⟩
  | @declaration l c spaces value rest ds name isName areSpaces isColon isRun ends _ ih =>
    obtain ⟨ds', ih⟩ := ih
    have hl : l.isSpace = false := by simp [Lexeme.isSpace, isName]
    have hc : c.isSpace = false := by simp [Lexeme.isSpace, isColon]
    rw [List.filter_cons_of_pos (by simp [hl]), List.filter_append, filter_of_spaces areSpaces,
      List.filter_cons_of_pos (by simp [hc]), List.filter_append]
    refine ⟨_, .declaration isName (List.forall_mem_nil _) isColon ?_ ?_ ih⟩
    · rwa [isRun_filter rfl]
    · cases rest with
      | nil => simp
      | cons e rest =>
        have he := ends e rfl
        rw [List.filter_cons_of_pos (by simp [Lexeme.isSpace, he])]
        rintro _ ⟨⟩
        exact he

/-- Lexemes are read as declarations if they are without their white space. -/
theorem Reads.of_filter (h : Reads fs ds) (hls : ls.filter (!·.isSpace) = fs) :
    ∃ ds', Reads ls ds' := by
  induction h generalizing ls with
  | nil =>
    have hspaces : ∀ l ∈ ls, l.isSpace := by simpa using hls
    exact ⟨[], List.append_nil ls ▸ Reads.nil.append_left hspaces⟩
  | @skip l fs ds skipped _ ih =>
    obtain ⟨before, after, rfl, hbefore, -, hafter⟩ := List.filter_eq_cons_iff.1 hls
    obtain ⟨ds', hreads⟩ := ih hafter
    exact ⟨ds', .append_left (.skip skipped hreads) (by simpa using hbefore)⟩
  | @declaration l c spaces value rest ds name isName areSpaces isColon isRun ends _ ih =>
    obtain ⟨before, after, rfl, hbefore, -, hafter⟩ := List.filter_eq_cons_iff.1 hls
    obtain ⟨gap, more, rfl, hgap, hmore⟩ := List.filter_eq_append_iff.1 hafter
    obtain ⟨gap', all, rfl, hgap', -, hall⟩ := List.filter_eq_cons_iff.1 hmore
    obtain ⟨value', rest', rfl, rfl, hrest⟩ := List.filter_eq_append_iff.1 hall
    -- White space after the value belongs to the value.
    have hsplit := List.takeWhile_append_dropWhile (p := Lexeme.isSpace) (l := rest')
    have hend : ∀ s ∈ rest'.takeWhile Lexeme.isSpace, s.isSpace :=
      fun s hs => List.all_eq_true.1 List.all_takeWhile s hs
    have hhead := List.head?_dropWhile_not Lexeme.isSpace rest'
    rw [← hsplit, List.filter_append, filter_of_spaces hend, List.nil_append] at hrest
    obtain ⟨ds', hreads⟩ := ih hrest
    have hgaps : ∀ s ∈ gap ++ gap', s.isSpace := by
      refine List.forall_mem_append.2 ⟨fun s hs => ?_, by simpa using hgap'⟩
      by_contra hnot
      exact hnot (areSpaces s (hgap ▸ List.mem_filter.2 ⟨hs, by simpa using hnot⟩))
    have hvalue : Css.isRun endsValue []
        ((value' ++ rest'.takeWhile Lexeme.isSpace).map token) := by
      rwa [← isRun_filter rfl, List.filter_append, filter_of_spaces hend, List.append_nil]
    have hends : ∀ e ∈ (rest'.dropWhile Lexeme.isSpace).head?, e.token = .semicolon := by
      intro e he
      refine ends e ?_
      obtain ⟨es, hes⟩ := List.head?_eq_some_iff.1 he
      rw [hes] at hhead
      have he : e.isSpace = false := by simpa using hhead
      rw [← hrest, hes, List.filter_cons_of_pos (by simp [he])]
      rfl
    have hfront : ∀ s ∈ before, s.isSpace := by simpa using hbefore
    have hall := (Reads.declaration isName hgaps isColon hvalue hends hreads).append_left hfront
    rw [List.append_assoc value', hsplit, List.append_assoc gap] at hall
    exact ⟨_, hall⟩

end Declaration

/-- The text that is kept of a block is read back if nothing but white space is trimmed off. -/
theorem Rule.textReadsBack_of_isCut {name : String} {body back : List Lexeme}
    (h : IsCut body back) (hkeeps : keepsEnds body) (isBalanced : isBalanced 0 (body.map token))
    (notDescriptors : AtHead.isDescriptorName name → ∀ ds, ¬Declaration.Reads body ds) :
    textReadsBack name (trim (joined body)) := by
  obtain ⟨after, -, htrimmed⟩ := h.trimmed
  have hcut := htrimmed.verbatim (isTrimmed_trimSpace body) .nil startsEnd_nil
  rw [List.append_nil, List.append_nil, ← h.trim_joined hkeeps] at hcut
  have hfilter : (glued (trimSpace body)).filter (!·.isSpace) =
      (body.filter (!·.isSpace)).map plain := by
    rw [filter_glued, filter_trimSpace]
  refine textReadsBack_iff.2 ⟨_, hcut, ?_, ?_, fun hname ds hreads => ?_⟩
  · rw [← isBalanced_filter, hfilter, map_token_of_plain (map_plain_plain _), isBalanced_filter]
    exact isBalanced
  · have hends : keepsEnds (trimSpace body) := by
      rwa [keepsEnds, (isTrimmed_trimSpace body).trimSpace_eq]
    rw [joined_glued, htrimmed.trim_joined hends, (isTrimmed_trimSpace body).trimSpace_eq,
      h.trim_joined hkeeps]
  · obtain ⟨ds', hreads⟩ := hreads.filter
    rw [hfilter] at hreads
    obtain ⟨ds'', hreads⟩ := (hreads.of_plain (map_plain_plain _).symm).of_filter rfl
    exact notDescriptors hname ds'' hreads

end Restyle.Css
