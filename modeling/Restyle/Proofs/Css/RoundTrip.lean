import Restyle.Proofs.Css.ReadsBack
import Restyle.Proofs.Css.Weighing

/-!
# Which style sheets are read back

A style sheet is read back from its text if and only if its pieces are
(`Stylesheet.parse_css_eq_ok_iff`). The text of what is read weighs no more than what it was read
from, so a text that is read as the tree it was printed from loses nothing, and its delimiters are
where the printer put them.
-/

namespace Restyle.Css

open Text Lexeme

/-! ## Texts and their lexemes -/

/-- Whether lexemes are read from the whole of a text, at the end or before a delimiter. -/
def Source (t : List Char) (ls : List Lexeme) : Prop :=
  (∃ inWord start, scanFrom inWord start t = ls) ∨ CutsInto t (ls.map plain)

namespace Source

variable {t X Y V : List Char} {as bs body rest ls : List Lexeme} {l b r e : Lexeme}

theorem written_eq (h : Source t ls) :
    (written ls = t ∧ ∀ l ∈ ls, l.source ≠ "") ∨
      ∀ semicolons, weight semicolons (written ls) < weight semicolons t := by
  rcases h with ⟨inWord, start, rfl⟩ | h
  · exact written_scanFrom inWord start t
  · refine .inl ⟨h.written_of_plain, fun l hl hempty => ?_⟩
    obtain ⟨c, p, hsource, -⟩ := h.exists_source l.plain (List.mem_map_of_mem hl)
    have hnil : l.plain.source.toList = [] := by
      rw [plain, hempty]
      rfl
    rw [hnil] at hsource
    cases hsource

theorem weight_le (h : Source t ls) (semicolons : Bool) :
    weight semicolons (written ls) ≤ weight semicolons t := by
  rcases h.written_eq with ⟨hwritten, -⟩ | hlost
  · rw [hwritten]
  · exact Nat.le_of_lt (hlost semicolons)

theorem split (h : Source t (as ++ l :: bs)) {d : Char} (hd : isDelimiter d)
    (hl : l.token = (Lexer.token d []).1) (has : ∀ a ∈ as, a.Spelled) :
    ∃ x u, t = x ++ d :: u ∧ Source u bs ∧
      (CutsInto x (as.map plain) ∨
        ∀ semicolons, weight semicolons (written as) < weight semicolons x) := by
  rcases h with ⟨inWord, start, hscan⟩ | h
  · obtain ⟨x, u, start', ht, -, hbs, hcut⟩ :=
      split_scanFrom hd hscan hl fun a ha => (has a ha).not_broken
    exact ⟨x, u, ht, .inl ⟨false, start', hbs.symm⟩, hcut⟩
  · rw [List.map_append, List.map_cons] at h
    obtain ⟨x, u, ht, hx, hu⟩ := h.split hd hl
    exact ⟨x, u, ht, .inr hu, .inl hx⟩

/-- Two ways to split a text at characters that count agree if the parts in front weigh the
same. -/
theorem align {semicolons : Bool} {as bs s t : List Char} {c d : Char} (hc : counts semicolons c)
    (hd : counts semicolons d) (h : as ++ c :: s = bs ++ d :: t)
    (hweight : weight semicolons as = weight semicolons bs) : as = bs ∧ s = t := by
  rcases List.append_eq_append_iff.1 h with ⟨es, rfl, hes⟩ | ⟨es, rfl, hes⟩
  · cases es with
    | nil => exact ⟨(List.append_nil as).symm, (List.cons.inj hes).2⟩
    | cons e es =>
      rw [← (List.cons.inj hes).1, weight_append, weight_cons_of_counts hc] at hweight
      omega
  · cases es with
    | nil => exact ⟨List.append_nil bs, (List.cons.inj hes).2.symm⟩
    | cons e es =>
      rw [← (List.cons.inj hes).1, weight_append, weight_cons_of_counts hd] at hweight
      omega

/-- A text that weighs no less than its lexemes is cut off at the braces of a block. -/
theorem block (head : List Lexeme) (h : Source t (head ++ b :: (body ++ r :: rest)))
    (hs : ∀ l ∈ head ++ b :: (body ++ r :: rest), l.Spelled) (opens : b.token = .leftBrace)
    (closes : r.token = .rightBrace) (ht : t = X ++ '\x7b' :: (Y ++ '\x7d' :: V))
    (hX : weight false X ≤ weight false (written head))
    (hY : weight false Y ≤ weight false (written body))
    (hV : weight false V ≤ weight false (written rest)) :
    CutsInto X (head.map plain) ∧ CutsInto Y (body.map plain) ∧ Source V rest := by
  obtain ⟨x, u, rfl, hu, hx⟩ := h.split (d := '\x7b') rfl opens fun l hl => hs l (by simp [hl])
  obtain ⟨y, v, rfl, hv, hy⟩ := hu.split (d := '\x7d') rfl closes fun l hl => hs l (by simp [hl])
  have hle := hv.weight_le false
  have hweight := congrArg (weight false) ht
  have hopen : counts false '\x7b' := rfl
  have hclose : counts false '\x7d' := rfl
  simp only [weight_append, weight_cons_of_counts hopen, weight_cons_of_counts hclose] at hweight
  have hxle := weight_le_of_cutsInto_or_lt hx false
  have hyle := weight_le_of_cutsInto_or_lt hy false
  obtain ⟨rfl, hinside⟩ := align hopen hopen ht (by omega)
  obtain ⟨rfl, rfl⟩ := align hclose hclose hinside (by omega)
  refine ⟨hx.resolve_right fun hlost => ?_, hy.resolve_right fun hlost => ?_, hv⟩
  · have := hlost false
    omega
  · have := hlost false
    omega

/-- A text that weighs no less than its lexemes is cut off at the semicolon of a statement. -/
theorem statement (head : List Lexeme) (h : Source t (head ++ e :: rest))
    (hs : ∀ l ∈ head, l.Spelled)
    (ends : e.token = .semicolon) (ht : t = X ++ ';' :: V)
    (hX : weight false X ≤ weight false (written head))
    (hcount : X.count ';' = (written head).count ';')
    (hV : weight false V ≤ weight false (written rest)) :
    CutsInto X (head.map plain) ∧ Source V rest := by
  obtain ⟨x, u, rfl, hu, hx⟩ := h.split (d := ';') rfl ends hs
  have hle := hu.weight_le false
  have hweight := congrArg (weight false) ht
  have hsemicolon : ∀ cs, weight false (';' :: cs) = weight false cs := fun cs => by
    rw [weight_cons]
    exact Nat.zero_add _
  simp only [weight_append, hsemicolon] at hweight
  have hx := hx.resolve_right fun hlost => by
    have := hlost false
    omega
  rw [hx.written_of_plain] at hX hcount
  have hcounts : counts true ';' := rfl
  obtain ⟨rfl, rfl⟩ := align hcounts hcounts ht (by
    rw [weight_true, weight_true]
    omega)
  exact ⟨hx, hu⟩

end Source

/-! ## White space in front -/

/-- White space that does not count starts with a space. -/
theorem exists_of_weight_zero {l : Lexeme} (h : l.Spelled) (hsource : l.source ≠ "")
    (hspace : l.token = .whitespace) (hweight : weight false l.source.toList = 0) :
    ∃ p, l.source.toList = ' ' :: p := by
  rw [Spelled, hspace] at h
  cases hl : l.source.toList with
  | nil => exact absurd (String.toList_eq_nil_iff.1 hl) hsource
  | cons c p =>
    rw [hl] at h hweight
    have hc : isSpace c := h c List.mem_cons_self
    by_cases hcounts : counts false c
    · rw [weight_cons_of_counts hcounts] at hweight
      omega
    · simp only [counts, Bool.false_or, Bool.and_eq_true, bne_iff_ne, ne_eq, not_and,
        not_not] at hcounts
      by_cases hblank : c = ' '
      · exact ⟨p, by rw [hblank]⟩
      · rw [hcounts hblank] at hc
        cases hc

theorem head?_append_ne {c : Char} {x y : List Char} (hx : x.head? ≠ some c)
    (hy : y.head? ≠ some c) : (x ++ y).head? ≠ some c := by
  cases x with
  | nil => exact hy
  | cons d x => exact hx

/-! ## Declarations -/

namespace Declaration

theorem head?_css (d : Declaration) (hname : d.name.toList.head? ≠ some ' ') :
    d.css.toList.head? ≠ some ' ' := by
  rw [css, String.append_assoc, String.append_assoc, String.toList_append]
  refine head?_append_ne hname ?_
  simp

theorem Reads.head?_cssAll {ls : List Lexeme} {ds : List Declaration} (h : Reads ls ds)
    (hs : ∀ l ∈ ls, l.token ≠ .whitespace → l.source.toList.head? ≠ some ' ') :
    (cssAll ds).toList.head? ≠ some ' ' := by
  induction h with
  | nil => simp [cssAll]
  | @skip l ls ds skipped rest ih => exact ih fun x hx => hs x (List.mem_cons_of_mem l hx)
  | @declaration l c spaces value rest ds name isName areSpaces isColon isRun ends others ih =>
    have hl := hs l List.mem_cons_self (by simp [isName])
    have hraw : l.raw = l.source := by rw [raw, if_neg (by simp [isName])]
    have hcss := head?_css (ofLexemes l.raw value) (by rw [← hraw] at hl; exact hl)
    cases ds with
    | nil => exact hcss
    | cons d ds =>
      rw [cssAll, String.append_assoc, String.toList_append]
      · refine head?_append_ne hcss ?_
        simp
      · simp

/-- Lexemes that are cut from the text of declarations have nothing to skip in front of them. -/
theorem Reads.not_skipped {l : Lexeme} {ls : List Lexeme} {ds : List Declaration} (h : Reads ls ds)
    (hs : ∀ x ∈ l :: ls, x.Spelled) (skipped : l.token = .whitespace ∨ l.token = .semicolon)
    (hcut : CutsInto (cssAll ds).toList ((l :: ls).map plain)) : False := by
  have hle := (h.weight_le (fun x hx => hs x (List.mem_cons_of_mem l hx)) true).1
  have hwritten := hcut.written_of_plain
  rw [written_cons] at hwritten
  have hweight := congrArg (weight true) hwritten
  rw [weight_append] at hweight
  have hzero : weight true l.source.toList = 0 := by omega
  have hspelled := hs l List.mem_cons_self
  have hsource : ∀ x ∈ l :: ls, ∃ c p, x.source.toList = c :: p ∧
      (x.token ≠ .whitespace → c ≠ ' ') := by
    intro x hx
    obtain ⟨c, p, hx', hc⟩ := hcut.exists_source x.plain (List.mem_map_of_mem hx)
    exact ⟨c, p, hx', hc⟩
  rcases skipped with hspace | hsemicolon
  · rw [weight_true] at hzero
    have hne : l.source ≠ "" := by
      obtain ⟨c, p, hl, -⟩ := hsource l List.mem_cons_self
      intro hempty
      rw [hempty] at hl
      cases hl
    obtain ⟨q, hq⟩ := exists_of_weight_zero hspelled hne hspace (by omega)
    refine h.head?_cssAll (fun x hx htoken => ?_) (?_ : _ = some ' ')
    · obtain ⟨c, p, hx, hc⟩ := hsource x (List.mem_cons_of_mem l hx)
      rw [hx, List.head?_cons, Ne, Option.some_inj]
      exact hc htoken
    · rw [← hwritten, hq]
      rfl
  · rw [hspelled.toList_source (c := ';') hsemicolon rfl] at hzero
    cases hzero

/-- The text of several declarations is cut at the semicolon that the printer puts after the
first. -/
theorem Reads.cutsInto {as rest : List Lexeme} {e : Lexeme} {d : Declaration}
    {ds : List Declaration} (h : Reads (e :: rest) ds) (hs : ∀ x ∈ e :: rest, x.Spelled)
    (he : e.token = .semicolon) (hle : weight true d.css.toList ≤ weight true (written as))
    (hcut : CutsInto (cssAll (d :: ds)).toList ((as ++ e :: rest).map plain)) :
    CutsInto d.css.toList (as.map plain) ∧ CutsInto (cssAll ds).toList (rest.map plain) := by
  rw [List.map_append, List.map_cons] at hcut
  obtain ⟨x, u, ht, hx, hu⟩ := hcut.split (d := ';') rfl he
  have hsource := (hs e List.mem_cons_self).toList_source (c := ';') he rfl
  have hafter := (h.weight_le hs true).2 e rfl he
  have hcounts : counts true ';' := rfl
  have hweight := congrArg (weight true) ht
  rw [hx.written_of_plain] at hle
  rw [written_cons, hsource, hu.written_of_plain, weight_append] at hafter
  rw [weight_append, weight_cons_of_counts hcounts] at hweight
  cases ds with
  | nil =>
    rw [cssAll] at hweight
    omega
  | cons d' ds =>
    have htext : (cssAll (d :: d' :: ds)).toList =
        d.css.toList ++ ';' :: (cssAll (d' :: ds)).toList := by
      rw [cssAll]
      · simp
      · simp
    rw [htext] at ht hweight
    rw [weight_append, weight_cons_of_counts hcounts] at hweight
    obtain ⟨hfront, hback⟩ := Source.align hcounts hcounts ht (by omega)
    rw [hfront, hback]
    exact ⟨hx, hu⟩

/-- Declarations that are read from their own text are read back one by one. The second part is for
a semicolon in front. -/
theorem Reads.readsBack {ls : List Lexeme} {ds : List Declaration} (h : Reads ls ds)
    (hs : ∀ l ∈ ls, l.Spelled) :
    (CutsInto (cssAll ds).toList (ls.map plain) → ∀ d ∈ ds, d.readsBack) ∧
      ∀ e ls', ls = e :: ls' → e.token = .semicolon →
        CutsInto (cssAll ds).toList (ls'.map plain) → ∀ d ∈ ds, d.readsBack := by
  induction h with
  | nil => exact ⟨by simp, by simp⟩
  | @skip l ls ds skipped rest ih =>
    refine ⟨fun hcut => (rest.not_skipped hs skipped hcut).elim, fun e ls' heq _ hcut => ?_⟩
    obtain ⟨rfl, rfl⟩ := List.cons.inj heq
    exact (ih fun x hx => hs x (List.mem_cons_of_mem l hx)).1 hcut
  | @declaration l c spaces value rest ds name isName areSpaces isColon isRun ends others ih =>
    have hrest : ∀ x ∈ rest, x.Spelled := fun x hx => hs x (by simp [hx])
    have hfirst : Reads (l :: (spaces ++ c :: (value ++ []))) [ofLexemes l.raw value] :=
      .declaration isName areSpaces isColon isRun (by simp) .nil
    rw [List.append_nil] at hfirst
    have hback : CutsInto (ofLexemes l.raw value).css.toList
        ((l :: (spaces ++ c :: value)).map plain) → (ofLexemes l.raw value).readsBack :=
      fun hcut => readsBack_iff.2 ⟨_, hcut, hfirst.of_plain (map_plain_plain _)⟩
    have hsplit : l :: (spaces ++ c :: (value ++ rest)) =
        l :: (spaces ++ c :: value) ++ rest := by simp
    refine ⟨fun hcut => ?_, fun e ls' heq hsemicolon => ?_⟩
    · rw [hsplit] at hcut hs
      cases rest with
      | nil =>
        cases others
        rw [List.append_nil] at hcut
        exact List.forall_mem_singleton.2 (hback hcut)
      | cons e rest =>
        have he := ends e rfl
        have hle := weight_declaration_le (fun x hx => hs x (List.mem_append_left _ hx)) isColon
          isRun true
        obtain ⟨hcutFirst, hcutRest⟩ := others.cutsInto hrest he hle hcut
        exact List.forall_mem_cons.2 ⟨hback hcutFirst, (ih hrest).2 e rest rfl he hcutRest⟩
    · obtain ⟨rfl, rfl⟩ := List.cons.inj heq
      rw [isName] at hsemicolon
      cases hsemicolon

end Declaration

/-! ## Animations -/

theorem head?_trim_not_blank (s : String) : ∀ c ∈ (trim s).toList.head?, isBlank c = false := by
  obtain ⟨bs, hs, -⟩ := exists_trimEnd isBlank (s.toList.dropWhile isBlank)
  have hhead := List.head?_dropWhile_not isBlank s.toList
  rw [trim, String.toList_ofList, trimBlanks]
  intro c hc
  obtain ⟨cs, hcs⟩ := List.head?_eq_some_iff.1 hc
  rw [hcs] at hs
  rw [hs, List.cons_append, List.head?_cons] at hhead
  simpa using hhead

theorem head?_ne_space_of_trim (s : String) : (trim s).toList.head? ≠ some ' ' := by
  intro hspace
  have hblank := head?_trim_not_blank s ' ' hspace
  cases hblank

/-- White space is never skipped in front of a text that weighs as much as the lexemes after it and
does not start with a space. -/
theorem Source.not_skipped {t : List Char} {l : Lexeme} {ls : List Lexeme}
    (h : Source t (l :: ls)) (hs : l.Spelled)
    (hl : l.token = .whitespace ∨ l.token = .cdo ∨ l.token = .cdc)
    (hhead : t.head? ≠ some ' ') : weight false (written ls) < weight false t := by
  rcases h.written_eq with ⟨hwritten, hne⟩ | hlost
  · rw [← hwritten, written_cons, weight_append]
    suffices hpos : weight false l.source.toList ≠ 0 by omega
    intro hzero
    rcases hl with hspace | hcdo | hcdc
    · obtain ⟨p, hp⟩ := exists_of_weight_zero hs (hne l List.mem_cons_self) hspace hzero
      rw [← hwritten, written_cons, hp] at hhead
      exact hhead rfl
    · rw [Spelled, hcdo] at hs
      have hs : l.source.toList = ['<', '!', '-', '-'] := hs
      rw [hs] at hzero
      cases hzero
    · rw [Spelled, hcdc] at hs
      have hs : l.source.toList = ['-', '-', '>'] := hs
      rw [hs] at hzero
      cases hzero
  · have := hlost false
    rw [written_cons, weight_append] at this
    omega

namespace Keyframe

theorem Reads.head?_cssAll {ls : List Lexeme} {fs : List Keyframe} (h : Reads ls fs) :
    (cssAll fs).toList.head? ≠ some ' ' := by
  induction h with
  | nil => simp [cssAll]
  | skip isSpace rest ih => exact ih
  | @frame head body rest b r ds fs notSpace isRun opens isBalanced closes inside others ih =>
    have hhead : (collapsed head).toList.head? ≠ some ' ' := head?_ne_space_of_trim _
    rw [cssAll, css, String.append_assoc, String.toList_append]
    refine head?_append_ne hhead ?_
    simp [braces]

/-- Steps that are read from their own text are read back one by one. -/
theorem Reads.readsBack {ls : List Lexeme} {fs : List Keyframe} (h : Reads ls fs)
    (hs : ∀ l ∈ ls, l.Spelled) {t : List Char} (hsource : Source t ls)
    (ht : t = (cssAll fs).toList) : ∀ f ∈ fs, f.readsBack := by
  induction h generalizing t with
  | nil => simp
  | @skip l ls fs isSpace rest ih =>
    exfalso
    rw [Lexeme.isSpace, decide_eq_true_eq] at isSpace
    have hlt := hsource.not_skipped (hs l List.mem_cons_self) (.inl isSpace)
      (ht ▸ rest.head?_cssAll)
    have hle := rest.weight_le (fun x hx => hs x (List.mem_cons_of_mem l hx)) false
    rw [ht] at hlt
    omega
  | @frame head body rest b r ds fs notSpace isRun opens isBalanced closes inside others ih =>
    have hbody : ∀ x ∈ body, x.Spelled := fun x hx => hs x (by simp [hx])
    have hrest : ∀ x ∈ rest, x.Spelled := fun x hx => hs x (by simp [hx])
    have htext : (cssAll (⟨collapsed head, ds⟩ :: fs)).toList = (collapsed head).toList ++
        '\x7b' :: ((Declaration.cssAll ds).toList ++ '\x7d' :: (cssAll fs).toList) := by
      simp [cssAll, css, braces]
    obtain ⟨hX, hY, hV⟩ := hsource.block head hs opens closes (ht.trans htext)
      (weight_collapsed_le false head) (inside.weight_le hbody false).1
      (others.weight_le hrest false)
    intro f hf
    rcases List.mem_cons.1 hf with rfl | hf
    · rw [← map_token_of_plain (map_plain_plain head)] at isRun
      rw [Keyframe.readsBack, Bool.and_eq_true, List.all_eq_true]
      refine ⟨selectorReadsBack_iff.2 ⟨_, hX, fun x hx => ?_, isRun, collapsed_plain head⟩,
        (inside.readsBack hbody).1 hY⟩
      rw [List.head?_map, Option.mem_def, Option.map_eq_some_iff] at hx
      obtain ⟨y, hy, rfl⟩ := hx
      exact notSpace y hy
    · exact ih hrest hV rfl f hf

end Keyframe

/-! ## Rules -/

namespace Rule

theorem head?_selectorsCss {ls : List Lexeme} {selectors : List String}
    (h : selectors? ls = some selectors) : (selectorsCss selectors).toList.head? ≠ some ' ' := by
  have hpieces := forall₂_selectors h
  generalize commaPieces 0 ls = ps at hpieces
  cases hpieces with
  | nil => simp [selectorsCss]
  | @cons p s _ ss hp hrest =>
    have hs : s.toList.head? ≠ some ' ' := by
      rw [← hp]
      exact head?_ne_space_of_trim _
    cases ss with
    | nil => exact hs
    | cons s' ss =>
      rw [selectorsCss, String.append_assoc, String.toList_append]
      · refine head?_append_ne hs ?_
        simp
      · simp

theorem head?_atCss (h : AtHead) (text : String) : (h.css ++ text).toList.head? ≠ some ' ' := by
  rw [String.toList_append, AtHead.toList_css]
  simp

theorem Reads.head?_cssAll {top : Bool} {ls : List Lexeme} {rs : List Rule} (h : Reads top ls rs) :
    (cssAll rs).toList.head? ≠ some ' ' := by
  induction h with
  | nil => simp [cssAll]
  | skip skipped rest ih => exact ih
  | style notSkipped notAt isRun hasSelectors =>
    rw [cssAll, css, StyleRule.css, String.append_assoc, String.toList_append]
    refine head?_append_ne (head?_selectorsCss hasSelectors) ?_
    simp [braces]
  | last | statement | group =>
    rw [cssAll, css, String.append_assoc]
    exact head?_atCss _ _
  | block isAt isRun opens isBalanced closes notGroup inside others ih =>
    cases inside <;>
    · rw [cssAll, css, String.append_assoc]
      exact head?_atCss _ _

theorem readsBack_atHead {l : Lexeme} {head : List Lexeme} {name : String}
    (isAt : l.token = .atKeyword name) (hrun : isRun endsAtHead [] (head.map token))
    (h : CutsInto (AtHead.css ⟨atName l, collapsed head⟩).toList ((l :: head).map plain)) :
    AtHead.readsBack ⟨atName l, collapsed head⟩ := by
  rw [← map_token_of_plain (map_plain_plain head)] at hrun
  refine AtHead.readsBack_iff.2 ⟨l.plain, head.map plain, name, h, isAt, hrun, ?_⟩
  rw [collapsed_plain]
  rfl

/-- The inside of a block that is read from its own text is read back. -/
theorem BlockReads.exists_readsBack {head : AtHead} {body : List Lexeme} {rule : Rule}
    (h : BlockReads head body rule) (hs : ∀ l ∈ body, l.Spelled)
    (hbalanced : isBalanced 0 (body.map token)) :
    ∃ inside, css rule = head.css ++ braces inside ∧
      weight false inside.toList ≤ weight false (written body) ∧
        (CutsInto inside.toList (body.map plain) → head.readsBack →
          AtHead.isGroupName head.name = false → ∀ top, readsBack top rule) := by
  cases h with
  | keyframes isKeyframes inside =>
    refine ⟨_, by rw [css], inside.weight_le hs false, fun hcut hhead hgroup top => ?_⟩
    simp only [Rule.readsBack, hhead, hgroup, isKeyframes, Bool.not_false, Bool.and_true,
      Bool.true_and, List.all_eq_true]
    exact inside.readsBack hs (.inr hcut) rfl
  | descriptors notKeyframes isDescriptor inside =>
    refine ⟨_, by rw [css], (inside.weight_le hs false).1, fun hcut hhead hgroup top => ?_⟩
    simp only [Rule.readsBack, hhead, hgroup, notKeyframes, isDescriptor, Bool.not_false,
      Bool.and_true, Bool.true_and, List.all_eq_true]
    exact (inside.readsBack hs).1 hcut
  | raw notKeyframes notDescriptors =>
    refine ⟨_, by rw [css], ?_, fun hcut hhead hgroup top => ?_⟩
    · rw [← weight_joined]
      exact weight_trim_le false _
    · simp only [Rule.readsBack, hhead, hgroup, notKeyframes, Bool.not_false, Bool.true_and]
      rw [← map_token_of_plain (map_plain_plain body)] at hbalanced
      refine textReadsBack_iff.2 ⟨_, hcut, hbalanced, by rw [joined_plain],
        fun hname ds hreads => ?_⟩
      exact notDescriptors hname ds (hreads.of_plain (map_plain_plain body).symm)

/-- Rules that are read from their own text are read back piece by piece. -/
theorem Reads.readsBack {top : Bool} {ls : List Lexeme} {rs : List Rule} (h : Reads top ls rs)
    (hs : ∀ l ∈ ls, l.Spelled) {t : List Char} (hsource : Source t ls)
    (ht : t = (cssAll rs).toList) : allReadBack top rs := by
  induction h generalizing t with
  | nil => rw [allReadBack]
  | @skip top l ls rs skipped rest ih =>
    exfalso
    have hl : l.token = .whitespace ∨ l.token = .cdo ∨ l.token = .cdc := by
      simp only [isSkipped, Lexeme.isSpace, Bool.or_eq_true, Bool.and_eq_true,
        decide_eq_true_eq] at skipped
      exact skipped.imp_right And.right
    have hlt := hsource.not_skipped (hs l List.mem_cons_self) hl (ht ▸ rest.head?_cssAll)
    have hle := rest.weight_le fun x hx => hs x (List.mem_cons_of_mem l hx)
    rw [ht] at hlt
    omega
  | @style top l b r head body rest selectors ds rs notSkipped notAt isRun hasSelectors opens
      isBalanced closes inside others ih =>
    have hbody : ∀ x ∈ body, x.Spelled := fun x hx => hs x (by simp [hx])
    have hrest : ∀ x ∈ rest, x.Spelled := fun x hx => hs x (by simp [hx])
    have hhead : ∀ x ∈ l :: head, x.Spelled := fun x hx =>
      hs x (by rcases List.mem_cons.1 hx with rfl | hx <;> simp [*])
    have htext : (cssAll (.style ⟨selectors, ds⟩ :: rs)).toList = (selectorsCss selectors).toList ++
        '\x7b' :: ((Declaration.cssAll ds).toList ++ '\x7d' :: (cssAll rs).toList) := by
      simp [cssAll, css, StyleRule.css, braces]
    obtain ⟨hX, hY, hV⟩ := hsource.block (l :: head) hs opens closes (ht.trans htext)
      (weight_selectors_le false hhead hasSelectors) (inside.weight_le hbody false).1
      (others.weight_le hrest)
    rw [← map_token_of_plain (map_plain_plain (l :: head))] at isRun
    rw [← selectors?_of_plain (map_plain_plain (l :: head))] at hasSelectors
    rw [allReadBack, Bool.and_eq_true, Rule.readsBack, Bool.and_eq_true, List.all_eq_true]
    exact ⟨⟨selectorsReadBack_iff.2 ⟨l.plain, head.map plain, hX, notSkipped, notAt, isRun,
      hasSelectors⟩, (inside.readsBack hbody).1 hY⟩, ih hrest hV rfl⟩
  | @last top l head name isAt isRun =>
    exfalso
    have hl := hs l List.mem_cons_self
    have hle := weight_head_le hl isAt head false
    have hcount := count_head hl isAt fun x hx => hs x (List.mem_cons_of_mem l hx)
    have htext : (cssAll [.statement ⟨atName l, collapsed head⟩]).toList =
        (AtHead.css ⟨atName l, collapsed head⟩).toList ++ [';'] := by
      simp [cssAll, css]
    rw [htext] at ht
    rcases hsource.written_eq with ⟨hwritten, -⟩ | hlost
    · rw [hwritten, ht, List.count_append] at hcount
      have : [';'].count ';' = 1 := rfl
      omega
    · have hlt := hlost false
      have : weight false [';'] = 0 := rfl
      rw [ht, weight_append] at hlt
      omega
  | @statement top l e head rest name rs isAt isRun ends others ih =>
    have hl := hs l List.mem_cons_self
    have hhead : ∀ x ∈ head, x.Spelled := fun x hx => hs x (by simp [hx])
    have hrest : ∀ x ∈ rest, x.Spelled := fun x hx => hs x (by simp [hx])
    have htext : (cssAll (.statement ⟨atName l, collapsed head⟩ :: rs)).toList =
        (AtHead.css ⟨atName l, collapsed head⟩).toList ++ ';' :: (cssAll rs).toList := by
      simp [cssAll, css]
    obtain ⟨hX, hV⟩ := hsource.statement (l :: head)
      (fun x hx => hs x (by rcases List.mem_cons.1 hx with rfl | hx <;> simp [*])) ends
      (ht.trans htext) (weight_head_le hl isAt head false) (count_head hl isAt hhead)
      (others.weight_le hrest)
    rw [allReadBack, Bool.and_eq_true, Rule.readsBack]
    exact ⟨readsBack_atHead isAt isRun hX, ih hrest hV rfl⟩
  | @group top l b r head body rest name inner rs isAt isRun opens isBalanced closes isGroup inside
      others ihInside ih =>
    have hl := hs l List.mem_cons_self
    have hbody : ∀ x ∈ body, x.Spelled := fun x hx => hs x (by simp [hx])
    have hrest : ∀ x ∈ rest, x.Spelled := fun x hx => hs x (by simp [hx])
    have htext : (cssAll (.group ⟨atName l, collapsed head⟩ inner :: rs)).toList =
        (AtHead.css ⟨atName l, collapsed head⟩).toList ++
          '\x7b' :: ((cssAll inner).toList ++ '\x7d' :: (cssAll rs).toList) := by
      simp [cssAll, css, braces]
    obtain ⟨hX, hY, hV⟩ := hsource.block (l :: head) hs opens closes (ht.trans htext)
      (weight_head_le hl isAt head false) (inside.weight_le hbody) (others.weight_le hrest)
    rw [allReadBack, Bool.and_eq_true, Rule.readsBack, Bool.and_eq_true, Bool.and_eq_true]
    exact ⟨⟨⟨readsBack_atHead isAt isRun hX, isGroup⟩, ihInside hbody (.inr hY) rfl⟩,
      ih hrest hV rfl⟩
  | @block top l b r head body rest name rule rs isAt isRun opens isBalanced closes notGroup inside
      others ih =>
    have hl := hs l List.mem_cons_self
    have hbody : ∀ x ∈ body, x.Spelled := fun x hx => hs x (by simp [hx])
    have hrest : ∀ x ∈ rest, x.Spelled := fun x hx => hs x (by simp [hx])
    obtain ⟨text, hcss, hle, hback⟩ := inside.exists_readsBack hbody isBalanced
    have htext : (cssAll (rule :: rs)).toList =
        (AtHead.css ⟨atName l, collapsed head⟩).toList ++
          '\x7b' :: (text.toList ++ '\x7d' :: (cssAll rs).toList) := by
      simp [cssAll, hcss, braces]
    obtain ⟨hX, hY, hV⟩ := hsource.block (l :: head) hs opens closes (ht.trans htext)
      (weight_head_le hl isAt head false) hle (others.weight_le hrest)
    rw [allReadBack, Bool.and_eq_true]
    exact ⟨hback hY (readsBack_atHead isAt isRun hX) notGroup top, ih hrest hV rfl⟩

end Rule

/-! ## Style sheets -/

namespace Stylesheet

/-- A style sheet is read back from its text if and only if each of its pieces is: what stands
before its blocks, its declarations, and the texts that are kept of blocks. -/
theorem parse_css_eq_ok_iff (sheet : Stylesheet) :
    parse sheet.css = .ok sheet ↔ sheet.readsBack := by
  constructor
  · intro h
    obtain ⟨hbroken, hreads⟩ := parse_eq_ok_iff.1 h
    exact hreads.readsBack (spelled_scanFrom hbroken) (.inl ⟨false, 0, rfl⟩) rfl
  · exact parse_css_of_readsBack

end Stylesheet

end Restyle.Css
