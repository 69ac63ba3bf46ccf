import Restyle.Css.Printer
import Restyle.Proofs.Css.Places

/-!
# Style sheets that are read back

`Stylesheet.readsBack` looks at the pieces of a style sheet one by one: what stands before its
blocks, its declarations and the texts that are kept of blocks. Each has to be cut off at the
delimiter that the printer puts after it, and has to be read as itself. A style sheet whose pieces
are all of this kind is read back from its text (`Stylesheet.parse_css_of_readsBack`).
-/

namespace Restyle.Css

open Text Lexeme

/-! ## Pieces that are read back -/

/-- Whether a token is an at-keyword. -/
def Token.isAtKeyword : Token → Bool
  | atKeyword _ => true
  | _ => false

/-- Whether a declaration is read back. -/
def Declaration.readsBack (d : Declaration) : Bool :=
  (cut d.css).any fun ls => (readAll (.text 0) ls).toOption = some [d]

/-- Whether the text before the block of a step is read back. -/
def Keyframe.selectorReadsBack (selector : String) : Bool :=
  (cut selector).any fun ls =>
    !ls.head?.any Lexeme.isSpace && isRun endsSelectors [] (ls.map token) &&
      collapsed ls = selector

/-- Whether a step of an animation is read back. -/
def Keyframe.readsBack (f : Keyframe) : Bool :=
  selectorReadsBack f.selector && f.declarations.all Declaration.readsBack

/-- Whether the part of an at-rule before its block is read back. -/
def AtHead.readsBack (h : AtHead) : Bool :=
  (cut h.css).any fun
    | [] => false
    | l :: ls =>
      l.token.isAtKeyword && Rule.atName l = h.name && isRun endsAtHead [] (ls.map token) &&
        collapsed ls = h.preludeText

namespace Rule

/-- Whether a selector list is read back, at the start of a rule. -/
def selectorsReadBack (top : Bool) (selectors : List String) : Bool :=
  (cut (selectorsCss selectors)).any fun
    | [] => false
    | l :: ls =>
      !isSkipped top l && !l.token.isAtKeyword && isRun endsSelectors [] ((l :: ls).map token) &&
        selectors? (l :: ls) = some selectors

/-- Whether the text that is kept of the block of an at-rule is read back as text. -/
def textReadsBack (name text : String) : Bool :=
  (cut text).any fun ls =>
    isBalanced 0 (ls.map token) && Text.trim (joined ls) = text &&
      !(AtHead.isDescriptorName name && (Declaration.readAll (.text 0) ls).toOption.isSome)

mutual

/-- Whether the pieces of a rule are read back. -/
def readsBack (top : Bool) : Rule → Bool
  | style r => selectorsReadBack top r.selectors && r.declarations.all Declaration.readsBack
  | statement h => h.readsBack
  | group h rules => h.readsBack && AtHead.isGroupName h.name && allReadBack false rules
  | descriptors h ds =>
    h.readsBack && !AtHead.isGroupName h.name && !AtHead.isKeyframesName h.name &&
      AtHead.isDescriptorName h.name && ds.all Declaration.readsBack
  | keyframes h frames =>
    h.readsBack && !AtHead.isGroupName h.name && AtHead.isKeyframesName h.name &&
      frames.all Keyframe.readsBack
  | raw h text =>
    h.readsBack && !AtHead.isGroupName h.name && !AtHead.isKeyframesName h.name &&
      textReadsBack h.name text

/-- Whether the pieces of all rules are read back. -/
def allReadBack (top : Bool) : List Rule → Bool
  | [] => true
  | r :: rs => readsBack top r && allReadBack top rs

end

end Rule

/-- Whether the pieces of a style sheet are read back. -/
def Stylesheet.readsBack (s : Stylesheet) : Bool :=
  Rule.allReadBack true s.rules

theorem any_cut {x : String} {p : List Lexeme → Bool} :
    (cut x).any p ↔ ∃ ls, CutsInto x.toList ls ∧ p ls := by
  simp only [Option.any_eq_true, cut_eq_some]

theorem Token.isAtKeyword_iff {t : Token} : t.isAtKeyword ↔ ∃ name, t = .atKeyword name := by
  cases t <;> simp [isAtKeyword]

theorem Declaration.toOption_readAll {ending : Ending} {ls : List Lexeme} {ds : List Declaration} :
    (readAll ending ls).toOption = some ds ↔ Reads ls ds := by
  rw [← readAll_eq_ok_iff ending]
  cases readAll ending ls <;> simp [Except.toOption]

theorem Declaration.readsBack_iff {d : Declaration} :
    d.readsBack ↔ ∃ ls, CutsInto d.css.toList ls ∧ Reads ls [d] := by
  rw [readsBack, any_cut]
  simp only [decide_eq_true_eq, toOption_readAll]

theorem Keyframe.selectorReadsBack_iff {selector : String} :
    selectorReadsBack selector ↔
      ∃ ls, CutsInto selector.toList ls ∧ (∀ l ∈ ls.head?, l.isSpace = false) ∧
        isRun endsSelectors [] (ls.map token) ∧ collapsed ls = selector := by
  rw [selectorReadsBack, any_cut]
  refine exists_congr fun ls => and_congr_right fun _ => ?_
  cases ls <;> simp [and_assoc]

theorem AtHead.readsBack_iff {h : AtHead} :
    h.readsBack ↔ ∃ l ls name, CutsInto h.css.toList (l :: ls) ∧ l.token = .atKeyword name ∧
      isRun endsAtHead [] (ls.map token) ∧ h = ⟨Rule.atName l, collapsed ls⟩ := by
  obtain ⟨name, preludeText⟩ := h
  rw [readsBack, any_cut]
  constructor
  · rintro ⟨ls, hcut, h⟩
    cases ls with
    | nil => cases h
    | cons l ls =>
      simp only [Bool.and_eq_true, Token.isAtKeyword_iff, decide_eq_true_eq] at h
      obtain ⟨⟨⟨⟨keyword, hat⟩, rfl⟩, hrun⟩, rfl⟩ := h
      exact ⟨l, ls, keyword, hcut, hat, hrun, rfl⟩
  · rintro ⟨l, ls, keyword, hcut, hat, hrun, heq⟩
    obtain ⟨rfl, rfl⟩ := AtHead.mk.inj heq
    refine ⟨l :: ls, hcut, ?_⟩
    simp [Token.isAtKeyword_iff, hat, hrun]

theorem Rule.selectorsReadBack_iff {top : Bool} {selectors : List String} :
    selectorsReadBack top selectors ↔
      ∃ l ls, CutsInto (selectorsCss selectors).toList (l :: ls) ∧ isSkipped top l = false ∧
        (∀ name, l.token ≠ .atKeyword name) ∧ isRun endsSelectors [] ((l :: ls).map token) ∧
          selectors? (l :: ls) = some selectors := by
  rw [selectorsReadBack, any_cut]
  constructor
  · rintro ⟨ls, hcut, h⟩
    cases ls with
    | nil => cases h
    | cons l ls =>
      simp only [Bool.and_eq_true, Bool.not_eq_true', decide_eq_true_eq] at h
      obtain ⟨⟨⟨hskip, hat⟩, hrun⟩, hselectors⟩ := h
      refine ⟨l, ls, hcut, hskip, fun name hname => ?_, hrun, hselectors⟩
      rw [hname] at hat
      cases hat
  · rintro ⟨l, ls, hcut, hskip, hat, hrun, hselectors⟩
    refine ⟨l :: ls, hcut, ?_⟩
    have hnot : l.token.isAtKeyword = false := by
      rw [Bool.eq_false_iff, Ne, Token.isAtKeyword_iff]
      rintro ⟨name, hname⟩
      exact hat name hname
    simp only [hskip, hnot, hrun, hselectors]
    decide

theorem Rule.textReadsBack_iff {name text : String} :
    textReadsBack name text ↔
      ∃ ls, CutsInto text.toList ls ∧ isBalanced 0 (ls.map token) ∧ Text.trim (joined ls) = text ∧
        (AtHead.isDescriptorName name → ∀ ds, ¬Declaration.Reads ls ds) := by
  rw [textReadsBack, any_cut]
  refine exists_congr fun ls => and_congr_right fun _ => ?_
  have hreads : (Declaration.readAll (.text 0) ls).toOption.isSome ↔
      ∃ ds, Declaration.Reads ls ds := by
    rw [Option.isSome_iff_exists]
    exact exists_congr fun ds => Declaration.toOption_readAll
  rw [Bool.and_eq_true, Bool.and_eq_true, decide_eq_true_eq, and_assoc, Bool.not_eq_true',
    Bool.eq_false_iff, Ne, Bool.and_eq_true, hreads, not_and, not_exists]

/-! ## Blocks are balanced -/

theorem isBalanced_append {depth : Nat} {ts : List Token} (h : isBalanced depth ts) (outer : Nat)
    (us : List Token) : isBalanced (depth + outer) (ts ++ us) = isBalanced outer us := by
  induction ts generalizing depth with
  | nil =>
    rw [isBalanced, beq_iff_eq] at h
    rw [h, Nat.zero_add, List.nil_append]
  | cons t ts ih =>
    cases t
    case leftBrace =>
      rw [List.cons_append, isBalanced, Nat.add_right_comm]
      exact ih h
    case rightBrace =>
      cases depth with
      | zero => cases h
      | succ depth =>
        rw [List.cons_append, Nat.add_right_comm, isBalanced]
        exact ih h
    all_goals exact ih h

theorem isBalanced_of_isRun {stop : Token → Bool} {closers ts : List Token}
    (h : isRun stop closers ts) : isBalanced 0 ts := by
  induction ts generalizing closers with
  | nil => rfl
  | cons t ts ih =>
    obtain ⟨-, closers', hafter, hrest⟩ := isRun_cons_iff.1 h
    cases t
    case leftBrace | rightBrace => cases hafter
    all_goals exact ih hrest

/-- A block between two balanced runs. -/
theorem isBalanced_block {head body rest : List Lexeme} {b r : Lexeme}
    (hhead : isBalanced 0 (head.map token)) (opens : b.token = .leftBrace)
    (hbody : isBalanced 0 (body.map token)) (closes : r.token = .rightBrace)
    (hrest : isBalanced 0 (rest.map token)) :
    isBalanced 0 ((head ++ b :: (body ++ r :: rest)).map token) := by
  rw [List.map_append, isBalanced_append hhead 0, List.map_cons, opens, isBalanced,
    List.map_append, Nat.zero_add, ← Nat.zero_add 1, isBalanced_append hbody 1, List.map_cons,
    closes, isBalanced]
  exact hrest

theorem Declaration.Reads.isBalanced {ls : List Lexeme} {ds : List Declaration} (h : Reads ls ds) :
    Css.isBalanced 0 (ls.map token) := by
  induction h with
  | nil => rfl
  | @skip l ls ds skipped rest ih =>
    rw [List.map_cons]
    rcases skipped with hl | hl <;> rw [hl] <;> exact ih
  | @declaration l c spaces value rest ds name isName areSpaces isColon isRun ends others ih =>
    have hspaces : Css.isBalanced 0 (spaces.map token) := by
      clear ih others
      induction spaces with
      | nil => rfl
      | cons s spaces ihs =>
        have hs := areSpaces s List.mem_cons_self
        rw [Lexeme.isSpace, decide_eq_true_eq] at hs
        rw [List.map_cons, hs]
        exact ihs fun x hx => areSpaces x (List.mem_cons_of_mem s hx)
    rw [List.map_cons, isName, Css.isBalanced, List.map_append, isBalanced_append hspaces 0,
      List.map_cons, isColon, Css.isBalanced, List.map_append,
      isBalanced_append (isBalanced_of_isRun isRun) 0]
    · exact ih
    all_goals simp

theorem Keyframe.Reads.isBalanced {ls : List Lexeme} {fs : List Keyframe} (h : Reads ls fs) :
    Css.isBalanced 0 (ls.map token) := by
  induction h with
  | nil => rfl
  | @skip l ls fs isSpace rest ih =>
    rw [Lexeme.isSpace, decide_eq_true_eq] at isSpace
    rw [List.map_cons, isSpace]
    exact ih
  | frame notSpace isRun opens isBalanced closes inside others ih =>
    exact isBalanced_block (isBalanced_of_isRun isRun) opens isBalanced closes ih

theorem isBalanced_cons_of_at {l : Lexeme} {name : String} (isAt : l.token = .atKeyword name)
    {ls : List Lexeme} (h : isBalanced 0 (ls.map token)) :
    isBalanced 0 ((l :: ls).map token) := by
  rw [List.map_cons, isAt]
  exact h

theorem Rule.Reads.isBalanced {top : Bool} {ls : List Lexeme} {rs : List Rule}
    (h : Reads top ls rs) : Css.isBalanced 0 (ls.map token) := by
  induction h with
  | nil => rfl
  | @skip top l ls rs skipped rest ih =>
    simp only [isSkipped, Lexeme.isSpace, Bool.or_eq_true, Bool.and_eq_true,
      decide_eq_true_eq] at skipped
    rw [List.map_cons]
    rcases skipped with hl | ⟨-, hl | hl⟩ <;> rw [hl] <;> exact ih
  | style notSkipped notAt isRun hasSelectors opens isBalanced closes inside others ih =>
    exact isBalanced_block (isBalanced_of_isRun isRun) opens isBalanced closes ih
  | last isAt isRun => exact isBalanced_cons_of_at isAt (isBalanced_of_isRun isRun)
  | @statement top l e head rest name rs isAt isRun ends others ih =>
    apply isBalanced_cons_of_at isAt
    rw [List.map_append, isBalanced_append (isBalanced_of_isRun isRun) 0, List.map_cons, ends]
    exact ih
  | group isAt isRun opens isBalanced closes isGroup inside others ihInside ih =>
    exact isBalanced_cons_of_at isAt
      (isBalanced_block (isBalanced_of_isRun isRun) opens isBalanced closes ih)
  | block isAt isRun opens isBalanced closes notGroup inside others ih =>
    exact isBalanced_cons_of_at isAt
      (isBalanced_block (isBalanced_of_isRun isRun) opens isBalanced closes ih)

/-! ## Declarations -/

namespace Declaration

theorem Reads.append {as bs : List Lexeme} {ds es : List Declaration} (h : Reads as ds)
    {e : Lexeme} (he : e.token = .semicolon) (hb : Reads bs es) :
    Reads (as ++ e :: bs) (ds ++ es) := by
  induction h with
  | nil => exact .skip (.inr he) hb
  | skip skipped rest ih => exact .skip skipped ih
  | @declaration l c spaces value rest ds name isName areSpaces isColon isRun ends others ih =>
    have hends : ∀ x ∈ (rest ++ e :: bs).head?, x.token = .semicolon := by
      cases rest with
      | nil =>
        rintro x hx
        obtain rfl : e = x := by simpa using hx
        exact he
      | cons x rest => exact ends
    have := Reads.declaration isName areSpaces isColon isRun hends ih
    simpa using this

theorem exists_reads {ds : List Declaration} (h : ∀ d ∈ ds, d.readsBack) :
    ∃ ls, CutsInto (cssAll ds).toList ls ∧ Reads ls ds := by
  induction ds with
  | nil => exact ⟨[], .nil, .nil⟩
  | cons d ds ih =>
    obtain ⟨as, has, hreads⟩ := readsBack_iff.1 (h d List.mem_cons_self)
    cases ds with
    | nil => exact ⟨as, has, hreads⟩
    | cons e ds =>
      obtain ⟨bs, hbs, hrest⟩ := ih fun x hx => h x (List.mem_cons_of_mem d hx)
      refine ⟨as ++ delimiter ';' 0 :: bs, ?_, hreads.append rfl hrest⟩
      have := has.append hbs (d := ';') rfl
      rw [cssAll]
      · simpa using this
      · simp

end Declaration

theorem cutsInto_block {x y t : List Char} {head body ls : List Lexeme} (hx : CutsInto x head)
    (hy : CutsInto y body) (ht : CutsInto t ls) :
    CutsInto (x ++ '\x7b' :: (y ++ '\x7d' :: t))
      (head ++ delimiter '\x7b' 0 :: (body ++ delimiter '\x7d' 0 :: ls)) :=
  hx.append (hy.append ht rfl) rfl

/-! ## Animations -/

namespace Keyframe

theorem exists_reads {fs : List Keyframe} (h : ∀ f ∈ fs, f.readsBack) :
    ∃ ls, CutsInto (cssAll fs).toList ls ∧ Reads ls fs := by
  induction fs with
  | nil => exact ⟨[], .nil, .nil⟩
  | cons f fs ih =>
    obtain ⟨ls, hls, hreads⟩ := ih fun x hx => h x (List.mem_cons_of_mem f hx)
    have hf := h f List.mem_cons_self
    rw [readsBack, Bool.and_eq_true, List.all_eq_true] at hf
    obtain ⟨head, hhead, hspace, hrun, hselector⟩ := selectorReadsBack_iff.1 hf.1
    obtain ⟨body, hbody, hinside⟩ := Declaration.exists_reads hf.2
    refine ⟨head ++ delimiter '\x7b' 0 :: (body ++ delimiter '\x7d' 0 :: ls), ?_, ?_⟩
    · have hblock := cutsInto_block hhead hbody hls
      simpa [cssAll, css, braces] using hblock
    · have hframe := Reads.frame (b := delimiter '\x7b' 0) (r := delimiter '\x7d' 0) hspace hrun rfl
        hinside.isBalanced rfl hinside hreads
      rw [hselector] at hframe
      exact hframe

end Keyframe

/-! ## Rules -/

/-- A text that is read as the same lexemes before a delimiter and at the end. -/
structure ScansInto (t : List Char) (ls : List Lexeme) : Prop where
  /-- Before a delimiter. -/
  cutsInto : CutsInto t ls
  /-- At the end. -/
  map_plain_scanFrom : ∀ inWord start, (scanFrom inWord start t).map plain = ls

theorem ScansInto.nil : ScansInto [] [] :=
  ⟨.nil, fun inWord start => by
    rw [scanFrom_of_skipComments_eq_nil (Lexer.skipComments_eq_self (by simp)), List.map_nil]⟩

theorem ScansInto.append {x u : List Char} {as bs : List Lexeme} (hx : CutsInto x as)
    (hu : ScansInto u bs) {d : Char} (hd : isDelimiter d) :
    ScansInto (x ++ d :: u) (as ++ delimiter d 0 :: bs) := by
  refine ⟨hx.append hu.cutsInto hd, fun inWord start => ?_⟩
  obtain ⟨ls, start₁, start₂, hls, hscan⟩ := hx.scanFrom hd u inWord start
  rw [hscan, List.map_append, hls, List.map_cons, hu.map_plain_scanFrom]
  rfl

namespace Rule

variable {top : Bool} {t : List Char} {ls : List Lexeme}

theorem scansInto_block {x : List Char} {inside : String} {head body : List Lexeme}
    (hx : CutsInto x head) (hbody : CutsInto inside.toList body) (ht : ScansInto t ls) :
    ScansInto (x ++ (braces inside).toList ++ t)
      (head ++ delimiter '\x7b' 0 :: (body ++ delimiter '\x7d' 0 :: ls)) := by
  have hblock := ScansInto.append hx (.append hbody ht rfl (d := '\x7d')) (d := '\x7b') rfl
  simpa [braces] using hblock

/-- An at-rule with a block, in lexemes. -/
theorem exists_atBlock {h : AtHead} (hh : h.readsBack) {inside : String} {body : List Lexeme}
    (hbody : CutsInto inside.toList body) (ht : ScansInto t ls) :
    ∃ l head name, l.token = .atKeyword name ∧ isRun endsAtHead [] (head.map token) ∧
      h = ⟨atName l, collapsed head⟩ ∧
        ScansInto ((h.css ++ braces inside).toList ++ t)
          (l :: (head ++ delimiter '\x7b' 0 :: (body ++ delimiter '\x7d' 0 :: ls))) := by
  obtain ⟨l, head, name, hcut, hat, hrun, hhead⟩ := AtHead.readsBack_iff.1 hh
  refine ⟨l, head, name, hat, hrun, hhead, ?_⟩
  rw [String.toList_append]
  exact scansInto_block hcut hbody ht

mutual

/-- A rule whose pieces are read back is read back in front of other rules. -/
theorem exists_scansInto_cons : ∀ {top : Bool} {r : Rule}, readsBack top r →
    ∀ {t : List Char} {ls : List Lexeme} {rs : List Rule}, ScansInto t ls → Reads top ls rs →
      ∃ ls', ScansInto ((css r).toList ++ t) ls' ∧ Reads top ls' (r :: rs)
  | top, style r, h, t, ls, rs, ht, hreads => by
    rw [readsBack, Bool.and_eq_true, List.all_eq_true] at h
    obtain ⟨l, head, hcut, hskip, hat, hrun, hselectors⟩ := selectorsReadBack_iff.1 h.1
    obtain ⟨body, hbody, hinside⟩ := Declaration.exists_reads h.2
    have hblock := scansInto_block hcut hbody ht
    refine ⟨_, ?_, .style (b := delimiter '\x7b' 0) (r := delimiter '\x7d' 0) hskip hat hrun
      hselectors rfl hinside.isBalanced rfl hinside hreads⟩
    rw [css, StyleRule.css, String.toList_append]
    exact hblock
  | top, statement h, hh, t, ls, rs, ht, hreads => by
    obtain ⟨l, head, name, hcut, hat, hrun, hhead⟩ := AtHead.readsBack_iff.1 hh
    refine ⟨l :: (head ++ delimiter ';' 0 :: ls), ?_, ?_⟩
    · have := ScansInto.append hcut ht (d := ';') rfl
      simpa [css] using this
    · rw [hhead]
      exact .statement hat hrun rfl hreads
  | top, group h rules, hh, t, ls, rs, ht, hreads => by
    rw [readsBack, Bool.and_eq_true, Bool.and_eq_true] at hh
    obtain ⟨body, hbody, hinside⟩ := exists_scansInto hh.2
    obtain ⟨l, head, name, hat, hrun, hhead, hscan⟩ := exists_atBlock hh.1.1 hbody.cutsInto ht
    refine ⟨_, by rw [css]; exact hscan, ?_⟩
    have hgroup := hh.1.2
    rw [hhead] at hgroup ⊢
    exact .group hat hrun rfl hinside.isBalanced rfl hgroup hinside hreads
  | top, descriptors h ds, hh, t, ls, rs, ht, hreads => by
    simp only [readsBack, Bool.and_eq_true, Bool.not_eq_true', List.all_eq_true] at hh
    obtain ⟨⟨⟨⟨hback, hgroup⟩, hkeyframes⟩, hdescriptor⟩, hds⟩ := hh
    obtain ⟨body, hbody, hinside⟩ := Declaration.exists_reads hds
    obtain ⟨l, head, name, hat, hrun, hhead, hscan⟩ := exists_atBlock hback hbody ht
    refine ⟨_, by rw [css]; exact hscan, ?_⟩
    rw [hhead] at hgroup hkeyframes hdescriptor ⊢
    exact .block hat hrun rfl hinside.isBalanced rfl hgroup
      (.descriptors hkeyframes hdescriptor hinside) hreads
  | top, keyframes h fs, hh, t, ls, rs, ht, hreads => by
    simp only [readsBack, Bool.and_eq_true, Bool.not_eq_true', List.all_eq_true] at hh
    obtain ⟨⟨⟨hback, hgroup⟩, hkeyframes⟩, hfs⟩ := hh
    obtain ⟨body, hbody, hinside⟩ := Keyframe.exists_reads hfs
    obtain ⟨l, head, name, hat, hrun, hhead, hscan⟩ := exists_atBlock hback hbody ht
    refine ⟨_, by rw [css]; exact hscan, ?_⟩
    rw [hhead] at hgroup hkeyframes ⊢
    exact .block hat hrun rfl hinside.isBalanced rfl hgroup (.keyframes hkeyframes hinside) hreads
  | top, raw h text, hh, t, ls, rs, ht, hreads => by
    simp only [readsBack, Bool.and_eq_true, Bool.not_eq_true'] at hh
    obtain ⟨⟨⟨hback, hgroup⟩, hkeyframes⟩, htext⟩ := hh
    obtain ⟨body, hbody, hbalanced, htrim, hnot⟩ := textReadsBack_iff.1 htext
    obtain ⟨l, head, name, hat, hrun, hhead, hscan⟩ := exists_atBlock hback hbody ht
    refine ⟨_, by rw [css]; exact hscan, ?_⟩
    rw [hhead] at hgroup hkeyframes hnot ⊢
    have hraw : BlockReads ⟨atName l, collapsed head⟩ body _ := .raw hkeyframes hnot
    rw [htrim] at hraw
    exact .block hat hrun rfl hbalanced rfl hgroup hraw hreads

/-- Rules whose pieces are read back are read back. -/
theorem exists_scansInto : ∀ {top : Bool} {rs : List Rule}, allReadBack top rs →
    ∃ ls, ScansInto (cssAll rs).toList ls ∧ Reads top ls rs
  | top, [], _ => ⟨[], by rw [cssAll]; exact .nil, .nil⟩
  | top, r :: rs, h => by
    rw [allReadBack, Bool.and_eq_true] at h
    obtain ⟨ls, hls, hreads⟩ := exists_scansInto h.2
    obtain ⟨ls', hls', hreads'⟩ := exists_scansInto_cons h.1 hls hreads
    refine ⟨ls', ?_, hreads'⟩
    rw [cssAll, String.toList_append]
    exact hls'

end

end Rule

/-! ## Style sheets -/

theorem brokenToken?_eq_none_iff {ls : List Lexeme} :
    brokenToken? ls = none ↔ ∀ l ∈ ls, l.isBroken = false := by
  rw [brokenToken?, List.findSome?_eq_none_iff]
  refine forall_congr' fun l => imp_congr_right fun _ => ?_
  obtain ⟨t, source, start⟩ := l
  cases t <;> simp [isBroken]

namespace Stylesheet

/-- A text is a style sheet if nothing is broken off and its lexemes are read as rules. -/
theorem parse_eq_ok_iff {source : String} {sheet : Stylesheet} :
    parse source = .ok sheet ↔
      (∀ l ∈ scan source, l.isBroken = false) ∧ Rule.Reads true (scan source) sheet.rules := by
  rw [← brokenToken?_eq_none_iff,
    ← Rule.readAll_eq_ok_iff (bytes source) (.text (bytes source))]
  unfold parse
  dsimp only
  cases brokenToken? (scan source) with
  | some e => simp [bind, Except.bind, throw, throwThe, MonadExceptOf.throw]
  | none =>
    obtain ⟨rules⟩ := sheet
    cases Rule.readAll (bytes source) true (.text (bytes source)) (scan source) with
    | error e => simp [bind, Except.bind]
    | ok rs => simp [bind, Except.bind, pure, Except.pure]

theorem parse_css_of_readsBack {sheet : Stylesheet} (h : sheet.readsBack) :
    parse sheet.css = .ok sheet := by
  obtain ⟨ls, hls, hreads⟩ := Rule.exists_scansInto h
  have hscan : (scan sheet.css).map plain = ls := hls.map_plain_scanFrom false 0
  refine parse_eq_ok_iff.2 ⟨fun l hl => ?_, hreads.of_plain ?_⟩
  · exact hls.cutsInto.not_broken l.plain (hscan ▸ List.mem_map_of_mem hl)
  · rw [← hscan, map_plain_plain]

end Stylesheet

end Restyle.Css
