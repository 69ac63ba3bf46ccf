import Restyle.Proofs.Css.Gray
import Restyle.Proofs.Css.Layout

/-!
# Lexemes with hashes in the place of colors

Where grays replace the colors of a value, a word or a whole function call gives way to a hash
(`Recolored`). A hash ends the token before it wherever the color did, so the only thing that can go
wrong is that the hash goes on with what comes after a call: a declaration that is read back is read
back with grays in it if and only if each gray that replaces a call ends where the call did
(`Declaration.readsBack_gray_iff`).
-/

namespace Restyle.Css

open Text Lexeme

/-! ## Words and hashes -/

namespace Lexer

theorem continuesName_cons_of_ne {c : Char} (h : c ≠ '\\') (r : List Char) :
    continuesName (c :: r) = isNameChar c := by
  simp [continuesName]

theorem escapes_cons (c : Char) (r : List Char) : escapes (c :: r) = (c != '\n') := by
  unfold escapes
  split
  · rename_i h
    rw [(List.cons.inj h).1]
    rfl
  · rename_i h
    rw [Eq.comm, bne_iff_ne]
    rintro rfl
    exact h _ rfl

/-- A name takes all that goes on with it. -/
theorem continuesName_name (s : List Char) : continuesName (name s).2 = false := by
  fun_induction name s with
  | case1 => rfl
  | case2 c r hc n rest heq ih => simpa [heq] using ih
  | case3 c r hc hescape hlength n rest heq ih => simpa [heq] using ih
  | case4 c r hc hescape =>
    by_cases hbackslash : c = '\\'
    · subst hbackslash
      simpa [continuesName] using hescape
    · rw [continuesName_cons_of_ne hbackslash]
      simpa using hc

theorem name_append {n rest : List Char} (hn : ∀ c ∈ n, isNameChar c)
    (h : continuesName rest = false) : name (n ++ rest) = (n, rest) := by
  induction n with
  | nil =>
    cases rest with
    | nil => rw [List.nil_append, name]
    | cons c r =>
      rw [List.nil_append, name]
      by_cases hbackslash : c = '\\'
      · subst hbackslash
        rw [if_neg (by decide), if_neg (by simpa [continuesName] using h)]
      · rw [continuesName_cons_of_ne hbackslash] at h
        rw [if_neg (by simp [h]), if_neg (by simp [hbackslash])]
  | cons c n ih =>
    rw [List.cons_append, name, if_pos (hn c List.mem_cons_self),
      ih fun x hx => hn x (List.mem_cons_of_mem c hx)]

theorem ne_of_isHexDigit {c d : Char} (h : isHexDigit c) (hd : isHexDigit d = false) : c ≠ d := by
  rintro rfl
  rw [h] at hd
  cases hd

end Lexer

namespace Lexeme

/-- The lexeme of a hash with these digits. -/
def ofDigits (digits : String) : Lexeme :=
  ⟨.hash digits (if Lexer.startsName digits.toList then .id else .unrestricted), "#" ++ digits, 0⟩

theorem toList_source_ofDigits (digits : String) :
    (ofDigits digits).source.toList = '#' :: digits.toList := by
  simp [ofDigits]

/-- A hash is cut off where its digits do not run into what comes after it. -/
theorem cutsInto_ofDigits {digits : String} (hdigits : Value.isHexColor digits) {ls : List Lexeme}
    (h : CutsInto (written ls) ls) (hapart : Lexer.continuesName (written ls) = false) :
    CutsInto ('#' :: (digits.toList ++ written ls)) (ofDigits digits :: ls) := by
  rw [Value.isHexColor, Bool.and_eq_true, List.all_eq_true] at hdigits
  obtain ⟨c, cs, hcs⟩ : ∃ c cs, digits.toList = c :: cs := by
    cases hcs : digits.toList with
    | nil => simp [hcs] at hdigits
    | cons c cs => exact ⟨c, cs, rfl⟩
  have hc : isHexDigit c := hdigits.2 c (by simp [hcs])
  have hhyphen : c ≠ '-' := Lexer.ne_of_isHexDigit hc rfl
  have hbackslash : c ≠ '\\' := Lexer.ne_of_isHexDigit hc rfl
  rw [← Lexer.continuesName_append_stop (e := '\x7b') rfl _ []] at hapart
  have hname : Lexer.name (digits.toList ++ written ls ++ ['\x7b']) =
      (digits.toList, written ls ++ ['\x7b']) := by
    rw [List.append_assoc]
    exact Lexer.name_append (fun x hx => Lexer.isNameChar_of_isHexDigit (hdigits.2 x hx)) hapart
  have hcontinues : Lexer.continuesName (digits.toList ++ written ls ++ ['\x7b']) := by
    rw [hcs, List.cons_append, List.cons_append, Lexer.continuesName_cons_of_ne hbackslash]
    exact Lexer.isNameChar_of_isHexDigit hc
  have hstarts : Lexer.startsName (digits.toList ++ written ls ++ ['\x7b']) =
      Lexer.startsName digits.toList := by
    rw [hcs]
    simp [Lexer.startsName]
  have hskip : Lexer.skipComments ('#' :: (digits.toList ++ written ls ++ ['\x7b'])) =
      '#' :: (digits.toList ++ written ls ++ ['\x7b']) :=
    Lexer.skipComments_cons (by decide) _
  have htoken : Lexer.token '#' (digits.toList ++ written ls ++ ['\x7b']) =
      ((ofDigits digits).token, written ls ++ ['\x7b']) := by
    have hhash : Lexer.token '#' (digits.toList ++ written ls ++ ['\x7b']) =
        Lexer.hashToken (digits.toList ++ written ls ++ ['\x7b']) := rfl
    rw [hhash, Lexer.hashToken, if_pos hcontinues, hname, hstarts]
    dsimp only
    rw [String.ofList_toList]
    rfl
  have hsplit : '#' :: digits.toList ++ written ls = '#' :: (digits.toList ++ written ls) := rfl
  have hcut := CutsInto.cons hskip htoken (by simp [ofDigits]) hsplit h
  rwa [← toList_source_ofDigits, String.ofList_toList] at hcut

end Lexeme

/-! ## Runs in which colors give way to hashes -/

/-- A run goes on after groups that are closed. -/
theorem isRun_of_append {stop : Token → Bool} {inner closers ts us : List Token}
    (hclosed : ts.foldlM closersAfter inner = some [])
    (h : isRun stop (inner ++ closers) (ts ++ us)) : isRun stop closers us := by
  induction ts generalizing inner with
  | nil =>
    obtain rfl : inner = [] := Option.some.inj hclosed
    exact h
  | cons t ts ih =>
    rw [List.foldlM_cons] at hclosed
    obtain ⟨inner', hafter, hclosed⟩ := Option.bind_eq_some_iff.1 hclosed
    obtain ⟨-, closers', hafter', h⟩ := isRun_cons_iff.1 h
    obtain rfl := Option.some.inj ((closersAfter_append hafter _).symm.trans hafter')
    exact ih hclosed h

/-- A word takes all that goes on with a name. -/
theorem continuesName_of_isNamed {l : Lexeme} {ls : List Lexeme} (hl : l.token.isNamed)
    (hcut : CutsInto (written (l :: ls)) (l :: ls)) :
    Lexer.continuesName (written ls) = false := by
  rw [← Lexer.continuesName_append_stop (e := '\x7b') rfl _ []]
  have hspelled := hcut.spelled l List.mem_cons_self
  generalize written (l :: ls) = t at hcut
  cases hcut with
  | @cons c r r' source t _ noComment reads whole split rest =>
    have hrest : written ls = r' := rest.written
    rw [hrest]
    cases t with
    | ident name =>
      have hname := (Lexer.token_eq_ident (congrArg Prod.fst reads)).2
      rw [reads] at hname
      have hend := Lexer.continuesName_name (c :: (r ++ ['\x7b']))
      rwa [hname] at hend
    | hash name kind =>
      obtain ⟨n, hn⟩ := hspelled
      rw [String.toList_ofList] at hn
      rw [hn, List.cons_append] at split
      obtain ⟨rfl, -⟩ := List.cons.inj split
      have hhash : Lexer.hashToken (r ++ ['\x7b']) = (.hash name kind, r' ++ ['\x7b']) := reads
      rw [Lexer.hashToken] at hhash
      by_cases hcontinues : Lexer.continuesName (r ++ ['\x7b'])
      · rw [if_pos hcontinues] at hhash
        have hend := Lexer.continuesName_name (r ++ ['\x7b'])
        rwa [(Prod.mk.inj hhash).2] at hend
      · rw [if_neg hcontinues] at hhash
        cases (Prod.mk.inj hhash).1
    | _ => cases hl

/-- Runs of lexemes in which some words and function calls give way to hashes, the latter where what
comes after them does not go on with a name. -/
inductive Recolored : List Lexeme → List Lexeme → Prop where
  /-- Nothing is left. -/
  | nil : Recolored [] []
  /-- A lexeme stays. -/
  | keep (l : Lexeme) {ls ls' : List Lexeme} (rest : Recolored ls ls') :
      Recolored (l :: ls) (l :: ls')
  /-- A word gives way to a hash. -/
  | word {l : Lexeme} {ls ls' : List Lexeme} {digits : String} (isWord : l.token.isNamed)
      (starts : ∃ d p, l.source.toList = d :: p ∧ isFront d) (isHex : Value.isHexColor digits)
      (rest : Recolored ls ls') : Recolored (l :: ls) (ofDigits digits :: ls')
  /-- A function call gives way to a hash. -/
  | call {l : Lexeme} {run ls ls' : List Lexeme} {digits : String}
      (closed : ((l :: run).map token).foldlM closersAfter [] = some [])
      (starts : ∃ d p, l.source.toList = d :: p ∧ isFront d) (isHex : Value.isHexColor digits)
      (apart : Lexer.continuesName (written ls') = false) (rest : Recolored ls ls') :
      Recolored (l :: (run ++ ls)) (ofDigits digits :: ls')

namespace Recolored

variable {ls ls' : List Lexeme}

theorem refl (ls : List Lexeme) : Recolored ls ls := by
  induction ls with
  | nil => exact .nil
  | cons l ls ih => exact .keep l ih

theorem eq_of_not_hash {ks : List Lexeme} (h : Recolored ls ks)
    (hks : ∀ k ∈ ks, ∀ name kind, k.token ≠ .hash name kind) : ls = ks := by
  induction h with
  | nil => rfl
  | keep l _ ih => rw [ih fun k hk => hks k (List.mem_cons_of_mem l hk)]
  | word | call => exact absurd rfl (hks _ List.mem_cons_self _ _)

/-- Lexemes other than hashes at the end stay. -/
theorem exists_of_append {as' ks : List Lexeme} (h : Recolored ls (as' ++ ks))
    (hks : ∀ k ∈ ks, ∀ name kind, k.token ≠ .hash name kind) : ∃ as, ls = as ++ ks := by
  induction as' generalizing ls with
  | nil => exact ⟨[], h.eq_of_not_hash hks⟩
  | cons a as' ih =>
    cases h with
    | keep _ rest =>
      obtain ⟨as, rfl⟩ := ih rest
      exact ⟨a :: as, rfl⟩
    | @word l _ _ digits _ _ _ rest =>
      obtain ⟨as, rfl⟩ := ih rest
      exact ⟨l :: as, rfl⟩
    | @call l run _ _ digits _ _ _ _ rest =>
      obtain ⟨as, rfl⟩ := ih rest
      exact ⟨l :: (run ++ as), by simp⟩

/-- A run starts with white space only if it did before. -/
theorem head?_not_space (h : Recolored ls ls') (hspace : ∀ l ∈ ls.head?, l.isSpace = false) :
    ∀ l ∈ ls'.head?, l.isSpace = false := by
  cases h with
  | nil => exact hspace
  | keep l _ => exact hspace
  | word | call =>
    intro l hl
    obtain rfl := Option.some.inj hl
    rfl

/-- Closed groups that give way leave a run a run. -/
theorem isRun (h : Recolored ls ls') {stop : Token → Bool}
    (hstop : ∀ name kind, stop (.hash name kind) = false) {closers : List Token}
    (hrun : Css.isRun stop closers (ls.map token)) : Css.isRun stop closers (ls'.map token) := by
  have hhash : ∀ digits closers ts, Css.isRun stop closers ts →
      Css.isRun stop closers ((ofDigits digits).token :: ts) := by
    intro digits closers ts hts
    rw [Css.isRun, ofDigits, hstop, Bool.and_false]
    exact hts
  induction h generalizing closers with
  | nil => exact hrun
  | keep l _ ih =>
    obtain ⟨hgoes, closers', hafter, hrun⟩ := isRun_cons_iff.1 hrun
    exact isRun_cons_iff.2 ⟨hgoes, closers', hafter, ih hrun⟩
  | word isWord _ _ _ ih =>
    have hclosed := congrArg (· >>= pure) (closersAfter_of_isNamed isWord [])
    exact hhash _ _ _ (ih (@isRun_of_append _ [] _ [_] _ hclosed hrun))
  | call closed _ _ _ _ ih =>
    rw [← List.cons_append, List.map_append] at hrun
    exact hhash _ _ _ (ih (isRun_of_append closed hrun))

/-- A line feed that comes first stays. -/
theorem escapes (h : Recolored ls ls') (hcut : CutsInto (written ls) ls)
    (hend : Lexer.escapes (written ls) = false) : Lexer.escapes (written ls') = false := by
  cases h with
  | nil => exact hend
  | @keep l rest rest' _ =>
    obtain ⟨c, p, hl, -⟩ := hcut.exists_source l List.mem_cons_self
    rw [written_cons, hl, List.cons_append, Lexer.escapes_cons] at hend ⊢
    exact hend
  | @word l _ _ _ _ starts | @call l _ _ _ _ _ starts =>
    obtain ⟨d, p, hl, hd⟩ := starts
    rw [written_cons, hl, List.cons_append, Lexer.escapes_cons, bne_eq_false_iff_eq] at hend
    exact absurd hend (Lexer.ne_of_front hd).2.1

/-- What stops a name before a text stops it before the text with hashes in it. -/
theorem continuesName (h : Recolored ls ls') (hcut : CutsInto (written ls) ls)
    (hend : Lexer.continuesName (written ls) = false) :
    Lexer.continuesName (written ls') = false := by
  cases h with
  | nil => exact hend
  | @keep l rest rest' hrest =>
    obtain ⟨c, p, hl, -⟩ := hcut.exists_source l List.mem_cons_self
    rw [written_cons, hl, List.cons_append] at hend ⊢
    by_cases hbackslash : c = '\\'
    · subst hbackslash
      rw [Lexer.continuesName] at hend ⊢
      cases p with
      | nil => exact hrest.escapes (hcut.after [l]) hend
      | cons x p =>
        rw [List.cons_append, Lexer.escapes_cons] at hend ⊢
        exact hend
    · rwa [Lexer.continuesName_cons_of_ne hbackslash] at hend ⊢
  | word | call =>
    rw [written_cons, toList_source_ofDigits, List.cons_append,
      Lexer.continuesName_cons_of_ne (by decide)]
    rfl

/-- Where a run is cut off after some lexemes, so is the one with hashes in it. -/
theorem cutsInto (h : Recolored ls ls') (as : List Lexeme)
    (hcut : CutsInto (written (as ++ ls)) (as ++ ls)) :
    CutsInto (written (as ++ ls')) (as ++ ls') := by
  have hash : ∀ {ls : List Lexeme} {l : Lexeme} {run ls' : List Lexeme} {digits : String}
      {as : List Lexeme}, CutsInto (written (as ++ l :: (run ++ ls))) (as ++ l :: (run ++ ls)) →
      (∃ d p, l.source.toList = d :: p ∧ isFront d) → Value.isHexColor digits →
      Lexer.continuesName (written ls') = false → CutsInto (written ls') ls' →
      CutsInto (written (as ++ ofDigits digits :: ls')) (as ++ ofDigits digits :: ls') := by
    rintro ls l run ls' digits as hcut ⟨d, p, hl, hd⟩ isHex hend hls'
    rw [written_append, written_cons, toList_source_ofDigits, List.cons_append]
    exact (hcut.before hl hd).append_stop (cutsInto_ofDigits isHex hls' hend) rfl
  induction h generalizing as with
  | nil => exact hcut
  | keep l _ ih =>
    have := ih (as ++ [l]) (by simpa using hcut)
    simpa using this
  | @word l ls ls' digits isWord starts isHex rest ih =>
    have hfrom := hcut.after as
    have hls := hfrom.after [l]
    have hend := rest.continuesName hls (continuesName_of_isNamed isWord hfrom)
    exact @hash _ _ [] _ _ _ hcut starts isHex hend (ih [] hls)
  | @call l run ls ls' digits closed starts isHex apart rest ih =>
    have hsplit : as ++ l :: (run ++ ls) = (as ++ l :: run) ++ ls := by simp
    exact hash hcut starts isHex apart (ih [] (CutsInto.after (as ++ l :: run) (hsplit ▸ hcut)))

end Recolored

/-! ## Values and their lexemes -/

namespace Value

theorem ofLexemes_ofDigits {digits : String} (h : isHexColor digits) (ls : List Lexeme) :
    ofLexemes (ofDigits digits :: ls) = hexColor digits :: ofLexemes ls := by
  have hraw : String.ofList ((ofDigits digits).raw.toList.drop 1) = digits := by
    rw [raw, if_neg (by simp [ofDigits]), toList_source_ofDigits]
    simp
  rw [ofLexemes_hash ls rfl, hraw, if_pos h]

/-- Lexemes `ls` of values, in front of `tail`, that give way to lexemes `ls'` of the values with
grays in them, in front of `tail'`. -/
structure GraysInto (tail tail' : List Lexeme) (closers : List Token) (ls ls' : List Lexeme) :
    Prop where
  /-- Words and calls give way to hashes. -/
  recolored : Recolored (ls ++ tail) (ls' ++ tail')
  /-- The values are those with grays in them. -/
  values : ofLexemes ls' = grayAll (ofLexemes ls)
  /-- The groups that were open get closed. -/
  closed : (ls'.map token).foldlM closersAfter closers = some []
  /-- The text is that of the values. -/
  written_eq : written ls' = (cssAll (ofLexemes ls')).toList

section

variable {tail tail' ls ls' args args' : List Lexeme} {closers closers' : List Token} {l r : Lexeme}
  (hraw : l.raw = l.source)

theorem GraysInto.nil (h : Recolored tail tail') : GraysInto tail tail' [] [] [] :=
  ⟨h, by rw [ofLexemes, grayAll], rfl, by rw [ofLexemes, cssAll]; rfl⟩

include hraw

/-- Source text that is no color stays. -/
theorem GraysInto.other (h : GraysInto tail tail' closers' ls ls')
    (hafter : closersAfter closers l.token = some closers')
    (heq : ∀ ls, ofLexemes (l :: ls) = pushOther l.raw (ofLexemes ls)) :
    GraysInto tail tail' closers (l :: ls) (l :: ls') where
  recolored := .keep l h.recolored
  values := by rw [heq, heq, h.values, grayAll_pushOther]
  closed := by
    rw [List.map_cons, List.foldlM_cons, hafter]
    exact h.closed
  written_eq := by
    rw [heq, cssAll_pushOther, written_cons, h.written_eq, hraw, String.toList_append]

/-- A word stays or gives way. -/
theorem GraysInto.word (h : GraysInto tail tail' closers ls ls') (hnamed : l.token.isNamed)
    {v : Value} (hcall : v.isCall = false) (hcss : v.css = l.raw)
    (heq : ∀ ls, ofLexemes (l :: ls) = v :: ofLexemes ls) :
    ∃ ls', GraysInto tail tail' closers (l :: ls) ls' := by
  cases hgrayed : v.grayed? with
  | none =>
    refine ⟨l :: ls', .keep l h.recolored, ?_, ?_, ?_⟩
    · rw [heq, heq, grayAll, gray_of_none hgrayed hcall, h.values]
    · rw [List.map_cons, List.foldlM_cons, closersAfter_of_isNamed hnamed]
      exact h.closed
    · rw [heq, cssAll, written_cons, h.written_eq, hcss, hraw, String.toList_append]
  | some g =>
    obtain ⟨⟨digits, rfl, hdigits⟩, hstarts⟩ := exists_of_grayed? hgrayed
    rw [hcss, hraw] at hstarts
    refine ⟨ofDigits digits :: ls', .word hnamed hstarts hdigits h.recolored, ?_, h.closed, ?_⟩
    · rw [ofLexemes_ofDigits hdigits, heq, grayAll, gray_of_grayed? hgrayed, h.values]
    · rw [ofLexemes_ofDigits hdigits, cssAll, css, written_cons, toList_source_ofDigits,
        h.written_eq]
      simp

end

section

variable {tail tail' rest rest' args args' : List Lexeme} {closers : List Token} {l r : Lexeme}
  {name : String} (hl : l.token = .function name) (hr : r.token = .rightParen)
  (hspelled : l.Spelled) (hspelled' : r.Spelled) (hraw : l.raw = l.source)

include hl hr hspelled hspelled' hraw

theorem toList_css_group (vs : List Value) :
    (css (call (String.ofList l.raw.toList.dropLast) vs)).toList =
      l.source.toList ++ ((cssAll vs).toList ++ r.source.toList) := by
  rw [Spelled, hl] at hspelled
  obtain ⟨n, hn⟩ := hspelled
  have hparen := hspelled'.toList_source (c := ')') hr rfl
  rw [css, hraw, hn, hparen]
  simp

/-- A call gives way where what comes after it does not go on with a name. -/
theorem GraysInto.call (h : GraysInto tail tail' closers rest rest')
    (hargs : (args.map token).foldlM closersAfter [] = some []) {digits : String}
    (hgrayed : (Value.call (String.ofList l.raw.toList.dropLast) (ofLexemes args)).grayed? =
      some (hexColor digits))
    (hapart : Lexer.continuesName (written (rest' ++ tail')) = false) :
    GraysInto tail tail' closers (l :: (args ++ r :: rest)) (ofDigits digits :: rest') := by
  obtain ⟨⟨digits', heq, hdigits⟩, d, p, hcss, hd⟩ := exists_of_grayed? hgrayed
  obtain rfl := hexColor.inj heq
  have hstarts : ∃ d p, l.source.toList = d :: p ∧ isFront d := by
    rw [toList_css_group hl hr hspelled hspelled' hraw] at hcss
    rw [Spelled, hl] at hspelled
    obtain ⟨n, hn⟩ := hspelled
    cases hsource : l.source.toList with
    | nil => simp [hsource] at hn
    | cons c q =>
      rw [hsource, List.cons_append] at hcss
      exact ⟨c, q, rfl, by rw [(List.cons.inj hcss).1]; exact hd⟩
  refine ⟨?_, ?_, h.closed, ?_⟩
  · have hclosed : ((l :: (args ++ [r])).map token).foldlM closersAfter [] = some [] :=
      foldlM_group hl hr hargs [] []
    have hcall := Recolored.call hclosed hstarts hdigits hapart h.recolored
    simpa using hcall
  · rw [ofLexemes_ofDigits hdigits, ofLexemes_group hl hr hargs, grayAll, gray_of_grayed? hgrayed,
      h.values]
  · rw [ofLexemes_ofDigits hdigits, cssAll, css, written_cons, toList_source_ofDigits,
      h.written_eq]
    simp

/-- A call stays, with grays among its arguments. -/
theorem GraysInto.group (h : GraysInto tail tail' closers rest rest')
    (hargs : GraysInto (r :: (rest ++ tail)) (r :: (rest' ++ tail')) [] args args')
    (hclosed : (args.map token).foldlM closersAfter [] = some [])
    (hgrayed : (Value.call (String.ofList l.raw.toList.dropLast) (ofLexemes args)).grayed? =
      none) :
    GraysInto tail tail' closers (l :: (args ++ r :: rest)) (l :: (args' ++ r :: rest')) := by
  refine ⟨?_, ?_, ?_, ?_⟩
  · have hrecolored := Recolored.keep l hargs.recolored
    simpa using hrecolored
  · rw [ofLexemes_group hl hr hclosed, ofLexemes_group hl hr hargs.closed, grayAll,
      gray_call hgrayed, hargs.values, h.values]
  · rw [foldlM_group hl hr hargs.closed]
    exact h.closed
  · rw [ofLexemes_group hl hr hargs.closed, cssAll, String.toList_append,
      toList_css_group hl hr hspelled hspelled' hraw, written_cons, written_append, written_cons,
      hargs.written_eq, h.written_eq]
    simp

end

theorem written_of_rightParen {r : Lexeme} (h : r.Spelled) (hr : r.token = .rightParen)
    (ls : List Lexeme) : written (r :: ls) = ')' :: written ls := by
  rw [written_cons, h.toList_source (c := ')') hr rfl]
  rfl

/-- The text of values that are read from a run is that of the run. -/
theorem written_eq_cssAll {ls tail : List Lexeme} {closers : List Token}
    (hcut : CutsInto (written (ls ++ tail)) (ls ++ tail))
    (hclosed : (ls.map token).foldlM closersAfter closers = some []) :
    written (ls ++ tail) = (cssAll (ofLexemes ls)).toList ++ written tail := by
  have hspelled : ∀ l ∈ ls, l.Spelled := fun l hl => hcut.spelled l (List.mem_append_left tail hl)
  have hraw : ∀ l ∈ ls, l.raw = l.source := fun l hl => hcut.raw_eq l (List.mem_append_left tail hl)
  rw [cssAll_ofLexemes hspelled hclosed, toList_joined hraw, written_append]

/-- The lexemes of values give way to those of the values with grays in them. -/
theorem exists_graysInto {ls tail tail' : List Lexeme} {closers : List Token}
    (hs : ∀ l ∈ ls, l.Spelled) (hraw : ∀ l ∈ ls, l.raw = l.source)
    (hclosed : (ls.map token).foldlM closersAfter closers = some [])
    (htail : Recolored tail tail') (hapart : callsApartAll (written tail') (ofLexemes ls)) :
    ∃ ls', GraysInto tail tail' closers ls ls' := by
  have hrun := closedRun_iff.2 hclosed
  clear hclosed
  induction hrun generalizing tail tail' with
  | nil => exact ⟨[], .nil htail⟩
  | word v isNamed notCall isWritten reads _ ih =>
    rw [List.forall_mem_cons] at hs hraw
    rw [reads, callsApartAll, Bool.and_eq_true] at hapart
    obtain ⟨ls', h⟩ := ih hs.2 hraw.2 htail hapart.2
    exact h.word hraw.1 isNamed notCall (isWritten hs.1) reads
  | @other _ _ l _ after reads _ ih =>
    rw [List.forall_mem_cons] at hs hraw
    rw [reads, callsApartAll_pushOther] at hapart
    obtain ⟨ls', h⟩ := ih hs.2 hraw.2 htail hapart
    exact ⟨l :: ls', h.other hraw.1 after reads⟩
  | @call _ l r args rest _ isFunction closes inside _ ihInside ihBehind =>
    rw [List.forall_mem_cons, List.forall_mem_append, List.forall_mem_cons] at hs hraw
    obtain ⟨hl, hargs, hr, hrest⟩ := hs
    obtain ⟨hlraw, hargsRaw, -, hrestRaw⟩ := hraw
    have hclosed := inside.foldlM_eq
    rw [ofLexemes_group isFunction closes hclosed, callsApartAll, Bool.and_eq_true] at hapart
    obtain ⟨rest', h⟩ := ihBehind hrest hrestRaw htail hapart.2
    have hwritten : written (rest' ++ tail') =
        (cssAll (grayAll (ofLexemes rest))).toList ++ written tail' := by
      rw [written_append, h.written_eq, h.values]
    rw [callsApart, ← hwritten] at hapart
    cases hgrayed : (call (String.ofList l.raw.toList.dropLast) (ofLexemes args)).grayed? with
    | some g =>
      obtain ⟨⟨digits, rfl, -⟩, -⟩ := exists_of_grayed? hgrayed
      rw [hgrayed, Option.isSome_some, if_pos rfl, Bool.not_eq_true'] at hapart
      exact ⟨_, h.call isFunction closes hl hr hlraw hclosed hgrayed hapart.1⟩
    | none =>
      rw [hgrayed, Option.isSome_none, if_neg Bool.false_ne_true] at hapart
      rw [← written_of_rightParen hr closes] at hapart
      obtain ⟨args', h'⟩ := ihInside hargs hargsRaw (.keep r h.recolored) hapart.1
      exact ⟨_, h.group isFunction closes hl hr hlraw h' hclosed hgrayed⟩

/-- The colors of a run that is cut off end where their digits do. -/
theorem colorsApartAll_ofLexemes {ls tail : List Lexeme} {closers : List Token}
    (hcut : CutsInto (written (ls ++ tail)) (ls ++ tail))
    (hclosed : (ls.map token).foldlM closersAfter closers = some []) :
    colorsApartAll (written tail) (ofLexemes ls) := by
  have hrun := closedRun_iff.2 hclosed
  clear hclosed
  induction hrun generalizing tail with
  | nil =>
    rw [ofLexemes]
    rfl
  | @word _ l ls v isNamed notCall _ reads rest ih =>
    have hrest : CutsInto (written (ls ++ tail)) (ls ++ tail) := CutsInto.after [l] hcut
    have hend : Lexer.continuesName (written (ls ++ tail)) = false :=
      continuesName_of_isNamed isNamed hcut
    rw [reads, colorsApartAll, Bool.and_eq_true, ← written_eq_cssAll hrest rest.foldlM_eq]
    exact ⟨colorsApart_of_not_call notCall hend, ih hrest⟩
  | @other _ _ l _ _ reads _ ih =>
    rw [reads, colorsApartAll_pushOther]
    exact ih (CutsInto.after [l] hcut)
  | @call _ l r args rest _ isFunction closes inside behind ihInside ihBehind =>
    have hsplit : args ++ r :: rest ++ tail = args ++ r :: (rest ++ tail) := by simp
    have hinside : CutsInto (written (args ++ r :: rest ++ tail)) (args ++ r :: rest ++ tail) :=
      CutsInto.after [l] hcut
    rw [hsplit] at hinside
    have hfrom := hinside.after args
    have hbehind := hfrom.after [r]
    rw [ofLexemes_group isFunction closes inside.foldlM_eq, colorsApartAll, colorsApart,
      Bool.and_eq_true, ← written_eq_cssAll hbehind behind.foldlM_eq,
      ← written_of_rightParen (hfrom.spelled r List.mem_cons_self) closes]
    exact ⟨ihInside hinside, ihBehind hbehind⟩

end Value

/-! ## Declarations -/

namespace Declaration

section

variable {d : Declaration} {l c : Lexeme} {value mark : List Lexeme}

/-- There is no hash in the mark `!important`, and it opens and closes nothing. -/
theorem EndsIn.neutral {important : Bool} (h : EndsIn important value mark) :
    (∀ k ∈ mark, ∀ name kind, k.token ≠ .hash name kind) ∧
      ∀ t ∈ mark.map token, ∀ closers, closersAfter closers t = some closers := by
  cases h with
  | plain => simp
  | @important _ _ _ _ isBang isWord _ =>
    have hspaces : ∀ l ∈ ([] : List Lexeme), l.isSpace := by simp
    refine ⟨?_, closersAfter_of_mark isBang hspaces isWord⟩
    simp [isBang, isWord]

theorem EndsIn.head?_not_space {important : Bool} (h : EndsIn important value mark) :
    ∀ k ∈ mark.head?, k.isSpace = false := by
  cases h with
  | plain => simp
  | important isBang => simp [Lexeme.isSpace, isBang]

theorem EndsIn.recolored {important : Bool} {value' : List Lexeme}
    (h : EndsIn important value mark) (hvalue : Recolored (value ++ mark) (value' ++ mark)) :
    EndsIn important value' mark := by
  cases h with
  | important isBang isWord isName => exact .important isBang isWord isName
  | plain notMarked =>
    rcases splitImportant_cases value' with h | ⟨front, bang, spaces, word, name, -, rfl, isBang,
      areSpaces, isWord, isName⟩
    · exact .plain h
    · have hnot : ∀ k ∈ bang :: (spaces ++ [word]), ∀ name kind, k.token ≠ .hash name kind := by
        intro k hk name kind heq
        simp only [List.mem_cons, List.mem_append, List.not_mem_nil, or_false] at hk
        rcases hk with rfl | hk | rfl
        · simp [isBang] at heq
        · simpa [Lexeme.isSpace, heq] using areSpaces k hk
        · simp [isWord] at heq
      rw [List.append_nil, List.append_nil] at hvalue
      obtain ⟨front', rfl⟩ := hvalue.exists_of_append hnot
      rw [splitImportant_of_mark front' isBang areSpaces isWord isName] at notMarked
      cases (Prod.mk.inj notMarked).2

theorem Layout.closed (h : Layout d l c value mark) :
    (value.map token).foldlM closersAfter [] = some [] := by
  have hclosed := foldlM_of_isRun h.isRun
  rwa [List.map_append, foldlM_append_neutral _ h.endsIn.neutral.2] at hclosed

/-- The mark is written as the printer does it. -/
theorem Layout.written_mark (h : Layout d l c value mark) :
    written mark = if d.important then "!important".toList else [] := by
  have hwritten := h.cutsInto.written
  have hraw := h.cutsInto.raw_eq
  have hspelled := h.cutsInto.spelled
  have hcolon := (hspelled c (by simp)).toList_source (c := ':') h.isColon rfl
  have hvalue := Value.cssAll_ofLexemes (fun x hx => hspelled x (by simp [hx])) h.closed
  have hjoined : (joined value).toList = written value :=
    toList_joined fun x hx => hraw x (by simp [hx])
  rw [h.values] at hvalue
  rw [toList_css, ← h.raw_eq, hraw l (by simp), hvalue, hjoined] at hwritten
  simp only [written_cons, written_append, hcolon, List.append_cancel_left_eq] at hwritten
  exact hwritten

theorem Layout.isTrimmed_recolored (h : Layout d l c value mark) {value' : List Lexeme}
    (hvalue : Recolored (value ++ mark) (value' ++ mark)) : IsTrimmed value' := by
  have hmark := h.endsIn.neutral.1
  refine ⟨fun x hx => hvalue.head?_not_space (fun y hy => ?_) x ?_, fun as x heq => ?_⟩
  · cases value with
    | cons v value => exact h.isTrimmed.head y hy
    | nil =>
      exact h.endsIn.head?_not_space y hy
  · rw [List.head?_append, Option.mem_def.1 hx, Option.some_or, Option.mem_def]
  · by_contra hspace
    subst heq
    have hnot : ∀ k ∈ x :: mark, ∀ name kind, k.token ≠ .hash name kind := by
      intro k hk name kind heq
      rcases List.mem_cons.1 hk with rfl | hk
      · simp [Lexeme.isSpace, heq] at hspace
      · exact hmark k hk name kind heq
    rw [List.append_assoc] at hvalue
    obtain ⟨as', has⟩ := hvalue.exists_of_append hnot
    have has : value ++ mark = (as' ++ [x]) ++ mark := by simpa using has
    exact hspace (h.isTrimmed.last as' x (List.append_cancel_right has))

/-- A layout in which the grays replace calls that end where they do. -/
theorem Layout.gray (h : Layout d l c value mark) (hapart : d.callsApart) :
    ∃ value', Layout d.gray l c value' mark := by
  have hspelled := h.cutsInto.spelled
  have hraw := h.cutsInto.raw_eq
  rw [callsApart, ← h.written_mark, ← h.values] at hapart
  obtain ⟨value', hvalue⟩ := Value.exists_graysInto (fun x hx => hspelled x (by simp [hx]))
    (fun x hx => hraw x (by simp [hx])) h.closed (.refl mark) hapart
  have hrecolored := hvalue.recolored
  refine ⟨value', h.isName, h.raw_eq, h.isColon, hrecolored.isRun (fun _ _ => rfl) h.isRun, ?_,
    h.isTrimmed_recolored hrecolored, h.endsIn.recolored hrecolored, ?_⟩
  · rw [hvalue.values, h.values]
    rfl
  · have hcut := (Recolored.keep l (.keep c hrecolored)).cutsInto [] (by
      have hcut := h.cutsInto
      rwa [← hcut.written] at hcut)
    have hcolon := (hspelled c (by simp)).toList_source (c := ':') h.isColon rfl
    have hcss : written (l :: c :: (value' ++ mark)) = d.gray.css.toList := by
      rw [written_cons, written_cons, written_append, hvalue.written_eq, hvalue.values, h.values,
        h.written_mark, hcolon, ← hraw l (by simp), h.raw_eq, toList_css]
      rfl
    rwa [List.nil_append, hcss] at hcut

/-- Where grays are read back, those in the place of calls end where the calls did. -/
theorem Layout.callsApart (h : Layout d.gray l c value mark) : d.callsApart := by
  have hcut := h.cutsInto.after [l, c]
  have hcolors := Value.colorsApartAll_ofLexemes hcut h.closed
  rw [h.values, h.written_mark] at hcolors
  exact Value.callsApartAll_of_grayAll hcolors

end

/-- The value of a custom property is source text. -/
theorem value_of_isCustom {d : Declaration} (h : d.readsBack) (hcustom : d.isCustom) :
    d.value = [] ∨ ∃ text, d.value = [.other text] := by
  obtain ⟨ls, -, hreads⟩ := readsBack_iff.1 h
  obtain ⟨-, l, -, -, value, -, -, -, -, -, -, -, -, hd⟩ :=
    hreads.exists_of_mem (List.mem_singleton_self d)
  have hvalue := @ofLexemes_eq l.raw value _ _ (Prod.eta _).symm
  rw [← hd] at hvalue
  have hname : d.name = l.raw := by rw [hd]; rfl
  rw [isCustom, hname] at hcustom
  rw [hvalue, if_pos hcustom]
  split_ifs
  · exact .inl rfl
  · exact .inr ⟨_, rfl⟩

/-- A declaration that is read back is read back with grays in it if and only if each gray in the
place of a call ends where the call did. -/
theorem readsBack_gray_iff {d : Declaration} (h : d.readsBack) :
    d.gray.readsBack ↔ d.callsApart := by
  cases hcustom : d.isCustom with
  | true =>
    have hgray : d.gray = d ∧ d.callsApart := by
      obtain ⟨name, value, important⟩ := d
      rcases value_of_isCustom h hcustom with hvalue | ⟨text, hvalue⟩ <;>
        obtain rfl : value = _ := hvalue
      · exact ⟨rfl, rfl⟩
      · refine ⟨rfl, ?_⟩
        simp [callsApart, Value.callsApartAll, Value.callsApart]
    rw [hgray.1]
    exact ⟨fun _ => hgray.2, fun _ => h⟩
  | false =>
    constructor
    · intro hgray
      obtain ⟨l, c, value, mark, hlayout⟩ := exists_layout hgray hcustom
      exact hlayout.callsApart
    · intro hapart
      obtain ⟨l, c, value, mark, hlayout⟩ := exists_layout h hcustom
      obtain ⟨value', hlayout'⟩ := hlayout.gray hapart
      exact hlayout'.readsBack hcustom

end Declaration

end Restyle.Css
