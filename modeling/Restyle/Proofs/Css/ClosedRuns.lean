import Restyle.Css.Printer
import Restyle.Proofs.Css.Grammar
import Restyle.Proofs.Css.Spelling

/-!
# Runs that close their groups

A run of lexemes that closes every group it opens, and those that were open before it, is made of
words, of calls with their arguments, and of other source text. `Value.ClosedRun` builds such runs
up in the way their values are read (`Value.closedRun_iff`).
-/

namespace Restyle.Css

open Lexeme

/-! ## Open groups -/

/-- Whether a token is made of name characters, as an identifier or as a hash. -/
def Token.isNamed : Token → Bool
  | ident _ | hash _ _ => true
  | _ => false

/-- A word opens and closes nothing. -/
theorem closersAfter_of_isNamed {t : Token} (h : t.isNamed) (closers : List Token) :
    closersAfter closers t = some closers := by
  cases t <;> first | rfl | cases h

theorem closersAfter_append {closers inner : List Token} {t : Token}
    (h : closersAfter closers t = some inner) (outer : List Token) :
    closersAfter (closers ++ outer) t = some (inner ++ outer) := by
  cases t
  case rightParen | rightBracket =>
    cases closers with
    | nil => cases h
    | cons c closers =>
      simp only [closersAfter, List.cons_append] at h ⊢
      split_ifs at h ⊢
      rw [← Option.some.inj h]
  case leftBrace | rightBrace => cases h
  all_goals
    rw [← Option.some.inj h]
    rfl

theorem foldlM_closersAfter_append {closers inner ts : List Token}
    (h : ts.foldlM closersAfter closers = some inner) (outer : List Token) :
    ts.foldlM closersAfter (closers ++ outer) = some (inner ++ outer) := by
  induction ts generalizing closers with
  | nil =>
    rw [← Option.some.inj h]
    rfl
  | cons t ts ih =>
    rw [List.foldlM_cons] at h ⊢
    obtain ⟨closers', hafter, h⟩ := Option.bind_eq_some_iff.1 h
    rw [closersAfter_append hafter]
    exact ih h

/-- A token closes the group outside of all others, or it stays inside of it. -/
theorem closersAfter_append_cases {closers outer after : List Token} {c t : Token}
    (h : closersAfter (closers ++ c :: outer) t = some after) :
    (closers = [] ∧ t = c ∧ after = outer) ∨
      ∃ closers', closersAfter closers t = some closers' ∧ after = closers' ++ c :: outer := by
  cases t
  case rightParen | rightBracket =>
    cases closers with
    | nil =>
      simp only [closersAfter, List.nil_append] at h
      split_ifs at h with hc
      exact .inl ⟨rfl, hc.symm, (Option.some.inj h).symm⟩
    | cons k closers =>
      simp only [closersAfter, List.cons_append] at h ⊢
      split_ifs at h ⊢
      exact .inr ⟨closers, rfl, (Option.some.inj h).symm⟩
  case leftBrace | rightBrace => cases h
  all_goals exact .inr ⟨_, rfl, (Option.some.inj h).symm⟩

/-- A run leaves no group open. -/
theorem foldlM_of_isRun {stop : Token → Bool} {closers ts : List Token}
    (h : isRun stop closers ts) : ts.foldlM closersAfter closers = some [] := by
  induction ts generalizing closers with
  | nil =>
    rw [isRun_nil_iff.1 h]
    rfl
  | cons t ts ih =>
    obtain ⟨-, closers', hafter, h⟩ := isRun_cons_iff.1 h
    rw [List.foldlM_cons, hafter]
    exact ih h

/-- What closes an open group cuts a run in two. -/
theorem exists_closing {closers outer : List Token} {c : Token} {ls : List Lexeme}
    (h : (ls.map token).foldlM closersAfter (closers ++ c :: outer) = some []) :
    ∃ inner r rest, ls = inner ++ r :: rest ∧ r.token = c ∧
      (inner.map token).foldlM closersAfter closers = some [] ∧
        (rest.map token).foldlM closersAfter outer = some [] := by
  induction ls generalizing closers with
  | nil => simp at h
  | cons l ls ih =>
    rw [List.map_cons, List.foldlM_cons] at h
    obtain ⟨after, hafter, hls⟩ := Option.bind_eq_some_iff.1 h
    rcases closersAfter_append_cases hafter with ⟨rfl, ht, rfl⟩ | ⟨closers', hafter', rfl⟩
    · exact ⟨[], l, ls, rfl, ht, rfl, hls⟩
    · obtain ⟨inner, r, rest, rfl, hr, hinner, hrest⟩ := ih hls
      refine ⟨l :: inner, r, rest, rfl, hr, ?_, hrest⟩
      rw [List.map_cons, List.foldlM_cons, hafter']
      exact hinner

/-- A lexeme that does not close the function is among its arguments. -/
theorem arguments_cons {closers closers' : List Token} {l : Lexeme}
    (h : closersAfter closers l.token = some closers') (ls : List Lexeme) :
    arguments (closers.count .rightParen) (l :: ls) =
      (l :: (arguments (closers'.count .rightParen) ls).1,
        (arguments (closers'.count .rightParen) ls).2) := by
  obtain ⟨t, source, start⟩ := l
  cases t
  case rightParen | rightBracket =>
    cases closers with
    | nil => cases h
    | cons c closers =>
      simp only [closersAfter] at h
      split_ifs at h with hc
      obtain rfl := Option.some.inj h
      subst hc
      first
      | rw [List.count_cons_self]
      | rw [List.count_cons_of_ne (by decide)]
      rfl
  case function | leftParen =>
    obtain rfl := Option.some.inj h
    rw [List.count_cons_self]
    rfl
  case leftBracket =>
    obtain rfl := Option.some.inj h
    rw [List.count_cons_of_ne (by decide)]
    rfl
  case leftBrace | rightBrace => cases h
  all_goals
    obtain rfl := Option.some.inj h
    rfl

/-- Closed groups before a parenthesis are the arguments that it closes. -/
theorem arguments_append {closers : List Token} {args : List Lexeme}
    (h : (args.map token).foldlM closersAfter closers = some []) {r : Lexeme}
    (hr : r.token = .rightParen) (rest : List Lexeme) :
    arguments (closers.count .rightParen) (args ++ r :: rest) = (args, rest) := by
  induction args generalizing closers with
  | nil =>
    obtain rfl : closers = [] := Option.some.inj h
    obtain ⟨t, source, start⟩ := r
    cases hr
    rfl
  | cons l args ih =>
    rw [List.map_cons, List.foldlM_cons] at h
    obtain ⟨closers', hafter, h⟩ := Option.bind_eq_some_iff.1 h
    rw [List.cons_append, arguments_cons hafter, ih h]

namespace Value

/-! ## Values of a run, by its first lexeme -/

section

variable {l : Lexeme} (ls : List Lexeme)

theorem ofLexemes_ident {name : String} (h : l.token = .ident name) :
    ofLexemes (l :: ls) = identifier l.raw :: ofLexemes ls := by
  rw [ofLexemes]
  simp [h]

theorem ofLexemes_hash {name : String} {kind : HashKind} (h : l.token = .hash name kind) :
    ofLexemes (l :: ls) =
      if isHexColor (String.ofList (l.raw.toList.drop 1)) then
        hexColor (String.ofList (l.raw.toList.drop 1)) :: ofLexemes ls
      else pushOther l.raw (ofLexemes ls) := by
  rw [ofLexemes]
  simp [h]

theorem ofLexemes_function {name : String} (h : l.token = .function name) :
    ofLexemes (l :: ls) =
      call (String.ofList l.raw.toList.dropLast) (ofLexemes (arguments 0 ls).1) ::
        ofLexemes (arguments 0 ls).2 := by
  rw [ofLexemes]
  simp [h]

theorem ofLexemes_other (hnamed : l.token.isNamed = false) (h : ∀ name, l.token ≠ .function name) :
    ofLexemes (l :: ls) = pushOther l.raw (ofLexemes ls) := by
  rw [ofLexemes]
  split
  · rename_i htoken
    rw [htoken] at hnamed
    cases hnamed
  · rename_i htoken
    rw [htoken] at hnamed
    cases hnamed
  · rename_i htoken
    exact absurd htoken (h _)
  · rfl

end

section

variable {args : List Lexeme} {l r : Lexeme} {name : String} (hl : l.token = .function name)
  (hr : r.token = .rightParen) (hargs : (args.map token).foldlM closersAfter [] = some [])
  (rest : List Lexeme)

include hl hr hargs

theorem ofLexemes_group :
    ofLexemes (l :: (args ++ r :: rest)) =
      call (String.ofList l.raw.toList.dropLast) (ofLexemes args) :: ofLexemes rest := by
  have harguments := arguments_append hargs hr rest
  rw [List.count_nil] at harguments
  rw [ofLexemes_function _ hl, harguments]

theorem foldlM_group (closers : List Token) :
    ((l :: (args ++ r :: rest)).map token).foldlM closersAfter closers =
      (rest.map token).foldlM closersAfter closers := by
  have hargs := foldlM_closersAfter_append hargs (.rightParen :: closers)
  rw [List.nil_append] at hargs
  rw [List.map_cons, List.foldlM_cons, hl, List.map_append]
  change List.foldlM closersAfter (.rightParen :: closers) _ = _
  rw [List.foldlM_append, hargs, List.map_cons]
  change List.foldlM closersAfter (.rightParen :: closers) _ = _
  rw [List.foldlM_cons, hr]
  rfl

end

/-! ## Runs, by the values that are read from them -/

/-- Runs that close the groups that are open, and all others they open. -/
inductive ClosedRun : List Token → List Lexeme → Prop where
  /-- Nothing is left, and no group is open. -/
  | nil : ClosedRun [] []
  /-- An identifier or a hex color comes first. -/
  | word {closers : List Token} {l : Lexeme} {ls : List Lexeme} (v : Value)
      (isNamed : l.token.isNamed) (notCall : v.isCall = false)
      (isWritten : l.Spelled → v.css = l.raw)
      (reads : ∀ ls, ofLexemes (l :: ls) = v :: ofLexemes ls) (rest : ClosedRun closers ls) :
      ClosedRun closers (l :: ls)
  /-- Other source text comes first, and may open or close a group. -/
  | other {closers closers' : List Token} {l : Lexeme} {ls : List Lexeme}
      (after : closersAfter closers l.token = some closers')
      (reads : ∀ ls, ofLexemes (l :: ls) = pushOther l.raw (ofLexemes ls))
      (rest : ClosedRun closers' ls) : ClosedRun closers (l :: ls)
  /-- A call comes first. -/
  | call {closers : List Token} {l r : Lexeme} {args rest : List Lexeme} {name : String}
      (isFunction : l.token = .function name) (closes : r.token = .rightParen)
      (inside : ClosedRun [] args) (behind : ClosedRun closers rest) :
      ClosedRun closers (l :: (args ++ r :: rest))

theorem ClosedRun.foldlM_eq {closers : List Token} {ls : List Lexeme} (h : ClosedRun closers ls) :
    (ls.map token).foldlM closersAfter closers = some [] := by
  induction h with
  | nil => rfl
  | word _ isNamed _ _ _ _ ih =>
    rw [List.map_cons, List.foldlM_cons, closersAfter_of_isNamed isNamed]
    exact ih
  | other after _ _ ih =>
    rw [List.map_cons, List.foldlM_cons, after]
    exact ih
  | call isFunction closes _ _ ihInside ihBehind =>
    rw [foldlM_group isFunction closes ihInside]
    exact ihBehind

theorem closedRun_of_foldlM {closers : List Token} {ls : List Lexeme}
    (h : (ls.map token).foldlM closersAfter closers = some []) : ClosedRun closers ls := by
  induction hn : ls.length using Nat.strongRecOn generalizing ls closers with
  | ind n ih =>
    subst hn
    cases ls with
    | nil =>
      obtain rfl : closers = [] := Option.some.inj h
      exact .nil
    | cons l ls =>
      rw [List.map_cons, List.foldlM_cons] at h
      obtain ⟨closers', hafter, h⟩ := Option.bind_eq_some_iff.1 h
      have hrest : ClosedRun closers' ls := ih _ (Nat.lt_succ_self _) h rfl
      have hsame : l.token.isNamed → ClosedRun closers ls := by
        intro hnamed
        rw [closersAfter_of_isNamed hnamed] at hafter
        rwa [Option.some.inj hafter]
      cases htoken : l.token with
      | ident name =>
        have hnamed : l.token.isNamed := by rw [htoken]; rfl
        exact .word (identifier l.raw) hnamed rfl (fun _ => rfl) (ofLexemes_ident · htoken)
          (hsame hnamed)
      | hash name kind =>
        by_cases hhex : isHexColor (String.ofList (l.raw.toList.drop 1))
        · have hnamed : l.token.isNamed := by rw [htoken]; rfl
          refine .word (hexColor (String.ofList (l.raw.toList.drop 1))) hnamed rfl
            (fun hspelled => ?_) (fun ls => ?_) (hsame hnamed)
          · rw [Spelled, htoken] at hspelled
            obtain ⟨n, hn⟩ := hspelled
            rw [css, raw, if_neg (by simp [htoken]), ← String.toList_inj, hn]
            simp
          · rw [ofLexemes_hash ls htoken, if_pos hhex]
        · refine .other hafter (fun ls => ?_) hrest
          rw [ofLexemes_hash ls htoken, if_neg hhex]
      | function name =>
        rw [htoken] at hafter
        obtain rfl := Option.some.inj hafter
        obtain ⟨args, r, rest, rfl, hr, hargs, hafter⟩ := @exists_closing [] _ _ _ h
        have hlt : args.length < (l :: (args ++ r :: rest)).length ∧
            rest.length < (l :: (args ++ r :: rest)).length := by
          simp only [List.length_append, List.length_cons]
          omega
        exact .call htoken hr (ih _ hlt.1 hargs rfl) (ih _ hlt.2 hafter rfl)
      | _ =>
        exact .other hafter (fun ls => ofLexemes_other ls (by rw [htoken]; rfl) (by simp [htoken]))
          hrest

theorem closedRun_iff {closers : List Token} {ls : List Lexeme} :
    ClosedRun closers ls ↔ (ls.map token).foldlM closersAfter closers = some [] :=
  ⟨ClosedRun.foldlM_eq, closedRun_of_foldlM⟩

end Value

end Restyle.Css
