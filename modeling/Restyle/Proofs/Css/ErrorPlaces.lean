import Restyle.Proofs.Css.ReadsBack
import Restyle.Proofs.Css.Spelling
import Restyle.Proofs.Css.Tiling

/-!
# Where errors point

The offset of an error is where the token starts that the error is about. `ParseError.IsTrueOf` says
of a run of lexemes that an error is so there, each reader gives such errors only, and so does the
reader of whole texts. Main statement: an error points between two characters, at a token of its
kind, and at a brace that has no match (`Stylesheet.parse_eq_error`). One kind of matched brace is
told to close nothing: the one after a rule without a block in a conditional group
(`parse_eq_error_matched`).
-/

namespace Restyle.Css

open Text Lexeme

theorem bind_eq_error_iff {ε α β : Type} {x : Except ε α} {f : α → Except ε β} {e : ε} :
    (x >>= f) = .error e ↔ x = .error e ∨ ∃ a, x = .ok a ∧ f a = .error e := by
  cases x <;> simp [bind, Except.bind]

theorem bind_cons_eq_error_iff {ε α : Type} {x : Except ε (List α)} {a : α} {e : ε} :
    (x >>= fun rest => pure (a :: rest)) = .error e ↔ x = .error e := by
  cases x <;> simp [bind, Except.bind, pure, Except.pure]

/-! ## Braces that match -/

/-- Whether a block that is open before these lexemes is closed in them: between its braces, all
braces match. -/
def ClosesBlock (ls : List Lexeme) : Prop :=
  ∃ body r rest, ls = body ++ r :: rest ∧ r.token = .rightBrace ∧ isBalanced 0 (body.map token)

/-- Whether a block is open at the end of these lexemes: after its brace, all braces match. -/
def LeavesBlockOpen (ls : List Lexeme) : Prop :=
  ∃ before b body, ls = before ++ b :: body ∧ b.token = .leftBrace ∧ isBalanced 0 (body.map token)

theorem exists_isBalanced_of_append {depth : Nat} {ts us : List Token}
    (h : isBalanced depth (ts ++ us)) : ∃ inner, isBalanced inner us := by
  induction ts generalizing depth with
  | nil => exact ⟨depth, h⟩
  | cons t ts ih =>
    cases t
    case rightBrace =>
      cases depth with
      | zero => cases h
      | succ depth => exact ih h
    all_goals exact ih h

/-- Lexemes that close one block more than they open do so at some brace. -/
theorem exists_closing_brace {depth inner : Nat} {ls : List Lexeme}
    (h : isBalanced (inner + 1 + depth) (ls.map token)) :
    ∃ body r rest, ls = body ++ r :: rest ∧ r.token = .rightBrace ∧
      isBalanced inner (body.map token) := by
  induction ls generalizing inner with
  | nil =>
    rw [List.map_nil, isBalanced, beq_iff_eq] at h
    omega
  | cons l ls ih =>
    obtain ⟨t, source, start⟩ := l
    cases t
    case leftBrace =>
      have hinner : isBalanced (inner + 1 + 1 + depth) (ls.map token) := by
        rw [Nat.add_right_comm]
        exact h
      obtain ⟨body, r, rest, rfl, hr, hbody⟩ := ih hinner
      exact ⟨_ :: body, r, rest, rfl, hr, hbody⟩
    case rightBrace =>
      cases inner with
      | zero => exact ⟨[], _, ls, rfl, rfl, rfl⟩
      | succ inner =>
        rw [Nat.add_right_comm] at h
        have hinner : isBalanced (inner + 1 + depth) (ls.map token) := h
        obtain ⟨body, r, rest, rfl, hr, hbody⟩ := ih hinner
        exact ⟨_ :: body, r, rest, rfl, hr, hbody⟩
    all_goals
      obtain ⟨body, r, rest, rfl, hr, hbody⟩ := ih h
      exact ⟨_ :: body, r, rest, rfl, hr, hbody⟩

section

variable {before after : List Lexeme} {b : Lexeme} (opens : b.token = .leftBrace)

include opens

theorem exists_isBalanced_after {depth : Nat}
    (h : isBalanced depth ((before ++ b :: after).map token)) :
    ∃ inner, isBalanced (inner + 1) (after.map token) := by
  rw [List.map_append, List.map_cons, opens] at h
  exact exists_isBalanced_of_append h

/-- In a balanced run, every block is closed. -/
theorem closesBlock_of_isBalanced {depth : Nat}
    (h : isBalanced depth ((before ++ b :: after).map token)) : ClosesBlock after := by
  obtain ⟨inner, hafter⟩ := exists_isBalanced_after opens h
  rw [← Nat.zero_add (inner + 1), ← Nat.add_assoc, Nat.add_right_comm] at hafter
  exact exists_closing_brace hafter

end

/-- After a balanced run, no block is open. -/
theorem not_leavesBlockOpen {ls : List Lexeme} (h : isBalanced 0 (ls.map token)) :
    ¬LeavesBlockOpen ls := by
  rintro ⟨before, b, body, rfl, opens, hbody⟩
  obtain ⟨inner, hafter⟩ := exists_isBalanced_after opens h
  have hempty := isBalanced_append hbody (inner + 1) []
  rw [List.append_nil, Nat.zero_add, hafter] at hempty
  cases hempty

namespace Block

theorem eq_of_take_eq_text {size depth o : Nat} {ls : List Lexeme}
    (h : (take size depth ls).ending = .text o) : take size depth ls = ⟨ls, .text size, []⟩ := by
  induction ls generalizing depth with
  | nil => rfl
  | cons l ls ih =>
    obtain ⟨t, source, start⟩ := l
    cases t
    case rightBrace =>
      cases depth with
      | zero => cases h
      | succ depth => exact congrArg (push _) (ih h)
    all_goals exact congrArg (push _) (ih h)

/-- A block goes up to the brace that closes it, or to the end of the text if none does. -/
theorem take_cases (size : Nat) (ls : List Lexeme) :
    (∃ body r rest, ls = body ++ r :: rest ∧ r.token = .rightBrace ∧
        isBalanced 0 (body.map token) ∧ take size 0 ls = ⟨body, .brace r.start, rest⟩) ∨
      ¬ClosesBlock ls ∧ take size 0 ls = ⟨ls, .text size, []⟩ := by
  cases hending : (take size 0 ls).ending with
  | brace o =>
    obtain ⟨r, hls, hr, hbody⟩ := eq_of_take_eq_brace hending
    refine .inl ⟨_, r, _, hls, hr, hbody, ?_⟩
    conv => lhs; rw [hls]
    exact take_of_isBalanced hbody hr size _
  | text o =>
    refine .inr ⟨?_, eq_of_take_eq_text hending⟩
    rintro ⟨body, r, rest, rfl, hr, hbody⟩
    rw [take_of_isBalanced hbody hr] at hending
    cases hending

theorem finish_eq_error {α : Type} {block : Block} {offset : Nat} {read : Except ParseError α}
    {e : ParseError} (h : block.finish offset read = .error e) :
    read = .error e ∨ (∃ o, block.ending = .text o) ∧ e = .unclosedBlock offset := by
  unfold finish at h
  refine (bind_eq_error_iff.1 h).imp_right ?_
  rintro ⟨a, -, h⟩
  cases hending : block.ending with
  | brace o =>
    rw [hending] at h
    cases h
  | text o =>
    rw [hending] at h
    cases h
    exact ⟨⟨o, rfl⟩, rfl⟩

end Block

/-! ## Errors that are so -/

/-- Whether an error is about a lexeme, and says what is so of it. -/
inductive Lexeme.Explains (l : Lexeme) : ParseError → Prop where
  /-- A group starts. -/
  | unclosedGroup (opens : l.token.opensGroup) : Explains l (.unclosedGroup l.start)
  /-- A parenthesis closes. -/
  | rightParen (closes : l.token = .rightParen) : Explains l (.unbalancedGroup ')' l.start)
  /-- A bracket closes. -/
  | rightBracket (closes : l.token = .rightBracket) : Explains l (.unbalancedGroup ']' l.start)
  /-- A selector list starts. -/
  | emptySelector : Explains l (.emptySelector l.start)
  /-- A rule starts. -/
  | missingBlock : Explains l (.missingBlock l.start)
  /-- The lexeme is out of place between declarations. -/
  | invalidDeclaration (fault : DeclarationFault) :
    Explains l (.invalidDeclaration l.start fault)

theorem exists_explains_of_subset {ls ls' : List Lexeme} {e : ParseError} (hls : ls ⊆ ls')
    (h : ∃ l ∈ ls, l.Explains e) : ∃ l ∈ ls', l.Explains e := by
  obtain ⟨l, hl, hexplains⟩ := h
  exact ⟨l, hls hl, hexplains⟩

/-- Whether rules are followed by the part of a style rule before its block, and nothing else. -/
def LacksBlock (top : Bool) (ls : List Lexeme) : Prop :=
  ∃ done l run rules, ls = done ++ l :: run ∧ Rule.Reads top done rules ∧
    Rule.isSkipped top l = false ∧ (∀ name, l.token ≠ .atKeyword name) ∧
    isRun endsSelectors [] ((l :: run).map token)

/-- Whether a conditional group is open at the end of these lexemes, and ends in a rule without its
block. -/
def LeavesGroupUnfinished (ls : List Lexeme) : Prop :=
  ∃ before l head b body name, ls = before ++ l :: (head ++ b :: body) ∧
    l.token = .atKeyword name ∧ AtHead.isGroupName (Rule.atName l) ∧
    isRun endsAtHead [] (head.map token) ∧ b.token = .leftBrace ∧ LacksBlock false body

/-- Whether an error is so in a run of lexemes. The text has `size` bytes. -/
inductive ParseError.IsTrueOf (size : Nat) (ls : List Lexeme) : ParseError → Prop where
  /-- The error is about a lexeme on its own. -/
  | explained {l : Lexeme} {e : ParseError} (mem : l ∈ ls) (explains : l.Explains e) :
    IsTrueOf size ls e
  /-- Declarations break off at the end of the text. -/
  | ending (fault : DeclarationFault) : IsTrueOf size ls (.invalidDeclaration size fault)
  /-- A block is never closed. -/
  | unclosedBlock {before after : List Lexeme} {b : Lexeme} (split : ls = before ++ b :: after)
    (opens : b.token = .leftBrace) (stays : ¬ClosesBlock after) :
    IsTrueOf size ls (.unclosedBlock b.start)
  /-- A brace closes nothing. -/
  | stray {before after : List Lexeme} {r : Lexeme} (split : ls = before ++ r :: after)
    (closes : r.token = .rightBrace) (balanced : isBalanced 0 (before.map token)) :
    IsTrueOf size ls (.unexpectedCloseBrace r.start)
  /-- A brace closes a conditional group that ends in a rule without its block. -/
  | unfinished {before after : List Lexeme} {r : Lexeme} (split : ls = before ++ r :: after)
    (closes : r.token = .rightBrace) (unfinished : LeavesGroupUnfinished before) :
    IsTrueOf size ls (.unexpectedCloseBrace r.start)

theorem isBalanced_of_lacksBlock {top : Bool} {ls : List Lexeme} (h : LacksBlock top ls) :
    isBalanced 0 (ls.map token) := by
  obtain ⟨done, l, run, rules, rfl, hreads, -, -, hrun⟩ := h
  rw [List.map_append, isBalanced_append hreads.isBalanced 0]
  exact isBalanced_of_isRun hrun

/-- A conditional group that is not finished is a block that is open. -/
theorem LeavesGroupUnfinished.leavesBlockOpen {ls : List Lexeme} (h : LeavesGroupUnfinished ls) :
    LeavesBlockOpen ls := by
  obtain ⟨before, l, head, b, body, name, rfl, -, -, -, opens, hbody⟩ := h
  exact ⟨before ++ l :: head, b, body, by simp, opens, isBalanced_of_lacksBlock hbody⟩

theorem LeavesGroupUnfinished.append_left {ls : List Lexeme} (h : LeavesGroupUnfinished ls)
    (front : List Lexeme) : LeavesGroupUnfinished (front ++ ls) := by
  obtain ⟨before, l, head, b, body, name, rfl, h⟩ := h
  exact ⟨front ++ before, l, head, b, body, name, (List.append_assoc _ _ _).symm, h⟩

namespace ParseError.IsTrueOf

variable {size : Nat} {ls : List Lexeme} {e : ParseError}

/-- What is so after a balanced run is so with it. -/
theorem append_left (h : e.IsTrueOf size ls) (front : List Lexeme)
    (hfront : isBalanced 0 (front.map token)) : e.IsTrueOf size (front ++ ls) := by
  cases h with
  | explained mem explains => exact .explained (List.mem_append_right _ mem) explains
  | ending fault => exact .ending fault
  | unclosedBlock split opens stays =>
    exact .unclosedBlock (by rw [split, List.append_assoc]) opens stays
  | stray split closes balanced =>
    refine .stray (by rw [split, List.append_assoc]) closes ?_
    rw [List.map_append, isBalanced_append hfront 0]
    exact balanced
  | unfinished split closes unfinished =>
    exact .unfinished (by rw [split, List.append_assoc]) closes (unfinished.append_left front)

/-- What is so in a block is so around it. -/
theorem of_body (h : e.IsTrueOf size (Block.take size 0 ls).body) (front : List Lexeme) :
    e.IsTrueOf size (front ++ ls) := by
  obtain ⟨body, tail, hls, htake, hblock⟩ : ∃ body tail, ls = body ++ tail ∧
      (Block.take size 0 ls).body = body ∧
      (isBalanced 0 (body.map token) ∨ tail = [] ∧ ¬ClosesBlock body) := by
    rcases Block.take_cases size ls with ⟨body, r, rest, hls, -, hbody, htake⟩ | ⟨hopen, htake⟩
    · exact ⟨body, r :: rest, hls, by rw [htake], .inl hbody⟩
    · exact ⟨ls, [], (List.append_nil _).symm, by rw [htake], .inr ⟨rfl, hopen⟩⟩
  rw [htake] at h
  cases h with
  | explained mem explains => exact .explained (by simp [hls, mem]) explains
  | ending fault => exact .ending fault
  | @unclosedBlock before after b split opens stays =>
    obtain ⟨rfl, -⟩ := hblock.resolve_left fun hbody =>
      stays (closesBlock_of_isBalanced opens (split ▸ hbody))
    rw [hls, split, List.append_nil, ← List.append_assoc]
    exact .unclosedBlock rfl opens stays
  | @stray before after r split closes balanced =>
    rcases hblock with hbody | ⟨-, hopen⟩
    · rw [split, List.map_append, isBalanced_append balanced 0, List.map_cons,
        closes] at hbody
      cases hbody
    · exact absurd ⟨before, r, after, split, closes, balanced⟩ hopen
  | unfinished split closes unfinished =>
    rw [hls, split, List.append_assoc, ← List.append_assoc front]
    exact .unfinished rfl closes (unfinished.append_left front)

/-- An error of a block, which is read with what comes before its brace, is so if the one inside
is. -/
theorem of_finish {α : Type} {read : Except ParseError α} (front : List Lexeme) {b : Lexeme}
    (opens : b.token = .leftBrace) (hread : read = .error e → e.IsTrueOf size (front ++ b :: ls))
    (h : (Block.take size 0 ls).finish b.start read = .error e) :
    e.IsTrueOf size (front ++ b :: ls) := by
  rcases Block.finish_eq_error h with h | ⟨⟨o, hending⟩, rfl⟩
  · exact hread h
  · rcases Block.take_cases size ls with ⟨body, r, rest, -, -, -, htake⟩ | ⟨hopen, -⟩
    · rw [htake] at hending
      cases hending
    · exact .unclosedBlock rfl opens hopen

end ParseError.IsTrueOf

/-! ## Groups -/

namespace Opened

variable {groups groups' : List Opened} {l : Lexeme} {e : ParseError}

theorem next_eq_error (h : next groups l = .error e) :
    (∃ g ∈ groups, e = .unclosedGroup g.offset) ∨ l.Explains e := by
  obtain ⟨t, source, start⟩ := l
  cases t
  case rightParen =>
    cases groups with
    | nil =>
      cases h
      exact .inr (.rightParen rfl)
    | cons g rest =>
      simp only [next] at h
      split_ifs at h
      cases h
      exact .inl ⟨g, List.mem_cons_self, rfl⟩
  case rightBracket =>
    cases groups with
    | nil =>
      cases h
      exact .inr (.rightBracket rfl)
    | cons g rest =>
      simp only [next] at h
      split_ifs at h
      cases h
      exact .inl ⟨g, List.mem_cons_self, rfl⟩
  case leftBrace | rightBrace =>
    cases groups with
    | nil =>
      cases h
      exact .inr (.invalidDeclaration _)
    | cons g rest =>
      cases h
      exact .inl ⟨g, List.mem_cons_self, rfl⟩
  all_goals cases h

/-- The groups that are open after a lexeme were open before, or start with it. -/
theorem of_mem_next (h : next groups l = .ok groups') {g : Opened} (hg : g ∈ groups') :
    g ∈ groups ∨ g.offset = l.start ∧ l.token.opensGroup := by
  obtain ⟨t, source, start⟩ := l
  cases t
  case function | leftParen | leftBracket =>
    cases h
    rcases List.mem_cons.1 hg with rfl | hg
    · exact .inr ⟨rfl, rfl⟩
    · exact .inl hg
  case rightParen | rightBracket =>
    cases groups with
    | nil => cases h
    | cons g' rest =>
      simp only [next] at h
      split_ifs at h
      cases h
      exact .inl (List.mem_cons_of_mem _ hg)
  case leftBrace | rightBrace => cases groups <;> cases h
  all_goals
    cases h
    exact .inl hg

end Opened

theorem span_eq_error {stop : Token → Bool} {groups : List Opened} {ls : List Lexeme}
    {e : ParseError} (h : span stop groups ls = .error e) :
    (∃ g ∈ groups, e = .unclosedGroup g.offset) ∨ ∃ l ∈ ls, l.Explains e := by
  induction ls generalizing groups with
  | nil =>
    cases groups with
    | nil => cases h
    | cons g groups =>
      cases h
      exact .inl ⟨g, List.mem_cons_self, rfl⟩
  | cons l ls ih =>
    rw [span] at h
    split_ifs at h
    rcases bind_eq_error_iff.1 h with h | ⟨groups', hnext, h⟩
    · exact (Opened.next_eq_error h).imp_right fun h => ⟨l, List.mem_cons_self, h⟩
    · rcases bind_eq_error_iff.1 h with h | ⟨p, -, h⟩
      · rcases ih h with ⟨g, hg, rfl⟩ | h
        · refine (Opened.of_mem_next hnext hg).imp (fun hg => ⟨g, hg, rfl⟩) ?_
          rintro ⟨hoffset, hopens⟩
          rw [hoffset]
          exact ⟨l, List.mem_cons_self, .unclosedGroup hopens⟩
        · exact .inr (exists_explains_of_subset (List.subset_cons_self l ls) h)
      · cases h

/-- Where no group is open, an error is about one of the lexemes. -/
theorem span_nil_eq_error {stop : Token → Bool} {ls : List Lexeme} {e : ParseError}
    (h : span stop [] ls = .error e) : ∃ l ∈ ls, l.Explains e := by
  refine (span_eq_error h).resolve_left ?_
  rintro ⟨g, hg, -⟩
  cases hg

/-! ## Declarations -/

namespace Declaration

theorem read_eq_error {ending : Ending} {l : Lexeme} {ls : List Lexeme} {e : ParseError}
    (h : read ending l ls = .error e) :
    (∃ l' ∈ ls, l'.Explains e) ∨ ∃ fault, e = .invalidDeclaration ending.offset fault := by
  have hsuffix := List.dropWhile_suffix (l := ls) Lexeme.isSpace
  unfold read at h
  split at h
  · cases h
    exact .inr ⟨_, rfl⟩
  · rename_i c rest hrest
    rw [hrest] at hsuffix
    split_ifs at h
    · rcases bind_eq_error_iff.1 h with h | ⟨p, -, h⟩
      · have hrest : rest ⊆ ls := List.Subset.trans (List.subset_cons_self c rest) hsuffix.subset
        exact .inl (exists_explains_of_subset hrest (span_nil_eq_error h))
      · cases h
    · cases h
      exact .inl ⟨c, hsuffix.subset List.mem_cons_self, .invalidDeclaration _⟩

theorem readAll_eq_error {ending : Ending} {ls : List Lexeme} {e : ParseError}
    (h : readAll ending ls = .error e) :
    (∃ l ∈ ls, l.Explains e) ∨ ∃ fault, e = .invalidDeclaration ending.offset fault := by
  fun_induction readAll ending ls with
  | case1 => cases h
  | case2 l rest _ ih | case3 l rest _ ih =>
    exact (ih h).imp_left (exists_explains_of_subset (List.subset_cons_self l rest))
  | case4 l rest name hname e' hread =>
    cases h
    exact (read_eq_error hread).imp_left
      (exists_explains_of_subset (List.subset_cons_self l rest))
  | case5 l rest name hname d after hread _ ih =>
    obtain ⟨spaces, c, value, hrest, -⟩ := read_eq_ok_iff.1 hread
    have hafter : after ⊆ l :: rest := fun x hx => by simp [hrest, hx]
    exact (ih (bind_cons_eq_error_iff.1 h)).imp_left (exists_explains_of_subset hafter)
  | case6 l rest _ _ _ =>
    cases h
    exact .inl ⟨l, List.mem_cons_self, .invalidDeclaration _⟩

/-- An error among the declarations of a block is so, with the brace where the block opens. -/
theorem isTrueOf_of_readAll {size : Nat} {b : Lexeme} {ls : List Lexeme} {e : ParseError}
    (opens : b.token = .leftBrace)
    (h : (Block.take size 0 ls).finish b.start
      (readAll (Block.take size 0 ls).ending (Block.take size 0 ls).body) = .error e) :
    e.IsTrueOf size (b :: ls) := by
  refine .of_finish [] opens (fun hread => ?_) h
  rcases Block.take_cases size ls with ⟨body, r, rest, rfl, -, -, htake⟩ | ⟨-, htake⟩
  · rw [htake] at hread
    rcases readAll_eq_error hread with ⟨l, hl, hexplains⟩ | ⟨fault, rfl⟩
    · exact .explained (by simp [show l ∈ body from hl]) hexplains
    · exact .explained (by simp : r ∈ b :: (body ++ r :: rest)) (.invalidDeclaration fault)
  · rw [htake] at hread
    rcases readAll_eq_error hread with ⟨l, hl, hexplains⟩ | ⟨fault, rfl⟩
    · exact .explained (List.mem_cons_of_mem b hl) hexplains
    · exact .ending fault

end Declaration

/-! ## Animations -/

/-- An error in an animation is so. -/
theorem Keyframe.isTrueOf_of_readAll {size : Nat} {ls : List Lexeme} {e : ParseError}
    (h : readAll size ls = .error e) : e.IsTrueOf size ls := by
  fun_induction readAll size ls with
  | case1 => cases h
  | case2 l rest hspace ih =>
    rw [Lexeme.isSpace, decide_eq_true_eq] at hspace
    exact (ih h).append_left [l] (by rw [List.map_singleton, hspace]; rfl)
  | case3 l rest hspace e' hspan =>
    cases h
    obtain ⟨l', hl', hexplains⟩ := span_nil_eq_error hspan
    exact .explained hl' hexplains
  | case4 l rest | case6 l rest =>
    cases h
    exact .explained List.mem_cons_self .missingBlock
  | case5 l rest hspace head b after hspan _ _ hopen =>
    rename_i ih
    obtain ⟨hls, hrun, -⟩ := span_nil_eq_ok_iff.1 hspan
    rw [hls]
    have hhead := isBalanced_of_isRun hrun
    rcases bind_eq_error_iff.1 h with h | ⟨ds, hinside, h⟩
    · exact (Declaration.isTrueOf_of_readAll hopen h).append_left _ hhead
    · obtain ⟨r, hafter, hclose, hbody, -⟩ := Block.finish_take_eq_ok hinside
      have hblock : isBalanced 0 ((head ++ b :: (_ ++ [r])).map token) :=
        isBalanced_block hhead hopen hbody hclose rfl
      have htrue := (ih (bind_cons_eq_error_iff.1 h)).append_left _ hblock
      rw [hafter]
      simpa using htrue

/-! ## Rules -/

namespace Rule

variable {size : Nat} {e : ParseError}

theorem isTrueOf_of_readBlock {head : AtHead} {b : Lexeme} {ls : List Lexeme}
    (opens : b.token = .leftBrace)
    (h : readBlock size b.start head (Block.take size 0 ls) = .error e) :
    e.IsTrueOf size (b :: ls) := by
  have hraw : ∀ rule : Rule, (Block.take size 0 ls).finish b.start (.ok rule) = .error e →
      e.IsTrueOf size (b :: ls) :=
    fun rule h => .of_finish [] opens (fun hread => by cases hread) h
  unfold readBlock at h
  split_ifs at h
  · refine .of_finish [] opens (fun hread => ?_) h
    cases hframes : Keyframe.readAll size (Block.take size 0 ls).body with
    | error e' =>
      rw [hframes] at hread
      cases hread
      exact (Keyframe.isTrueOf_of_readAll hframes).of_body [b]
    | ok frames =>
      rw [hframes] at hread
      cases hread
  · split at h
    · cases h
    · exact hraw _ h
  · exact hraw _ h

theorem isTrueOf_of_readStyle {l b : Lexeme} {head ls : List Lexeme} (mem : l ∈ head ++ b :: ls)
    (hhead : isBalanced 0 (head.map token)) (opens : b.token = .leftBrace)
    (h : readStyle l.start b.start head (Block.take size 0 ls) = .error e) :
    e.IsTrueOf size (head ++ b :: ls) := by
  unfold readStyle at h
  split at h
  · cases h
    exact .explained mem .emptySelector
  · rcases bind_eq_error_iff.1 h with h | ⟨ds, -, h⟩
    · exact (Declaration.isTrueOf_of_readAll opens h).append_left _ hhead
    · cases h

/-- What an error of a list of rules may be. -/
def Fails (size : Nat) (top : Bool) (ending : Ending) (ls : List Lexeme) (e : ParseError) : Prop :=
  e.IsTrueOf size ls ∨ ∃ o, e = .unexpectedCloseBrace o ∧ ending = .brace o ∧ LacksBlock top ls

/-- What fails after some rules fails with them. -/
theorem Fails.append_left {top : Bool} {ending : Ending} {ls : List Lexeme}
    (h : Fails size top ending ls e) (front : List Lexeme)
    (hfront : ∀ done rules, Reads top done rules → ∃ rules', Reads top (front ++ done) rules') :
    Fails size top ending (front ++ ls) e := by
  rcases h with h | ⟨o, rfl, rfl, done, l, run, rules, rfl, hreads, hrun⟩
  · obtain ⟨rules, hreads⟩ := hfront [] [] .nil
    rw [List.append_nil] at hreads
    exact .inl (h.append_left front hreads.isBalanced)
  · obtain ⟨rules', hreads'⟩ := hfront done rules hreads
    exact .inr ⟨o, rfl, rfl, front ++ done, l, run, rules', (List.append_assoc _ _ _).symm,
      hreads', hrun⟩

/-- What fails after a rule with a block fails with it. -/
theorem Fails.after_block {top : Bool} {ending : Ending} {body rest : List Lexeme}
    {b r : Lexeme} (h : Fails size top ending rest e) (front : List Lexeme)
    (hfront : ∀ done rules, Reads top done rules →
      ∃ rules', Reads top (front ++ b :: (body ++ r :: done)) rules') :
    Fails size top ending (front ++ b :: (body ++ r :: rest)) e := by
  have hfails := h.append_left (front ++ b :: (body ++ [r])) (by simpa using hfront)
  simpa using hfails

/-- An error in a conditional group is so, with the at-rule. -/
theorem isTrueOf_of_group {l b : Lexeme} {head ls : List Lexeme} {name : String} {atHead : AtHead}
    (isAt : l.token = .atKeyword name) (isRun : isRun endsAtHead [] (head.map token))
    (opens : b.token = .leftBrace) (isGroup : AtHead.isGroupName (atName l))
    (hbody : ∀ e, readAll size false (Block.take size 0 ls).ending (Block.take size 0 ls).body =
      .error e → Fails size false (Block.take size 0 ls).ending (Block.take size 0 ls).body e)
    (h : (Block.take size 0 ls).finish b.start
      ((readAll size false (Block.take size 0 ls).ending (Block.take size 0 ls).body).map
        (group atHead)) = .error e) :
    e.IsTrueOf size (l :: head ++ b :: ls) := by
  refine .of_finish (l :: head) opens (fun hread => ?_) h
  cases hrules : readAll size false (Block.take size 0 ls).ending (Block.take size 0 ls).body with
  | ok rules =>
    rw [hrules] at hread
    cases hread
  | error e' =>
    rw [hrules] at hread
    cases hread
    rcases hbody e hrules with htrue | ⟨o, rfl, hending, hlacks⟩
    · have hfront := htrue.of_body (l :: head ++ [b])
      simpa using hfront
    · rcases Block.take_cases size ls with ⟨body, r, rest, rfl, hclose, -, htake⟩ | ⟨-, htake⟩
      · rw [htake] at hending hlacks
        cases hending
        have hsplit : l :: head ++ b :: (body ++ r :: rest) =
            l :: (head ++ b :: body) ++ r :: rest := by simp
        refine .unfinished hsplit hclose ?_
        exact ⟨[], l, head, b, body, name, rfl, isAt, isGroup, isRun, opens, hlacks⟩
      · rw [htake] at hending
        cases hending

theorem fails_of_readAll {top : Bool} {ending : Ending} {ls : List Lexeme}
    (h : readAll size top ending ls = .error e) : Fails size top ending ls e := by
  fun_induction readAll size top ending ls generalizing e with
  | case1 | case5 => cases h
  | case2 top ending l rest hskipped ih =>
    exact (ih h).append_left [l] fun done rules h => ⟨rules, .skip hskipped h⟩
  | case3 top ending l rest _ hclose =>
    cases h
    exact .inl (.stray (List.nil_append _).symm hclose rfl)
  | case4 top ending l rest _ _ name hname e' hspan =>
    cases h
    obtain ⟨l', hl', hexplains⟩ := span_nil_eq_error hspan
    exact .inl (.explained (List.mem_cons_of_mem l hl') hexplains)
  | case6 top ending l rest _ _ name hname head b after hspan _ _ _ _ hopen =>
    rename_i hgroup ihRest ihBody
    obtain ⟨rfl, hrun, -⟩ := span_nil_eq_ok_iff.1 hspan
    rcases bind_eq_error_iff.1 h with h | ⟨rule, hinside, h⟩
    · exact .inl (isTrueOf_of_group hname hrun hopen hgroup (fun e => ihBody) h)
    · obtain ⟨r, hafter, hclose, hbalanced, hinside⟩ := Block.finish_take_eq_ok hinside
      obtain ⟨inner, hinner, rfl⟩ := exists_of_map_eq_ok hinside
      have hinner := reads_of_readAll hinner
      rw [hafter]
      exact (ihRest (bind_cons_eq_error_iff.1 h)).after_block (l :: head) fun done rules hreads =>
        ⟨_, .group hname hrun hopen hbalanced hclose hgroup hinner hreads⟩
  | case7 top ending l rest _ _ name hname head b after hspan _ _ _ _ hopen =>
    rename_i hgroup ihRest
    obtain ⟨rfl, hrun, -⟩ := span_nil_eq_ok_iff.1 hspan
    have hhead := isBalanced_cons_of_at hname (isBalanced_of_isRun hrun)
    rcases bind_eq_error_iff.1 h with h | ⟨rule, hinside, h⟩
    · exact .inl ((isTrueOf_of_readBlock hopen h).append_left _ hhead)
    · obtain ⟨hblock, o, hending⟩ := blockReads_of_readBlock hinside
      obtain ⟨r, hafter, hclose, hbalanced⟩ := Block.eq_of_take_eq_brace hending
      rw [hafter]
      exact (ihRest (bind_cons_eq_error_iff.1 h)).after_block (l :: head) fun done rules hreads =>
        ⟨_, .block hname hrun hopen hbalanced hclose (by simpa using hgroup) hblock hreads⟩
  | case8 top ending l rest _ _ name hname head b after hspan =>
    rename_i hends ih
    obtain ⟨rfl, hrun, -⟩ := span_nil_eq_ok_iff.1 hspan
    have hfails := (ih (bind_cons_eq_error_iff.1 h)).append_left (l :: (head ++ [b]))
      fun done rules hreads => ⟨_, by simpa using Reads.statement hname hrun hends hreads⟩
    simpa using hfails
  | case9 top ending l rest _ _ name hname head b after hspan =>
    rename_i hopen hends ih
    obtain ⟨rfl, hrun, hstop⟩ := span_nil_eq_ok_iff.1 hspan
    have hclose : b.token = .rightBrace := by
      simpa [endsAtHead, endsSelectors, hopen, hends] using hstop
    rcases ih (bind_cons_eq_error_iff.1 h) with htrue | ⟨o, -, -, hlacks⟩
    · exact .inl (htrue.append_left _ (isBalanced_cons_of_at hname (isBalanced_of_isRun hrun)))
    · have hbalanced := isBalanced_of_lacksBlock hlacks
      rw [List.map_cons, hclose] at hbalanced
      cases hbalanced
  | case10 top ending l rest _ _ e' =>
    rename_i hspan _
    cases h
    obtain ⟨l', hl', hexplains⟩ := span_nil_eq_error hspan
    exact .inl (.explained hl' hexplains)
  | case11 top l rest =>
    cases h
    exact .inl (.explained List.mem_cons_self .missingBlock)
  | case12 top l rest hskipped _ head hspan o =>
    rename_i hname
    cases h
    obtain ⟨hls, hrun, -⟩ := span_nil_eq_ok_iff.1 hspan
    rw [List.append_nil] at hls
    rw [← hls] at hrun
    exact .inr ⟨o, rfl, rfl, [], l, rest, [], rfl, .nil, by simpa [isSkipped] using hskipped,
      hname, hrun⟩
  | case13 top ending l rest hskipped _ head b after hspan _ _ hopen =>
    rename_i hname ih
    obtain ⟨hls, hrun, -⟩ := span_nil_eq_ok_iff.1 hspan
    rw [hls]
    rcases bind_eq_error_iff.1 h with h | ⟨rule, hinside, h⟩
    · exact .inl (isTrueOf_of_readStyle (hls ▸ List.mem_cons_self) (isBalanced_of_isRun hrun)
        hopen h)
    · obtain ⟨selectors, ds, hselectors, hds, -⟩ := exists_of_readStyle_eq_ok hinside
      obtain ⟨r, hafter, hclose, hbalanced, hread⟩ := Block.finish_take_eq_ok hds
      rw [hafter]
      refine (ih (bind_cons_eq_error_iff.1 h)).after_block head fun done rules hreads => ?_
      cases head with
      | nil => cases hselectors
      | cons l' head =>
        obtain ⟨rfl, -⟩ := List.cons.inj hls
        exact ⟨_, .style (by simpa [isSkipped] using hskipped) hname hrun hselectors hopen
          hbalanced hclose (Declaration.reads_of_readAll hread) hreads⟩
  | case14 top ending l rest _ _ head b after hspan =>
    rename_i hopen hname
    cases h
    obtain ⟨hls, hrun, hstop⟩ := span_nil_eq_ok_iff.1 hspan
    have hclose : b.token = .rightBrace := by simpa [endsSelectors, hopen] using hstop
    exact .inl (.stray hls hclose (isBalanced_of_isRun hrun))

end Rule

/-! ## Texts -/

theorem brokenToken?_eq_some {ls : List Lexeme} {e : ParseError} (h : brokenToken? ls = some e) :
    ∃ before l after, ls = before ++ l :: after ∧ (∀ x ∈ before, x.isBroken = false) ∧
      (l.token = .badString ∧ e = .badString l.start ∨
        l.token = .badUrl ∧ e = .badUrl l.start) := by
  obtain ⟨before, l, after, rfl, hl, hbefore⟩ := List.findSome?_eq_some_iff.1 h
  refine ⟨before, l, after, rfl, ?_, ?_⟩
  · exact brokenToken?_eq_none_iff.1 (List.findSome?_eq_none_iff.2 hbefore)
  · obtain ⟨t, source, start⟩ := l
    cases t
    case badString => exact .inl ⟨rfl, (Option.some.inj hl).symm⟩
    case badUrl => exact .inr ⟨rfl, (Option.some.inj hl).symm⟩
    all_goals cases hl

namespace ParseError

/-- What is so of a text where an error points. -/
def Holds (source : String) : ParseError → Prop
  -- The brace opens a block that no brace closes.
  | unclosedBlock o =>
    ∃ before b after, scan source = before ++ b :: after ∧ b.start = o ∧
      b.token = .leftBrace ∧ ¬ClosesBlock after
  -- The brace closes no block but a conditional group whose last rule has no block.
  | unexpectedCloseBrace o =>
    ∃ before r after, scan source = before ++ r :: after ∧ r.start = o ∧
      r.token = .rightBrace ∧ (LeavesBlockOpen before ↔ LeavesGroupUnfinished before)
  | unclosedGroup o =>
    ∃ l ∈ scan source, l.start = o ∧
      ((∃ name, l.token = .function name) ∨ l.token = .leftParen ∨ l.token = .leftBracket)
  | unbalancedGroup c o =>
    ∃ l ∈ scan source, l.start = o ∧ l.source.toList = [c] ∧
      (c = ')' ∧ l.token = .rightParen ∨ c = ']' ∧ l.token = .rightBracket)
  | badString o =>
    ∃ before l after, scan source = before ++ l :: after ∧ l.start = o ∧
      l.token = .badString ∧ ∀ x ∈ before, x.isBroken = false
  | badUrl o =>
    ∃ before l after, scan source = before ++ l :: after ∧ l.start = o ∧
      l.token = .badUrl ∧ ∀ x ∈ before, x.isBroken = false
  | emptySelector o | missingBlock o => ∃ l ∈ scan source, l.start = o
  | invalidDeclaration o _ => o = bytes source ∨ ∃ l ∈ scan source, l.start = o

theorem isTrueOf_or_broken {source : String} {e : ParseError}
    (h : Stylesheet.parse source = .error e) :
    brokenToken? (scan source) = some e ∨
      (∀ l ∈ scan source, l.isBroken = false) ∧ e.IsTrueOf (bytes source) (scan source) := by
  unfold Stylesheet.parse at h
  dsimp only at h
  cases hbroken : brokenToken? (scan source) with
  | some e' =>
    rw [hbroken] at h
    cases h
    exact .inl rfl
  | none =>
    rw [hbroken] at h
    refine .inr ⟨brokenToken?_eq_none_iff.1 hbroken, ?_⟩
    rcases bind_eq_error_iff.1 h with h | ⟨rules, -, h⟩
    · rcases Rule.fails_of_readAll h with htrue | ⟨o, -, hending, -⟩
      · exact htrue
      · cases hending
    · cases h

theorem holds_of_explains {source : String} {l : Lexeme} {e : ParseError} (mem : l ∈ scan source)
    (hspelled : l.Spelled) (h : l.Explains e) : e.Holds source := by
  cases h with
  | unclosedGroup opens =>
    refine ⟨l, mem, rfl, ?_⟩
    obtain ⟨t, text, start⟩ := l
    cases t
    case function name => exact .inl ⟨name, rfl⟩
    case leftParen => exact .inr (.inl rfl)
    case leftBracket => exact .inr (.inr rfl)
    all_goals cases opens
  | rightParen closes =>
    rw [Spelled, closes] at hspelled
    exact ⟨l, mem, rfl, hspelled, .inl ⟨rfl, closes⟩⟩
  | rightBracket closes =>
    rw [Spelled, closes] at hspelled
    exact ⟨l, mem, rfl, hspelled, .inr ⟨rfl, closes⟩⟩
  | emptySelector => exact ⟨l, mem, rfl⟩
  | missingBlock => exact ⟨l, mem, rfl⟩
  | invalidDeclaration fault => exact .inr ⟨l, mem, rfl⟩

theorem holds_of_isTrueOf {source : String} {e : ParseError}
    (hspelled : ∀ l ∈ scan source, l.Spelled)
    (h : e.IsTrueOf (bytes source) (scan source)) : e.Holds source := by
  cases h with
  | explained mem explains => exact holds_of_explains mem (hspelled _ mem) explains
  | ending fault => exact .inl rfl
  | unclosedBlock split opens stays => exact ⟨_, _, _, split, rfl, opens, stays⟩
  | stray split closes balanced =>
    have hopen := not_leavesBlockOpen balanced
    exact ⟨_, _, _, split, rfl, closes,
      iff_of_false hopen fun hunfinished => hopen hunfinished.leavesBlockOpen⟩
  | unfinished split closes unfinished =>
    exact ⟨_, _, _, split, rfl, closes, iff_of_true unfinished.leavesBlockOpen unfinished⟩

theorem holds_of_parse {source : String} {e : ParseError}
    (h : Stylesheet.parse source = .error e) : e.Holds source := by
  rcases isTrueOf_or_broken h with hbroken | ⟨hwhole, htrue⟩
  · obtain ⟨before, l, after, hsplit, hbefore, ⟨hl, rfl⟩ | ⟨hl, rfl⟩⟩ :=
      brokenToken?_eq_some hbroken
    · exact ⟨before, l, after, hsplit, rfl, hl, hbefore⟩
    · exact ⟨before, l, after, hsplit, rfl, hl, hbefore⟩
  · exact holds_of_isTrueOf (spelled_scanFrom hwhole) htrue

/-- An error points at the end of the text, or at a lexeme. -/
theorem Holds.offset {source : String} {e : ParseError} (h : e.Holds source) :
    e.offset = bytes source ∨ ∃ l ∈ scan source, l.start = e.offset := by
  cases e with
  | unclosedBlock o | unexpectedCloseBrace o | badString o | badUrl o =>
    obtain ⟨before, l, after, hsplit, hstart, -⟩ := h
    exact .inr ⟨l, by simp [hsplit], hstart⟩
  | unclosedGroup o | unbalancedGroup c o =>
    obtain ⟨l, hl, hstart, -⟩ := h
    exact .inr ⟨l, hl, hstart⟩
  | emptySelector o | missingBlock o => exact .inr h
  | invalidDeclaration o fault => exact h

end ParseError

/-- A lexeme starts between two characters of the text. -/
theorem Lexeme.isValid_start {source : String} {l : Lexeme} (h : l ∈ scan source) :
    (⟨l.start⟩ : String.Pos.Raw).IsValid source := by
  obtain ⟨tiles, last, hscan, htiling⟩ := tiling_scanFrom false 0 source.toList
  rw [scan, hscan] at h
  obtain ⟨t, ht, rfl⟩ := List.mem_map.1 h
  obtain ⟨front, back, htext, hfront⟩ := htiling.exists_text ht
  rw [← hfront]
  exact isValid_of_append (htext.trans (List.append_assoc _ _ _))

namespace Stylesheet

/-- A text that is refused has a fault of the kind that the error tells, where it points, and that
is between two characters of the text or at one of its ends. -/
theorem parse_eq_error {source : String} {e : ParseError} (h : parse source = .error e) :
    e.offset ≤ source.utf8ByteSize ∧ (⟨e.offset⟩ : String.Pos.Raw).IsValid source ∧
      e.Holds source := by
  have hholds := ParseError.holds_of_parse h
  have hvalid : (⟨e.offset⟩ : String.Pos.Raw).IsValid source := by
    rcases hholds.offset with hoffset | ⟨l, hl, hstart⟩
    · rw [hoffset]
      exact isValid_of_append (List.append_nil _).symm
    · rw [← hstart]
      exact isValid_start hl
  exact ⟨hvalid.le_utf8ByteSize, hvalid, hholds⟩

theorem parse_eq_error_open :
    parse "@media\x7ba\x7b\x7d" = .error (.unclosedBlock 6) ∧
      (ParseError.unclosedBlock 6).Holds "@media\x7ba\x7b\x7d" := by
  have h : parse "@media\x7ba\x7b\x7d" = .error (.unclosedBlock 6) := by decide +kernel
  exact ⟨h, (parse_eq_error h).2.2⟩

/-- The brace that closes the conditional group is told to close nothing, since the rule before it
has no block. -/
theorem parse_eq_error_matched :
    parse "@media\x7ba\x7d" = .error (.unexpectedCloseBrace 8) ∧
      ¬∃ before r after, scan "@media\x7ba\x7d" = before ++ r :: after ∧ r.start = 8 ∧
        r.token = .rightBrace ∧ ¬LeavesBlockOpen before := by
  have hscan : scan "@media\x7ba\x7d" = [⟨.atKeyword "media", "@media", 0⟩,
      ⟨.leftBrace, "\x7b", 6⟩, ⟨.ident "a", "a", 7⟩, ⟨.rightBrace, "\x7d", 8⟩] := by
    decide +kernel
  refine ⟨by decide +kernel, ?_⟩
  rintro ⟨before, r, after, hsplit, hstart, -, hclosed⟩
  rw [hscan] at hsplit
  apply hclosed
  simp only [List.cons_eq_append_iff, List.nil_eq_append_iff] at hsplit
  -- No lexeme before the last one starts at the offset.
  rcases hsplit with
    ⟨-, h⟩ | ⟨_, rfl, ⟨-, h⟩ | ⟨_, rfl, ⟨-, h⟩ | ⟨_, rfl, ⟨rfl, -⟩ | ⟨_, -, -, h⟩⟩⟩⟩
  case inr.inr.inr.inl =>
    exact ⟨[_], _, [_], rfl, rfl, rfl⟩
  all_goals cases h
  all_goals cases hstart

end Stylesheet

end Restyle.Css
