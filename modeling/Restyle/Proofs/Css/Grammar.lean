import Mathlib.Data.List.Infix
import Mathlib.Tactic.SplitIfs
import Restyle.Css.Parser

/-!
# What runs of lexemes are read as

The readers of declarations, animations and rules succeed on a run of lexemes exactly if it is put
together in one of the ways that `Declaration.Reads`, `Keyframe.Reads` and `Rule.Reads` list. Places
in the text play no part there, and neither does how a block ends.
-/

namespace Restyle.Css

open Text

theorem bind_eq_ok_iff {ε α β : Type} {x : Except ε α} {f : α → Except ε β} {b : β} :
    (x >>= f) = .ok b ↔ ∃ a, x = .ok a ∧ f a = .ok b := by
  cases x <;> simp [bind, Except.bind]

/-- An entry is put before what the rest of a list is read as. -/
theorem bind_cons_eq_ok_iff {ε α : Type} {x : Except ε (List α)} {a : α} {as : List α} :
    (x >>= fun rest => pure (a :: rest)) = .ok as ↔ ∃ rest, x = .ok rest ∧ a :: rest = as := by
  simp only [bind_eq_ok_iff, pure, Except.pure, Except.ok.injEq]

/-! ## Runs with closed groups -/

/-- The tokens that will close the groups that are open after a token, the innermost first. -/
def closersAfter (closers : List Token) : Token → Option (List Token)
  | .function _ | .leftParen => some (.rightParen :: closers)
  | .leftBracket => some (.rightBracket :: closers)
  | .rightParen =>
    match closers with
    | c :: rest => if c = .rightParen then some rest else none
    | [] => none
  | .rightBracket =>
    match closers with
    | c :: rest => if c = .rightBracket then some rest else none
    | [] => none
  | .leftBrace | .rightBrace => none
  | _ => some closers

/-- Whether tokens close all groups, with none that `stop` selects outside of them. -/
def isRun (stop : Token → Bool) : List Token → List Token → Bool
  | closers, [] => closers.isEmpty
  | closers, t :: ts =>
    !(closers.isEmpty && stop t) &&
      match closersAfter closers t with
      | some closers => isRun stop closers ts
      | none => false

theorem isRun_nil_iff {stop : Token → Bool} {closers : List Token} :
    isRun stop closers [] ↔ closers = [] := by
  rw [isRun, List.isEmpty_iff]

/-- A run does not stop at its first token, and goes on with the groups that are open then. -/
theorem isRun_cons_iff {stop : Token → Bool} {closers ts : List Token} {t : Token} :
    isRun stop closers (t :: ts) ↔
      (closers.isEmpty && stop t) = false ∧
        ∃ closers', closersAfter closers t = some closers' ∧ isRun stop closers' ts := by
  rw [isRun, Bool.and_eq_true, Bool.not_eq_true']
  cases closersAfter closers t <;> simp

/-- What a lexeme does to the open groups depends on its token alone. -/
theorem toOption_next (groups : List Opened) (l : Lexeme) :
    (Opened.next groups l).toOption.map (·.map Opened.closer) =
      closersAfter (groups.map Opened.closer) l.token := by
  obtain ⟨t, source, start⟩ := l
  cases t
  case rightParen | rightBracket =>
    cases groups with
    | nil => rfl
    | cons g rest =>
      simp only [Opened.next, closersAfter, List.map_cons]
      split_ifs <;> rfl
  case leftBrace | rightBrace => cases groups <;> rfl
  all_goals rfl

theorem next_eq_ok {groups groups' : List Opened} {l : Lexeme}
    (h : Opened.next groups l = .ok groups') :
    closersAfter (groups.map Opened.closer) l.token = some (groups'.map Opened.closer) := by
  rw [← toOption_next, h]
  rfl

theorem exists_next_eq_ok {groups : List Opened} {l : Lexeme} {closers : List Token}
    (h : closersAfter (groups.map Opened.closer) l.token = some closers) :
    ∃ groups', Opened.next groups l = .ok groups' ∧ groups'.map Opened.closer = closers := by
  rw [← toOption_next] at h
  cases hnext : Opened.next groups l with
  | error e =>
    rw [hnext] at h
    cases h
  | ok groups' =>
    rw [hnext] at h
    exact ⟨groups', rfl, Option.some.inj h⟩

/-- A span is a run up to a lexeme that `stop` selects, or up to the end. -/
theorem span_eq_ok_iff {stop : Token → Bool} {groups : List Opened} {ls as bs : List Lexeme} :
    span stop groups ls = .ok (as, bs) ↔
      ls = as ++ bs ∧ isRun stop (groups.map Opened.closer) (as.map Lexeme.token) ∧
        ∀ b ∈ bs.head?, stop b.token := by
  induction ls generalizing groups as with
  | nil =>
    cases groups with
    | nil =>
      simp only [span, Except.ok.injEq, Prod.mk.injEq]
      constructor
      · rintro ⟨rfl, rfl⟩
        exact ⟨rfl, rfl, by simp⟩
      · rintro ⟨hnil, -, -⟩
        simpa [eq_comm] using hnil
    | cons g groups =>
      simp only [span, reduceCtorEq, false_iff, not_and]
      intro hnil hrun
      rw [(List.append_eq_nil_iff.1 hnil.symm).1] at hrun
      cases hrun
  | cons l ls ih =>
    rw [span]
    split_ifs with hstop
    · simp only [Bool.and_eq_true, List.isEmpty_iff] at hstop
      obtain ⟨rfl, hstop⟩ := hstop
      simp only [Except.ok.injEq, Prod.mk.injEq]
      constructor
      · rintro ⟨rfl, rfl⟩
        exact ⟨rfl, rfl, by simpa using hstop⟩
      · rintro ⟨hls, hrun, -⟩
        cases as with
        | nil => exact ⟨rfl, hls⟩
        | cons a as =>
          rw [List.cons_append, List.cons.injEq] at hls
          rw [List.map_cons, isRun_cons_iff, ← hls.1, hstop] at hrun
          cases hrun.1
    · constructor
      · intro h
        obtain ⟨groups', hnext, h⟩ := bind_eq_ok_iff.1 h
        obtain ⟨⟨as', bs'⟩, hspan, h⟩ := bind_eq_ok_iff.1 h
        simp only [pure, Except.pure, Except.ok.injEq, Prod.mk.injEq] at h
        obtain ⟨rfl, rfl⟩ := h
        obtain ⟨rfl, hrun, hbs⟩ := ih.1 hspan
        refine ⟨rfl, ?_, hbs⟩
        exact isRun_cons_iff.2 ⟨by simpa using hstop, _, next_eq_ok hnext, hrun⟩
      · rintro ⟨hls, hrun, hbs⟩
        cases as with
        | nil =>
          rw [List.nil_append] at hls
          subst hls
          simp only [List.map_nil, isRun] at hrun
          simp only [List.head?_cons, Option.mem_def, Option.some.injEq, forall_eq'] at hbs
          simp [hbs, List.isEmpty_map] at hstop hrun
          exact absurd hrun hstop
        | cons a as =>
          rw [List.cons_append, List.cons.injEq] at hls
          obtain ⟨rfl, rfl⟩ := hls
          obtain ⟨-, closers, hafter, hrun⟩ := isRun_cons_iff.1 hrun
          obtain ⟨groups', hnext, rfl⟩ := exists_next_eq_ok hafter
          rw [hnext]
          simp [ih.2 ⟨rfl, hrun, hbs⟩, bind, Except.bind, pure, Except.pure]

theorem span_nil_eq_ok_iff {stop : Token → Bool} {ls as bs : List Lexeme} :
    span stop [] ls = .ok (as, bs) ↔
      ls = as ++ bs ∧ isRun stop [] (as.map Lexeme.token) ∧ ∀ b ∈ bs.head?, stop b.token :=
  span_eq_ok_iff

/-! ## Blocks -/

/-- Whether tokens close all braces that they open, and `depth` more. -/
def isBalanced : Nat → List Token → Bool
  | depth, [] => depth == 0
  | depth, .leftBrace :: ts => isBalanced (depth + 1) ts
  | 0, .rightBrace :: _ => false
  | depth + 1, .rightBrace :: ts => isBalanced depth ts
  | depth, _ :: ts => isBalanced depth ts

namespace Block

theorem take_of_isBalanced {depth : Nat} {body : List Lexeme} {r : Lexeme}
    (h : isBalanced depth (body.map Lexeme.token)) (hr : r.token = .rightBrace) (size : Nat)
    (rest : List Lexeme) :
    take size depth (body ++ r :: rest) = ⟨body, .brace r.start, rest⟩ := by
  induction body generalizing depth with
  | nil =>
    obtain ⟨t, source, start⟩ := r
    cases hr
    simp only [List.map_nil, isBalanced, beq_iff_eq] at h
    subst h
    rfl
  | cons l body ih =>
    obtain ⟨t, source, start⟩ := l
    cases t
    case rightBrace =>
      cases depth with
      | zero => cases h
      | succ depth => exact congrArg (push _) (ih h)
    all_goals exact congrArg (push _) (ih h)

theorem eq_of_take_eq_brace {size depth o : Nat} {ls : List Lexeme}
    (h : (take size depth ls).ending = .brace o) :
    ∃ r, ls = (take size depth ls).body ++ r :: (take size depth ls).rest ∧ r.token = .rightBrace ∧
      isBalanced depth ((take size depth ls).body.map Lexeme.token) := by
  induction ls generalizing depth with
  | nil => cases h
  | cons l ls ih =>
    obtain ⟨t, source, start⟩ := l
    cases t
    case rightBrace =>
      cases depth with
      | zero => exact ⟨_, rfl, rfl, rfl⟩
      | succ depth =>
        obtain ⟨r, hls, hr, hbalanced⟩ := ih h
        exact ⟨r, congrArg (List.cons _) hls, hr, hbalanced⟩
    case leftBrace =>
      obtain ⟨r, hls, hr, hbalanced⟩ := ih h
      exact ⟨r, congrArg (List.cons _) hls, hr, hbalanced⟩
    all_goals
      obtain ⟨r, hls, hr, hbalanced⟩ := ih h
      exact ⟨r, congrArg (List.cons _) hls, hr, hbalanced⟩

theorem finish_eq_ok_iff {α : Type} {b : Block} {offset : Nat} {read : Except ParseError α}
    {a : α} :
    b.finish offset read = .ok a ↔ read = .ok a ∧ ∃ o, b.ending = .brace o := by
  unfold finish
  cases read with
  | error e => simp [bind, Except.bind]
  | ok a' =>
    simp only [bind, Except.bind, Except.ok.injEq]
    cases b.ending with
    | brace o => simp [pure, Except.pure]
    | text o => simp [throw, throwThe, MonadExceptOf.throw]

theorem finish_take_eq_ok {α : Type} {size offset : Nat} {ls : List Lexeme}
    {read : Except ParseError α} {a : α} (h : (take size 0 ls).finish offset read = .ok a) :
    ∃ r, ls = (take size 0 ls).body ++ r :: (take size 0 ls).rest ∧ r.token = .rightBrace ∧
      isBalanced 0 ((take size 0 ls).body.map Lexeme.token) ∧ read = .ok a := by
  obtain ⟨hread, o, hending⟩ := finish_eq_ok_iff.1 h
  obtain ⟨r, hls, hr, hbalanced⟩ := eq_of_take_eq_brace hending
  exact ⟨r, hls, hr, hbalanced, hread⟩

end Block

/-! ## Declarations -/

namespace Declaration

/-- Whether a token ends a declaration. -/
def endsValue (t : Token) : Bool :=
  t = .semicolon || t = .rightBrace

/-- The declarations that a run of lexemes is read as. -/
inductive Reads : List Lexeme → List Declaration → Prop where
  /-- Nothing is left. -/
  | nil : Reads [] []
  /-- White space or a semicolon between declarations. -/
  | skip {l : Lexeme} {ls : List Lexeme} {ds : List Declaration}
      (skipped : l.token = .whitespace ∨ l.token = .semicolon) (rest : Reads ls ds) :
      Reads (l :: ls) ds
  /-- A declaration, up to a semicolon or to the end. -/
  | declaration {l c : Lexeme} {spaces value rest : List Lexeme} {ds : List Declaration}
      {name : String} (isName : l.token = .ident name) (areSpaces : ∀ s ∈ spaces, s.isSpace)
      (isColon : c.token = .colon) (isRun : isRun endsValue [] (value.map Lexeme.token))
      (ends : ∀ e ∈ rest.head?, e.token = .semicolon) (others : Reads rest ds) :
      Reads (l :: (spaces ++ c :: (value ++ rest))) (ofLexemes l.raw value :: ds)

theorem dropWhile_spaces {spaces : List Lexeme} (h : ∀ s ∈ spaces, s.isSpace) {c : Lexeme}
    (hc : c.isSpace = false) (ls : List Lexeme) :
    (spaces ++ c :: ls).dropWhile Lexeme.isSpace = c :: ls := by
  rw [List.dropWhile_append_of_pos h, List.dropWhile_cons_of_neg (by simp [hc])]

theorem read_eq_ok_iff {ending : Ending} {l : Lexeme} {ls rest : List Lexeme} {d : Declaration} :
    read ending l ls = .ok (d, rest) ↔
      ∃ spaces c value, ls = spaces ++ c :: (value ++ rest) ∧ (∀ s ∈ spaces, s.isSpace) ∧
        c.token = .colon ∧ isRun endsValue [] (value.map Lexeme.token) ∧
        (∀ e ∈ rest.head?, endsValue e.token) ∧ d = ofLexemes l.raw value := by
  constructor
  · intro h
    have hls := List.takeWhile_append_dropWhile (p := Lexeme.isSpace) (l := ls)
    unfold read at h
    split at h
    · cases h
    · rename_i c r hr
      rw [hr] at hls
      split at h
      · rename_i hcolon
        obtain ⟨⟨value, after⟩, hspan, h⟩ := bind_eq_ok_iff.1 h
        simp only [pure, Except.pure, Except.ok.injEq, Prod.mk.injEq] at h
        obtain ⟨rfl, rfl⟩ := h
        obtain ⟨rfl, hrun, hends⟩ := span_nil_eq_ok_iff.1 hspan
        exact ⟨_, c, value, hls.symm, fun s hs => List.all_eq_true.1 List.all_takeWhile s hs,
          hcolon, hrun, hends, rfl⟩
      · cases h
  · rintro ⟨spaces, c, value, rfl, hspaces, hcolon, hrun, hends, rfl⟩
    have hspan : span (fun t => t = .semicolon || t = .rightBrace) [] (value ++ rest) =
        .ok (value, rest) :=
      span_nil_eq_ok_iff.2 ⟨rfl, hrun, hends⟩
    unfold read
    rw [dropWhile_spaces hspaces (by simp [Lexeme.isSpace, hcolon])]
    simp [hcolon, hspan, bind, Except.bind, pure, Except.pure]

theorem not_reads_rightBrace {e : Lexeme} (he : e.token = .rightBrace) {ls : List Lexeme}
    {ds : List Declaration} : ¬Reads (e :: ls) ds := by
  intro h
  cases h with
  | skip skipped rest => simp [he] at skipped
  | declaration isName areSpaces isColon isRun ends others =>
    rw [he] at isName
    cases isName

theorem reads_of_readAll {ending : Ending} {ls : List Lexeme} {ds : List Declaration}
    (h : readAll ending ls = .ok ds) : Reads ls ds := by
  fun_induction readAll ending ls generalizing ds with
  | case1 =>
    cases h
    exact .nil
  | case2 l rest hl ih => exact .skip (.inl hl) (ih h)
  | case3 l rest hl ih => exact .skip (.inr hl) (ih h)
  | case4 => cases h
  | case5 l rest name hname d after hread _ ih =>
    obtain ⟨ds', hrest, rfl⟩ := bind_cons_eq_ok_iff.1 h
    obtain ⟨spaces, c, value, rfl, hspaces, hcolon, hrun, hends, rfl⟩ := read_eq_ok_iff.1 hread
    refine .declaration hname hspaces hcolon hrun (fun e he => ?_) (ih hrest)
    have hend := hends e he
    simp only [endsValue, Bool.or_eq_true, decide_eq_true_eq] at hend
    apply hend.resolve_right
    intro hbrace
    obtain ⟨ls, rfl⟩ := List.head?_eq_some_iff.1 he
    exact not_reads_rightBrace hbrace (ih hrest)
  | case6 => cases h

theorem Reads.readAll {ls : List Lexeme} {ds : List Declaration} (h : Reads ls ds)
    (ending : Ending) : Declaration.readAll ending ls = .ok ds := by
  induction h with
  | nil => rw [Declaration.readAll]
  | skip skipped rest ih =>
    rw [Declaration.readAll]
    split
    · exact ih
    · exact ih
    · rename_i name hname
      simp [hname] at skipped
    · rename_i hspace hsemicolon hname
      exact (skipped.elim hspace hsemicolon).elim
  | @declaration l c spaces value rest ds name isName areSpaces isColon isRun ends others ih =>
    have hread : read ending l (spaces ++ c :: (value ++ rest)) =
        .ok (ofLexemes l.raw value, rest) :=
      read_eq_ok_iff.2 ⟨spaces, c, value, rfl, areSpaces, isColon, isRun,
        fun e he => by simp [endsValue, ends e he], rfl⟩
    rw [Declaration.readAll]
    split
    · rename_i hspace
      simp [hspace] at isName
    · rename_i hsemicolon
      simp [hsemicolon] at isName
    · split
      · rename_i heq
        rw [hread] at heq
        cases heq
      · rename_i heq
        rw [hread] at heq
        cases heq
        rw [ih]
        rfl
    · rename_i hname
      exact (hname _ isName).elim

theorem readAll_eq_ok_iff (ending : Ending) {ls : List Lexeme} {ds : List Declaration} :
    readAll ending ls = .ok ds ↔ Reads ls ds :=
  ⟨reads_of_readAll, fun h => h.readAll ending⟩

end Declaration

/-! ## Animations -/

namespace Keyframe

/-- The steps that a run of lexemes is read as. -/
inductive Reads : List Lexeme → List Keyframe → Prop where
  /-- Nothing is left. -/
  | nil : Reads [] []
  /-- White space between steps. -/
  | skip {l : Lexeme} {ls : List Lexeme} {fs : List Keyframe} (isSpace : l.isSpace)
      (rest : Reads ls fs) : Reads (l :: ls) fs
  /-- A step with its block. -/
  | frame {head body rest : List Lexeme} {b r : Lexeme} {ds : List Declaration}
      {fs : List Keyframe} (notSpace : ∀ l ∈ head.head?, l.isSpace = false)
      (isRun : isRun endsSelectors [] (head.map Lexeme.token)) (opens : b.token = .leftBrace)
      (isBalanced : isBalanced 0 (body.map Lexeme.token)) (closes : r.token = .rightBrace)
      (inside : Declaration.Reads body ds) (others : Reads rest fs) :
      Reads (head ++ b :: (body ++ r :: rest)) (⟨collapsed head, ds⟩ :: fs)

theorem reads_of_readAll {size : Nat} {ls : List Lexeme} {fs : List Keyframe}
    (h : readAll size ls = .ok fs) : Reads ls fs := by
  fun_induction readAll size ls generalizing fs with
  | case1 =>
    cases h
    exact .nil
  | case2 l rest hspace ih => exact .skip hspace (ih h)
  | case3 | case4 | case6 => cases h
  | case5 l rest hspace head b after hspan _ _ hopen =>
    rename_i ih
    obtain ⟨ds, hinside, h⟩ := bind_eq_ok_iff.1 h
    obtain ⟨fs', hothers, rfl⟩ := bind_cons_eq_ok_iff.1 h
    obtain ⟨hls, hrun, -⟩ := span_nil_eq_ok_iff.1 hspan
    obtain ⟨r, hafter, hclose, hbalanced, hinside⟩ := Block.finish_take_eq_ok hinside
    rw [hls, hafter]
    refine .frame (fun x hx => ?_) hrun hopen hbalanced hclose
      (Declaration.reads_of_readAll hinside) (ih hothers)
    obtain ⟨head, rfl⟩ := List.head?_eq_some_iff.1 hx
    rw [← (List.cons.inj hls).1]
    simpa using hspace

theorem Reads.readAll {ls : List Lexeme} {fs : List Keyframe} (h : Reads ls fs) (size : Nat) :
    Keyframe.readAll size ls = .ok fs := by
  induction h with
  | nil => rw [Keyframe.readAll]
  | skip isSpace rest ih =>
    rw [Keyframe.readAll, if_pos isSpace]
    exact ih
  | @frame head body rest b r ds fs notSpace isRun opens isBalanced closes inside others ih =>
    have hspan : span endsSelectors [] (head ++ b :: (body ++ r :: rest)) =
        .ok (head, b :: (body ++ r :: rest)) :=
      span_nil_eq_ok_iff.2 ⟨rfl, isRun, by simp [opens, endsSelectors]⟩
    have htake := Block.take_of_isBalanced isBalanced closes size rest
    obtain ⟨l, ls, hls, hl⟩ : ∃ l ls, head ++ b :: (body ++ r :: rest) = l :: ls ∧
        l.isSpace = false := by
      cases head with
      | nil => exact ⟨b, _, rfl, by simp [Lexeme.isSpace, opens]⟩
      | cons l head => exact ⟨l, _, rfl, notSpace l rfl⟩
    rw [hls] at hspan ⊢
    rw [Keyframe.readAll, if_neg (by simp [hl])]
    split
    · rename_i heq
      rw [hspan] at heq
      cases heq
    · rename_i heq
      rw [hspan] at heq
      cases heq
    · rename_i heq
      rw [hspan] at heq
      cases heq
      rw [if_pos opens]
      simp only [htake, inside.readAll, ih, Block.finish]
      rfl

theorem readAll_eq_ok_iff {size : Nat} {ls : List Lexeme} {fs : List Keyframe} :
    readAll size ls = .ok fs ↔ Reads ls fs :=
  ⟨reads_of_readAll, fun h => h.readAll size⟩

end Keyframe

/-! ## Rules -/

namespace Rule

/-- The rule that the block of an at-rule is read as, unless the at-rule is a conditional group. -/
inductive BlockReads (head : AtHead) (body : List Lexeme) : Rule → Prop where
  /-- The steps of an animation. -/
  | keyframes {fs : List Keyframe} (isKeyframes : AtHead.isKeyframesName head.name)
      (inside : Keyframe.Reads body fs) : BlockReads head body (.keyframes head fs)
  /-- Declarations. -/
  | descriptors {ds : List Declaration} (notKeyframes : AtHead.isKeyframesName head.name = false)
      (isDescriptor : AtHead.isDescriptorName head.name) (inside : Declaration.Reads body ds) :
      BlockReads head body (.descriptors head ds)
  /-- Anything else, and what should be declarations but is not. -/
  | raw (notKeyframes : AtHead.isKeyframesName head.name = false)
      (notDescriptors : AtHead.isDescriptorName head.name → ∀ ds, ¬Declaration.Reads body ds) :
      BlockReads head body (.raw head (Text.trim (joined body)))

theorem blockReads_of_readBlock {size offset : Nat} {head : AtHead} {block : Block} {rule : Rule}
    (h : readBlock size offset head block = .ok rule) :
    BlockReads head block.body rule ∧ ∃ o, block.ending = .brace o := by
  unfold readBlock at h
  split_ifs at h with hkeyframes hdescriptor
  · obtain ⟨hread, hending⟩ := Block.finish_eq_ok_iff.1 h
    cases hframes : Keyframe.readAll size block.body with
    | error e =>
      rw [hframes] at hread
      cases hread
    | ok fs =>
      rw [hframes] at hread
      cases hread
      exact ⟨.keyframes hkeyframes (Keyframe.reads_of_readAll hframes), hending⟩
  · rw [Bool.not_eq_true] at hkeyframes
    cases hds : block.finish offset (Declaration.readAll block.ending block.body) with
    | ok ds =>
      rw [hds] at h
      cases h
      obtain ⟨hread, hending⟩ := Block.finish_eq_ok_iff.1 hds
      exact ⟨.descriptors hkeyframes hdescriptor (Declaration.reads_of_readAll hread), hending⟩
    | error e =>
      rw [hds] at h
      obtain ⟨hread, hending⟩ := Block.finish_eq_ok_iff.1 h
      cases hread
      refine ⟨.raw hkeyframes fun _ ds hreads => ?_, hending⟩
      rw [Block.finish_eq_ok_iff.2 ⟨hreads.readAll block.ending, hending⟩] at hds
      cases hds
  · rw [Bool.not_eq_true] at hkeyframes
    obtain ⟨hread, hending⟩ := Block.finish_eq_ok_iff.1 h
    cases hread
    exact ⟨.raw hkeyframes fun hname => absurd hname hdescriptor, hending⟩

theorem BlockReads.readBlock {head : AtHead} {body rest : List Lexeme} {rule : Rule}
    (h : BlockReads head body rule) (size offset o : Nat) :
    Rule.readBlock size offset head ⟨body, .brace o, rest⟩ = .ok rule := by
  have hfinish : ∀ {α : Type} (a : α),
      Block.finish ⟨body, .brace o, rest⟩ offset (.ok a : Except ParseError α) = .ok a :=
    fun a => Block.finish_eq_ok_iff.2 ⟨rfl, o, rfl⟩
  unfold Rule.readBlock
  cases h with
  | keyframes isKeyframes inside =>
    rw [if_pos isKeyframes]
    dsimp only
    rw [inside.readAll]
    exact hfinish _
  | descriptors notKeyframes isDescriptor inside =>
    rw [if_neg (by simp [notKeyframes]), if_pos isDescriptor]
    dsimp only
    rw [inside.readAll, hfinish]
  | raw notKeyframes notDescriptors =>
    rw [if_neg (by simp [notKeyframes])]
    split_ifs with hdescriptor
    · dsimp only
      cases hds : Block.finish ⟨body, .brace o, rest⟩ offset
          (Declaration.readAll (.brace o) body) with
      | ok ds =>
        have hread := (Block.finish_eq_ok_iff.1 hds).1
        exact absurd (Declaration.reads_of_readAll hread) (notDescriptors hdescriptor ds)
      | error e => exact hfinish _
    · exact hfinish _

/-- Whether a lexeme is skipped between rules. -/
def isSkipped (top : Bool) (l : Lexeme) : Bool :=
  l.isSpace || (top && (l.token = .cdo || l.token = .cdc))

/-- The rules that a run of lexemes is read as. -/
inductive Reads : Bool → List Lexeme → List Rule → Prop where
  /-- Nothing is left. -/
  | nil {top : Bool} : Reads top [] []
  /-- What is skipped between rules. -/
  | skip {top : Bool} {l : Lexeme} {ls : List Lexeme} {rs : List Rule} (skipped : isSkipped top l)
      (rest : Reads top ls rs) : Reads top (l :: ls) rs
  /-- A style rule. -/
  | style {top : Bool} {l b r : Lexeme} {head body rest : List Lexeme} {selectors : List String}
      {ds : List Declaration} {rs : List Rule} (notSkipped : isSkipped top l = false)
      (notAt : ∀ name, l.token ≠ .atKeyword name)
      (isRun : isRun endsSelectors [] ((l :: head).map Lexeme.token))
      (hasSelectors : selectors? (l :: head) = some selectors) (opens : b.token = .leftBrace)
      (isBalanced : isBalanced 0 (body.map Lexeme.token)) (closes : r.token = .rightBrace)
      (inside : Declaration.Reads body ds) (others : Reads top rest rs) :
      Reads top (l :: (head ++ b :: (body ++ r :: rest))) (.style ⟨selectors, ds⟩ :: rs)
  /-- An at-rule without a block at the end. -/
  | last {top : Bool} {l : Lexeme} {head : List Lexeme} {name : String}
      (isAt : l.token = .atKeyword name) (isRun : isRun endsAtHead [] (head.map Lexeme.token)) :
      Reads top (l :: head) [.statement ⟨atName l, collapsed head⟩]
  /-- An at-rule without a block. -/
  | statement {top : Bool} {l e : Lexeme} {head rest : List Lexeme} {name : String}
      {rs : List Rule} (isAt : l.token = .atKeyword name)
      (isRun : isRun endsAtHead [] (head.map Lexeme.token)) (ends : e.token = .semicolon)
      (others : Reads top rest rs) :
      Reads top (l :: (head ++ e :: rest)) (.statement ⟨atName l, collapsed head⟩ :: rs)
  /-- A conditional group. -/
  | group {top : Bool} {l b r : Lexeme} {head body rest : List Lexeme} {name : String}
      {inner rs : List Rule} (isAt : l.token = .atKeyword name)
      (isRun : isRun endsAtHead [] (head.map Lexeme.token)) (opens : b.token = .leftBrace)
      (isBalanced : isBalanced 0 (body.map Lexeme.token)) (closes : r.token = .rightBrace)
      (isGroup : AtHead.isGroupName (atName l)) (inside : Reads false body inner)
      (others : Reads top rest rs) :
      Reads top (l :: (head ++ b :: (body ++ r :: rest)))
        (.group ⟨atName l, collapsed head⟩ inner :: rs)
  /-- Another at-rule with a block. -/
  | block {top : Bool} {l b r : Lexeme} {head body rest : List Lexeme} {name : String} {rule : Rule}
      {rs : List Rule} (isAt : l.token = .atKeyword name)
      (isRun : isRun endsAtHead [] (head.map Lexeme.token)) (opens : b.token = .leftBrace)
      (isBalanced : isBalanced 0 (body.map Lexeme.token)) (closes : r.token = .rightBrace)
      (notGroup : AtHead.isGroupName (atName l) = false)
      (inside : BlockReads ⟨atName l, collapsed head⟩ body rule) (others : Reads top rest rs) :
      Reads top (l :: (head ++ b :: (body ++ r :: rest))) (rule :: rs)

theorem not_reads_rightBrace {top : Bool} {l : Lexeme} (hl : l.token = .rightBrace)
    {ls : List Lexeme} {rs : List Rule} : ¬Reads top (l :: ls) rs := by
  intro h
  cases h with
  | skip skipped rest => simp [isSkipped, Lexeme.isSpace, hl] at skipped
  | style notSkipped notAt isRun =>
    rw [List.map_cons, hl] at isRun
    cases isRun
  | last isAt | statement isAt | group isAt | block isAt =>
    rw [hl] at isAt
    cases isAt

theorem exists_of_map_eq_ok {α β : Type} {f : α → β} {x : Except ParseError α} {b : β}
    (h : x.map f = .ok b) : ∃ a, x = .ok a ∧ b = f a := by
  cases x with
  | error e => cases h
  | ok a =>
    cases h
    exact ⟨a, rfl, rfl⟩

theorem exists_of_readStyle_eq_ok {offset brace : Nat} {ls : List Lexeme} {block : Block}
    {rule : Rule} (h : readStyle offset brace ls block = .ok rule) :
    ∃ selectors ds, selectors? ls = some selectors ∧
      block.finish brace (Declaration.readAll block.ending block.body) = .ok ds ∧
        rule = .style ⟨selectors, ds⟩ := by
  unfold readStyle at h
  cases hselectors : selectors? ls with
  | none =>
    rw [hselectors] at h
    cases h
  | some selectors =>
    rw [hselectors] at h
    obtain ⟨ds, hds, h⟩ := bind_eq_ok_iff.1 h
    cases h
    exact ⟨selectors, ds, rfl, hds, rfl⟩

theorem reads_of_readAll {size : Nat} {top : Bool} {ending : Ending} {ls : List Lexeme}
    {rs : List Rule} (h : readAll size top ending ls = .ok rs) : Reads top ls rs := by
  fun_induction readAll size top ending ls generalizing rs with
  | case1 =>
    cases h
    exact .nil
  | case2 top ending l rest hskipped ih => exact .skip hskipped (ih h)
  | case3 | case4 | case10 | case11 | case12 | case14 => cases h
  | case5 top ending l rest _ _ name hname head hspan =>
    cases h
    obtain ⟨hrest, hrun, -⟩ := span_nil_eq_ok_iff.1 hspan
    rw [List.append_nil] at hrest
    rw [hrest]
    exact .last hname hrun
  | case6 top ending l rest _ _ name hname head b after hspan _ _ _ _ hopen =>
    rename_i hgroup ihRest ihBody
    obtain ⟨rule, hinside, h⟩ := bind_eq_ok_iff.1 h
    obtain ⟨rules, hrules, rfl⟩ := bind_cons_eq_ok_iff.1 h
    obtain ⟨rfl, hrun, -⟩ := span_nil_eq_ok_iff.1 hspan
    obtain ⟨r, hafter, hclose, hbalanced, hinside⟩ := Block.finish_take_eq_ok hinside
    obtain ⟨inner, hinner, rfl⟩ := exists_of_map_eq_ok hinside
    rw [hafter]
    exact .group hname hrun hopen hbalanced hclose hgroup (ihBody hinner) (ihRest hrules)
  | case7 top ending l rest _ _ name hname head b after hspan _ _ _ _ hopen =>
    rename_i hgroup ihRest
    obtain ⟨rule, hinside, h⟩ := bind_eq_ok_iff.1 h
    obtain ⟨rules, hrules, rfl⟩ := bind_cons_eq_ok_iff.1 h
    obtain ⟨rfl, hrun, -⟩ := span_nil_eq_ok_iff.1 hspan
    obtain ⟨hreads, o, hending⟩ := blockReads_of_readBlock hinside
    obtain ⟨r, hafter, hclose, hbalanced⟩ := Block.eq_of_take_eq_brace hending
    rw [hafter]
    exact .block hname hrun hopen hbalanced hclose (by simpa using hgroup) hreads (ihRest hrules)
  | case8 top ending l rest _ _ name hname head b after hspan =>
    rename_i hends ih
    obtain ⟨rules, hrules, rfl⟩ := bind_cons_eq_ok_iff.1 h
    obtain ⟨rfl, hrun, -⟩ := span_nil_eq_ok_iff.1 hspan
    exact .statement hname hrun hends (ih hrules)
  | case9 top ending l rest _ _ name hname head b after hspan =>
    rename_i hopen hends ih
    obtain ⟨rules, hrules, rfl⟩ := bind_cons_eq_ok_iff.1 h
    obtain ⟨-, -, hstop⟩ := span_nil_eq_ok_iff.1 hspan
    have hclose : b.token = .rightBrace := by
      simpa [endsAtHead, endsSelectors, hopen, hends] using hstop
    exact absurd (ih hrules) (not_reads_rightBrace hclose)
  | case13 top ending l rest hskipped _ head b after hspan _ _ hopen =>
    rename_i hname ih
    obtain ⟨rule, hinside, h⟩ := bind_eq_ok_iff.1 h
    obtain ⟨rules, hrules, rfl⟩ := bind_cons_eq_ok_iff.1 h
    obtain ⟨hls, hrun, -⟩ := span_nil_eq_ok_iff.1 hspan
    obtain ⟨selectors, ds, hselectors, hds, rfl⟩ := exists_of_readStyle_eq_ok hinside
    obtain ⟨r, hafter, hclose, hbalanced, hread⟩ := Block.finish_take_eq_ok hds
    cases head with
    | nil => cases hselectors
    | cons l' head =>
      obtain ⟨rfl, rfl⟩ := List.cons.inj hls
      rw [hafter]
      exact .style (by simpa [isSkipped] using hskipped) hname hrun hselectors hopen hbalanced
        hclose (Declaration.reads_of_readAll hread) (ih hrules)

section

variable {size : Nat} {top : Bool} {ending : Ending} {l : Lexeme} {name : String}

theorem readAll_at (isAt : l.token = .atKeyword name) {head rest after : List Lexeme} {b : Lexeme}
    (hspan : span endsAtHead [] rest = .ok (head, b :: after)) :
    readAll size top ending (l :: rest) =
      if b.token = .leftBrace then do
        let rule ←
          if AtHead.isGroupName (atName l) then
            (Block.take size 0 after).finish b.start
              ((readAll size false (Block.take size 0 after).ending
                (Block.take size 0 after).body).map (group ⟨atName l, collapsed head⟩))
          else readBlock size b.start ⟨atName l, collapsed head⟩ (Block.take size 0 after)
        let rules ← readAll size top ending (Block.take size 0 after).rest
        return rule :: rules
      else if b.token = .semicolon then do
        let rules ← readAll size top ending after
        return statement ⟨atName l, collapsed head⟩ :: rules
      else do
        let rules ← readAll size top ending (b :: after)
        return statement ⟨atName l, collapsed head⟩ :: rules := by
  rw [readAll.eq_def]
  dsimp only
  rw [if_neg (by simp [Lexeme.isSpace, isAt]), if_neg (by simp [isAt])]
  split
  · split
    · rename_i heq
      rw [hspan] at heq
      cases heq
    · rename_i heq
      rw [hspan] at heq
      cases heq
    · rename_i heq
      rw [hspan] at heq
      cases heq
      split_ifs <;> rfl
  · rename_i hname
    exact (hname _ isAt).elim

theorem readAll_last (isAt : l.token = .atKeyword name) {head : List Lexeme}
    (hspan : span endsAtHead [] head = .ok (head, [])) :
    readAll size top ending (l :: head) = .ok [statement ⟨atName l, collapsed head⟩] := by
  rw [readAll.eq_def]
  dsimp only
  rw [if_neg (by simp [Lexeme.isSpace, isAt]), if_neg (by simp [isAt])]
  split
  · split
    · rename_i heq
      rw [hspan] at heq
      cases heq
    · rename_i heq
      rw [hspan] at heq
      cases heq
      rfl
    · rename_i heq
      rw [hspan] at heq
      cases heq
  · rename_i hname
    exact (hname _ isAt).elim

theorem readAll_style (notSkipped : isSkipped top l = false)
    (notAt : ∀ name, l.token ≠ .atKeyword name) (notClose : l.token ≠ .rightBrace)
    {head rest after : List Lexeme} {b : Lexeme} (opens : b.token = .leftBrace)
    (hspan : span endsSelectors [] (l :: rest) = .ok (head, b :: after)) :
    readAll size top ending (l :: rest) = do
      let rule ← readStyle l.start b.start head (Block.take size 0 after)
      let rules ← readAll size top ending (Block.take size 0 after).rest
      return rule :: rules := by
  have hskipped : (l.isSpace || (top && (l.token = .cdo || l.token = .cdc))) = false := notSkipped
  rw [readAll.eq_def]
  dsimp only
  rw [if_neg (by simp [hskipped]), if_neg notClose]
  split
  · rename_i hname
    exact (notAt _ hname).elim
  · split
    · rename_i heq
      rw [hspan] at heq
      cases heq
    · rename_i heq
      rw [hspan] at heq
      cases heq
    · rename_i heq
      rw [hspan] at heq
      cases heq
      rw [if_pos opens]

end

theorem Reads.readAll {top : Bool} {ls : List Lexeme} {rs : List Rule} (h : Reads top ls rs)
    (size : Nat) (ending : Ending) : Rule.readAll size top ending ls = .ok rs := by
  induction h generalizing ending with
  | nil => rw [Rule.readAll.eq_def]
  | @skip top l ls rs skipped rest ih =>
    have hskipped : (l.isSpace || (top && (l.token = .cdo || l.token = .cdc))) = true := skipped
    rw [Rule.readAll.eq_def]
    dsimp only
    rw [if_pos hskipped]
    exact ih ending
  | @style top l b r head body rest selectors ds rs notSkipped notAt isRun hasSelectors opens
      isBalanced closes inside others ih =>
    have hspan : span endsSelectors [] (l :: (head ++ b :: (body ++ r :: rest))) =
        .ok (l :: head, b :: (body ++ r :: rest)) :=
      span_nil_eq_ok_iff.2 ⟨rfl, isRun, by simp [opens, endsSelectors]⟩
    have notClose : l.token ≠ .rightBrace := by
      intro hclose
      rw [List.map_cons, hclose] at isRun
      cases isRun
    rw [readAll_style notSkipped notAt notClose opens hspan,
      Block.take_of_isBalanced isBalanced closes]
    simp only [readStyle, hasSelectors, inside.readAll, ih, Block.finish]
    rfl
  | last isAt isRun =>
    exact readAll_last isAt (span_nil_eq_ok_iff.2 ⟨(List.append_nil _).symm, isRun, by simp⟩)
  | statement isAt isRun ends others ih =>
    rw [readAll_at isAt (span_nil_eq_ok_iff.2 ⟨rfl, isRun, by simp [ends, endsAtHead]⟩),
      if_neg (by simp [ends]), if_pos ends, ih]
    rfl
  | @group top l b r head body rest name inner rs isAt isRun opens isBalanced closes isGroup inside
      others ihInside ih =>
    have hspan : span endsAtHead [] (head ++ b :: (body ++ r :: rest)) =
        .ok (head, b :: (body ++ r :: rest)) :=
      span_nil_eq_ok_iff.2 ⟨rfl, isRun, by simp [opens, endsAtHead, endsSelectors]⟩
    rw [readAll_at isAt hspan, if_pos opens, if_pos isGroup,
      Block.take_of_isBalanced isBalanced closes]
    simp only [ihInside, ih, Block.finish]
    rfl
  | @block top l b r head body rest name rule rs isAt isRun opens isBalanced closes notGroup inside
      others ih =>
    have hspan : span endsAtHead [] (head ++ b :: (body ++ r :: rest)) =
        .ok (head, b :: (body ++ r :: rest)) :=
      span_nil_eq_ok_iff.2 ⟨rfl, isRun, by simp [opens, endsAtHead, endsSelectors]⟩
    rw [readAll_at isAt hspan, if_pos opens, if_neg (by simp [notGroup]),
      Block.take_of_isBalanced isBalanced closes, inside.readBlock]
    simp only [ih]
    rfl

theorem readAll_eq_ok_iff (size : Nat) (ending : Ending) {top : Bool} {ls : List Lexeme}
    {rs : List Rule} : readAll size top ending ls = .ok rs ↔ Reads top ls rs :=
  ⟨reads_of_readAll, fun h => h.readAll size ending⟩

end Rule

end Restyle.Css
