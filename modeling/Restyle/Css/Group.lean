import Restyle.Css.Error
import Restyle.Css.Token

/-!
# Groups and blocks

Cutting a run of lexemes where a rule needs it: `span` goes up to the first of some tokens outside
all groups and checks on its way that groups are balanced, `Block.take` goes up to the brace that
closes a block, and `arguments` up to the parenthesis that closes a function.
-/

namespace Restyle.Css

/-- A group that has been opened: what closes it, and where it starts. -/
structure Opened where
  /-- The token that closes the group. -/
  closer : Token
  /-- The byte offset of the token that opened it. -/
  offset : Nat
deriving DecidableEq, Repr

/-- What the next lexeme does to the groups that are open, innermost first. -/
def Opened.next (groups : List Opened) (l : Lexeme) : Except ParseError (List Opened) :=
  match l.token with
  | .function _ | .leftParen => .ok (⟨.rightParen, l.start⟩ :: groups)
  | .leftBracket => .ok (⟨.rightBracket, l.start⟩ :: groups)
  | .rightParen | .rightBracket =>
    match groups with
    | g :: rest => if g.closer = l.token then .ok rest else .error (.unclosedGroup g.offset)
    | [] => .error (.unbalancedGroup (if l.token = .rightParen then ')' else ']') l.start)
  | .leftBrace | .rightBrace =>
    match groups with
    | g :: _ => .error (.unclosedGroup g.offset)
    -- With no group open, only a block inside a value is not a place to stop.
    | [] => .error (.invalidDeclaration l.start .braceInValue)
  | _ => .ok groups

/-- The lexemes up to the first one outside all groups that `stop` selects, and those from it on.
The list `groups` holds the groups already open. -/
def span (stop : Token → Bool) (groups : List Opened) :
    List Lexeme → Except ParseError (List Lexeme × List Lexeme)
  | [] =>
    match groups with
    | g :: _ => .error (.unclosedGroup g.offset)
    | [] => .ok ([], [])
  | l :: ls =>
    if groups.isEmpty && stop l.token then .ok ([], l :: ls)
    else do
      let groups ← Opened.next groups l
      let (before, after) ← span stop groups ls
      return (l :: before, after)

/-- Where a run of lexemes ends. -/
inductive Ending where
  /-- At the brace that closes the block. -/
  | brace (offset : Nat)
  /-- At the end of the text. -/
  | text (offset : Nat)
deriving DecidableEq, Repr

/-- The byte offset of an ending. -/
def Ending.offset : Ending → Nat
  | brace o | text o => o

/-- The inside of a block, how it ends, and what comes after it. -/
structure Block where
  /-- The lexemes between the braces. -/
  body : List Lexeme
  /-- The closing brace, or the end of the text if the block is never closed. -/
  ending : Ending
  /-- The lexemes after the closing brace. -/
  rest : List Lexeme
deriving DecidableEq, Repr

namespace Block

/-- Puts a lexeme in front of the inside. -/
def push (l : Lexeme) (b : Block) : Block :=
  { b with body := l :: b.body }

/-- Cuts a run of lexemes at the brace that closes a block, of which `depth` inner blocks are open.
The text has `size` bytes. -/
def take (size : Nat) : Nat → List Lexeme → Block
  | _, [] => ⟨[], .text size, []⟩
  | depth, l :: ls =>
    match l.token, depth with
    | .leftBrace, depth => (take size (depth + 1) ls).push l
    | .rightBrace, 0 => ⟨[], .brace l.start, ls⟩
    | .rightBrace, depth + 1 => (take size depth ls).push l
    | _, depth => (take size depth ls).push l

/-- What was read from the inside counts only if the block, opened at `offset`, is closed. -/
def finish {α : Type} (b : Block) (offset : Nat) (read : Except ParseError α) :
    Except ParseError α := do
  let a ← read
  match b.ending with
  | .brace _ => return a
  | .text _ => throw (.unclosedBlock offset)

end Block

/-- The arguments of a function up to its closing parenthesis, of which `depth` inner ones are open,
and the lexemes after it. Without a closing parenthesis everything is an argument. -/
def arguments : Nat → List Lexeme → List Lexeme × List Lexeme
  | _, [] => ([], [])
  | depth, l :: ls =>
    match l.token, depth with
    | .rightParen, 0 => ([], ls)
    | .rightParen, depth + 1 => let (args, rest) := arguments depth ls; (l :: args, rest)
    | .function _, depth | .leftParen, depth =>
      let (args, rest) := arguments (depth + 1) ls; (l :: args, rest)
    | _, depth => let (args, rest) := arguments depth ls; (l :: args, rest)

/-- The pieces of a run of lexemes between its commas outside all groups, `depth` of them open. -/
def commaPieces : Nat → List Lexeme → List (List Lexeme)
  | _, [] => [[]]
  | depth, l :: ls =>
    let depth :=
      if l.token.opensGroup then depth + 1 else if l.token.closesGroup then depth - 1 else depth
    if depth = 0 ∧ l.token = .comma then [] :: commaPieces depth ls
    else
      match commaPieces depth ls with
      | p :: ps => (l :: p) :: ps
      | [] => [[l]]

/-! ## Cutting keeps every lexeme -/

theorem span_append {stop : Token → Bool} {groups : List Opened} {ls before after : List Lexeme}
    (h : span stop groups ls = .ok (before, after)) : before ++ after = ls := by
  induction ls generalizing groups before with
  | nil =>
    cases groups <;> simp only [span, Except.ok.injEq, Prod.mk.injEq, reduceCtorEq] at h
    rw [← h.1, ← h.2]; rfl
  | cons l ls ih =>
    rw [span] at h
    split at h
    · simp only [Except.ok.injEq, Prod.mk.injEq] at h
      rw [← h.1, ← h.2]; rfl
    · cases hn : Opened.next groups l with
      | error e => simp [hn, bind, Except.bind] at h
      | ok groups' =>
        cases hs : span stop groups' ls with
        | error e => simp [hn, hs, bind, Except.bind] at h
        | ok p =>
          obtain ⟨b, a⟩ := p
          simp only [hn, hs, bind, Except.bind, pure, Except.pure, Except.ok.injEq,
            Prod.mk.injEq] at h
          obtain ⟨rfl, rfl⟩ := h
          rw [List.cons_append, ih hs]

theorem span_length_le {stop : Token → Bool} {groups : List Opened} {ls before after : List Lexeme}
    (h : span stop groups ls = .ok (before, after)) : after.length ≤ ls.length := by
  rw [← span_append h, List.length_append]; omega

namespace Block

theorem length_push (l : Lexeme) (b : Block) :
    (b.push l).body.length + (b.push l).rest.length = b.body.length + b.rest.length + 1 :=
  Nat.succ_add _ _

theorem length_take (size depth : Nat) (ls : List Lexeme) :
    (take size depth ls).body.length + (take size depth ls).rest.length ≤ ls.length := by
  fun_induction take size depth ls with
  | case1 => exact Nat.le_refl 0
  | case3 l ls hl => simp
  | case2 _ _ _ _ ih | case4 _ _ _ _ ih | case5 _ _ _ _ _ _ ih =>
    rw [length_push, List.length_cons]
    exact Nat.succ_le_succ ih

theorem length_body_take (size depth : Nat) (ls : List Lexeme) :
    (take size depth ls).body.length ≤ ls.length := by
  have := length_take size depth ls; omega

theorem length_rest_take (size depth : Nat) (ls : List Lexeme) :
    (take size depth ls).rest.length ≤ ls.length := by
  have := length_take size depth ls; omega

end Block

theorem length_arguments (depth : Nat) (ls : List Lexeme) :
    (arguments depth ls).1.length + (arguments depth ls).2.length ≤ ls.length := by
  fun_induction arguments depth ls with
  | case1 => exact Nat.le_refl 0
  | case2 => simp
  | case3 _ _ _ _ _ _ hargs ih | case4 _ _ _ _ _ _ _ hargs ih | case5 _ _ _ _ _ _ hargs ih
  | case6 _ _ _ _ _ hargs _ _ _ _ ih =>
    rw [hargs] at ih
    rw [List.length_cons, List.length_cons, Nat.succ_add]
    exact Nat.succ_le_succ ih

end Restyle.Css
