import Restyle.Proofs.Css.Keeping
import Restyle.Proofs.Css.TidyRuns

/-!
# Sources that are read back

A style sheet is read back from its text if its source is tidy (`Stylesheet.IsTidy`): no comment
stands between tokens that would run together, or cuts the white space of a selector or a prelude,
nothing but white space is trimmed off what is written trimmed, and nothing is left open at the end.
The condition looks at the lexemes of the source alone, each of which stands in one piece of it: a
declaration, what stands before a block or the text that is kept of one. Main statement:
`Stylesheet.parse_css_of_isTidy`.
-/

namespace Restyle.Css

open Text Lexeme

/-! ## Tidy sources -/

/-- Whether a run of lexemes is read as declarations. -/
def Declaration.isReadable (ls : List Lexeme) : Bool :=
  (readAll (.text 0) ls).toOption.isSome

/-- Whether what stands before the blocks of an animation is tidy. -/
def Keyframe.isTidy (ls : List Lexeme) : Bool :=
  match ls with
  | [] => true
  | l :: rest =>
    if l.isSpace then isTidy rest
    else
      match h : span endsSelectors [] (l :: rest) with
      | .error _ | .ok (_, []) => true
      | .ok (head, _ :: after) =>
        have := span_length_le h
        have := Block.length_rest_take 0 0 after
        Lexeme.isTidy head && isTidy (Block.take 0 0 after).rest
termination_by ls.length
decreasing_by all_goals simp_all only [List.length_cons]; omega

namespace Rule

/-- Whether the part of an at-rule before its block is tidy: no escape at the end of its at-keyword
takes the space after it, and its prelude is tidy. -/
def headIsTidy (l : Lexeme) (head : List Lexeme) : Bool :=
  !Lexer.endsOpen l.raw.toList && Lexeme.isTidy head

/-- Whether the inside of a block is tidy, in an at-rule that is no conditional group. Only the ends
count of what is kept as text. -/
def bodyIsTidy (name : String) (body : List Lexeme) : Bool :=
  if AtHead.isKeyframesName name then Keyframe.isTidy body
  else AtHead.isDescriptorName name && Declaration.isReadable body || keepsEnds body

/-- Whether what stands before the blocks of rules is tidy, and what is kept of blocks as text. -/
def isTidy (top : Bool) (ls : List Lexeme) : Bool :=
  match ls with
  | [] => true
  | l :: rest =>
    if isSkipped top l then isTidy top rest
    else if l.token.isAtKeyword then
      match h : span endsAtHead [] rest with
      | .error _ => true
      | .ok (head, []) => headIsTidy l head
      | .ok (head, b :: after) =>
        have : after.length < rest.length := span_length_le h
        have := Block.length_body_take 0 0 after
        have := Block.length_rest_take 0 0 after
        let block := Block.take 0 0 after
        headIsTidy l head &&
          if b.token = .leftBrace then
            (if AtHead.isGroupName (atName l) then isTidy false block.body
              else bodyIsTidy (atName l) block.body) && isTidy top block.rest
          else isTidy top after
    else
      match h : span endsSelectors [] (l :: rest) with
      | .error _ | .ok (_, []) => true
      | .ok (head, _ :: after) =>
        have : after.length ≤ rest.length := Nat.le_of_succ_le_succ (span_length_le h)
        have := Block.length_rest_take 0 0 after
        (commaPieces 0 head).all Lexeme.isTidy && isTidy top (Block.take 0 0 after).rest
termination_by ls.length
decreasing_by all_goals simp only [List.length_cons]; omega

end Rule

/-- Whether a source is read back from what is written of it, as far as its tokens tell. -/
structure Stylesheet.IsTidy (source : String) : Prop where
  /-- No comment stands between tokens that would run together. -/
  apart : Lexeme.apart (scan source)
  /-- Nothing but a comment is left open at the end: a brace there is a token of its own. -/
  closed : ∃ close ∈ ["", "*/"], (scan (source ++ close ++ "\x7b")).map plain =
    (scan source).map plain ++ [delimiter '\x7b' 0]
  /-- No backslash stands before the end of a line. -/
  noBackslash : ∀ l ∈ scan source, l.token ≠ .delim '\\'
  /-- What is written trimmed, or with one space for each piece of white space, keeps its text. -/
  pieces : Rule.isTidy true (scan source)

instance (source : String) : Decidable (Stylesheet.IsTidy source) :=
  decidable_of_iff (Lexeme.apart (scan source) ∧
      (∃ close ∈ ["", "*/"], (scan (source ++ close ++ "\x7b")).map plain =
        (scan source).map plain ++ [delimiter '\x7b' 0]) ∧
      (∀ l ∈ scan source, l.token ≠ .delim '\\') ∧ Rule.isTidy true (scan source))
    ⟨fun ⟨apart, closed, noBackslash, pieces⟩ => ⟨apart, closed, noBackslash, pieces⟩,
      fun h => ⟨h.apart, h.closed, h.noBackslash, h.pieces⟩⟩

/-! ## What is read from a tidy run -/

section

variable {head body rest back : List Lexeme} {b r : Lexeme}

/-- The parts of a piece around a block and inside of it are pieces. -/
theorem Lexeme.IsCut.block (h : IsCut (head ++ b :: (body ++ r :: rest)) back)
    (opens : b.token = .leftBrace) (closes : r.token = .rightBrace) :
    IsCut head (b :: (body ++ r :: rest) ++ back) ∧ IsCut body (r :: rest ++ back) ∧
      IsCut rest back := by
  have hafter : IsCut (body ++ r :: rest) back := h.right.tail
  exact ⟨h.left (endsPiece_cons (by rw [opens]; rfl) _),
    hafter.left (endsPiece_cons (by rw [closes]; rfl) _), hafter.right.tail⟩

theorem Lexeme.IsCut.block_cons {l : Lexeme}
    (h : IsCut (l :: (head ++ b :: (body ++ r :: rest))) back) (opens : b.token = .leftBrace)
    (closes : r.token = .rightBrace) :
    IsCut (l :: head) (b :: (body ++ r :: rest) ++ back) ∧ IsCut body (r :: rest ++ back) ∧
      IsCut rest back := by
  rw [← List.cons_append] at h
  exact h.block opens closes

end

namespace Keyframe

theorem isTidy_skip {l : Lexeme} (hl : l.isSpace) (ls : List Lexeme) :
    isTidy (l :: ls) = isTidy ls := by
  rw [isTidy, if_pos hl]

theorem isTidy_cons {l : Lexeme} (hl : l.isSpace = false) (rest : List Lexeme) :
    isTidy (l :: rest) =
      match span endsSelectors [] (l :: rest) with
      | .error _ | .ok (_, []) => true
      | .ok (head, _ :: after) => Lexeme.isTidy head && isTidy (Block.take 0 0 after).rest := by
  rw [isTidy, if_neg (by simp [hl])]
  split <;> rename_i heq <;> simp only [heq]

theorem isTidy_frame {head body rest : List Lexeme} {b r : Lexeme}
    (notSpace : ∀ l ∈ head.head?, l.isSpace = false)
    (isRun : isRun endsSelectors [] (head.map token)) (opens : b.token = .leftBrace)
    (isBalanced : isBalanced 0 (body.map token)) (closes : r.token = .rightBrace) :
    isTidy (head ++ b :: (body ++ r :: rest)) = (Lexeme.isTidy head && isTidy rest) := by
  have hspan : span endsSelectors [] (head ++ b :: (body ++ r :: rest)) =
      .ok (head, b :: (body ++ r :: rest)) :=
    span_nil_eq_ok_iff.2 ⟨rfl, isRun, by simp [opens, endsSelectors]⟩
  obtain ⟨l, ls, hls, hl⟩ : ∃ l ls, head ++ b :: (body ++ r :: rest) = l :: ls ∧
      l.isSpace = false := by
    cases head with
    | nil => exact ⟨b, _, rfl, by simp [Lexeme.isSpace, opens]⟩
    | cons l head => exact ⟨l, _, rfl, notSpace l rfl⟩
  rw [hls] at hspan ⊢
  rw [isTidy_cons hl, hspan]
  dsimp only
  rw [Block.take_of_isBalanced isBalanced closes]

/-- The steps of an animation are read back if what stands before their blocks is tidy. -/
theorem Reads.readsBack_of_isTidy {ls back : List Lexeme} {fs : List Keyframe} (h : Reads ls fs)
    (hcut : IsCut ls back) (htidy : isTidy ls) : ∀ f ∈ fs, f.readsBack := by
  induction h with
  | nil => simp
  | @skip l ls fs isSpace _ ih =>
    rw [isTidy_skip isSpace] at htidy
    exact ih hcut.tail htidy
  | frame notSpace isRun opens isBalanced closes inside _ ih =>
    rw [isTidy_frame notSpace isRun opens isBalanced closes, Bool.and_eq_true] at htidy
    obtain ⟨hhead, hbody, hrest⟩ := hcut.block opens closes
    rw [List.forall_mem_cons]
    refine ⟨?_, ih hrest htidy.2⟩
    rw [Keyframe.readsBack, Bool.and_eq_true, List.all_eq_true]
    exact ⟨selectorReadsBack_of_isCut hhead htidy.1 isRun, inside.readsBack_of_isCut hbody⟩

end Keyframe

namespace Rule

section

variable {top : Bool} {l b r : Lexeme} {head body rest : List Lexeme} {name : String}

theorem isTidy_skip (hl : isSkipped top l) (ls : List Lexeme) :
    isTidy top (l :: ls) = isTidy top ls := by
  rw [isTidy, if_pos hl]

theorem not_isSkipped_of_at (isAt : l.token = .atKeyword name) : isSkipped top l = false := by
  simp [isSkipped, Lexeme.isSpace, isAt]

theorem isTidy_at (isAt : l.token = .atKeyword name) (rest : List Lexeme) :
    isTidy top (l :: rest) =
      match span endsAtHead [] rest with
      | .error _ => true
      | .ok (head, []) => headIsTidy l head
      | .ok (head, b :: after) =>
        headIsTidy l head &&
          if b.token = .leftBrace then
            (if AtHead.isGroupName (atName l) then isTidy false (Block.take 0 0 after).body
              else bodyIsTidy (atName l) (Block.take 0 0 after).body) &&
                isTidy top (Block.take 0 0 after).rest
          else isTidy top after := by
  rw [isTidy, if_neg (by simp [not_isSkipped_of_at isAt]),
    if_pos (Token.isAtKeyword_iff.2 ⟨name, isAt⟩)]
  split <;> rename_i heq <;> simp only [heq]

theorem isTidy_last (isAt : l.token = .atKeyword name)
    (isRun : isRun endsAtHead [] (head.map token)) :
    isTidy top (l :: head) = headIsTidy l head := by
  have hspan : span endsAtHead [] head = .ok (head, []) :=
    span_nil_eq_ok_iff.2 ⟨(List.append_nil _).symm, isRun, by simp⟩
  rw [isTidy_at isAt, hspan]

theorem isTidy_statement (isAt : l.token = .atKeyword name)
    (isRun : isRun endsAtHead [] (head.map token)) (ends : b.token = .semicolon) :
    isTidy top (l :: (head ++ b :: rest)) = (headIsTidy l head && isTidy top rest) := by
  have hspan : span endsAtHead [] (head ++ b :: rest) = .ok (head, b :: rest) :=
    span_nil_eq_ok_iff.2 ⟨rfl, isRun, by simp [ends, endsAtHead]⟩
  rw [isTidy_at isAt, hspan]
  dsimp only
  rw [if_neg (by simp [ends])]

theorem isTidy_block (isAt : l.token = .atKeyword name)
    (isRun : isRun endsAtHead [] (head.map token)) (opens : b.token = .leftBrace)
    (isBalanced : isBalanced 0 (body.map token)) (closes : r.token = .rightBrace) :
    isTidy top (l :: (head ++ b :: (body ++ r :: rest))) =
      (headIsTidy l head &&
        ((if AtHead.isGroupName (atName l) then isTidy false body
          else bodyIsTidy (atName l) body) && isTidy top rest)) := by
  have hspan : span endsAtHead [] (head ++ b :: (body ++ r :: rest)) =
      .ok (head, b :: (body ++ r :: rest)) :=
    span_nil_eq_ok_iff.2 ⟨rfl, isRun, by simp [opens, endsAtHead, endsSelectors]⟩
  rw [isTidy_at isAt, hspan]
  dsimp only
  rw [if_pos opens, Block.take_of_isBalanced isBalanced closes]

theorem isTidy_style (notSkipped : isSkipped top l = false)
    (notAt : ∀ name, l.token ≠ .atKeyword name)
    (isRun : isRun endsSelectors [] ((l :: head).map token)) (opens : b.token = .leftBrace)
    (isBalanced : isBalanced 0 (body.map token)) (closes : r.token = .rightBrace) :
    isTidy top (l :: (head ++ b :: (body ++ r :: rest))) =
      ((commaPieces 0 (l :: head)).all Lexeme.isTidy && isTidy top rest) := by
  have hspan : span endsSelectors [] (l :: (head ++ b :: (body ++ r :: rest))) =
      .ok (l :: head, b :: (body ++ r :: rest)) :=
    span_nil_eq_ok_iff.2 ⟨rfl, isRun, by simp [opens, endsSelectors]⟩
  have hname : ¬l.token.isAtKeyword := fun h => by
    obtain ⟨name, hname⟩ := Token.isAtKeyword_iff.1 h
    exact notAt name hname
  rw [isTidy, if_neg (by simp [notSkipped]), if_neg hname]
  split <;> rename_i heq <;> rw [hspan] at heq <;> cases heq
  dsimp only
  rw [Block.take_of_isBalanced isBalanced closes]

end

theorem atHead_readsBack {l : Lexeme} {head back : List Lexeme} {name : String}
    (h : IsCut (l :: head) back) (isAt : l.token = .atKeyword name)
    (isRun : isRun endsAtHead [] (head.map token)) (htidy : headIsTidy l head) :
    AtHead.readsBack ⟨atName l, collapsed head⟩ := by
  rw [headIsTidy, Bool.and_eq_true, Bool.not_eq_true'] at htidy
  exact AtHead.readsBack_of_isCut h isAt htidy.1 isRun htidy.2

/-- The block of an at-rule is read back if its inside is tidy. -/
theorem BlockReads.readsBack_of_isTidy {top : Bool} {head : AtHead} {body back : List Lexeme}
    {rule : Rule} (h : BlockReads head body rule) (hcut : IsCut body back)
    (isBalanced : isBalanced 0 (body.map token)) (notGroup : AtHead.isGroupName head.name = false)
    (hhead : head.readsBack) (htidy : bodyIsTidy head.name body) : readsBack top rule := by
  cases h with
  | keyframes isKeyframes inside =>
    rw [bodyIsTidy, if_pos isKeyframes] at htidy
    simp only [readsBack, hhead, notGroup, isKeyframes, Bool.not_false, Bool.and_true,
      Bool.true_and, List.all_eq_true]
    exact inside.readsBack_of_isTidy hcut htidy
  | descriptors notKeyframes isDescriptor inside =>
    simp only [readsBack, hhead, notGroup, notKeyframes, isDescriptor, Bool.not_false,
      Bool.and_true, Bool.true_and, List.all_eq_true]
    exact inside.readsBack_of_isCut hcut
  | raw notKeyframes notDescriptors =>
    rw [bodyIsTidy, if_neg (by simp [notKeyframes]), Bool.or_eq_true, Bool.and_eq_true] at htidy
    have hkeeps : keepsEnds body := by
      refine htidy.resolve_left fun hreadable => ?_
      obtain ⟨ds, hds⟩ := Option.isSome_iff_exists.1 hreadable.2
      exact notDescriptors hreadable.1 ds (Declaration.toOption_readAll.1 hds)
    simp only [readsBack, hhead, notGroup, notKeyframes, Bool.not_false, Bool.and_true,
      Bool.true_and]
    exact textReadsBack_of_isCut hcut hkeeps isBalanced notDescriptors

/-- Rules are read back if what stands before their blocks is tidy, and what is kept as text. -/
theorem Reads.readsBack_of_isTidy {top : Bool} {ls back : List Lexeme} {rs : List Rule}
    (h : Reads top ls rs) (hcut : IsCut ls back) (htidy : isTidy top ls) :
    allReadBack top rs := by
  induction h generalizing back with
  | nil => rw [allReadBack]
  | @skip top l ls rs skipped _ ih =>
    rw [isTidy_skip skipped] at htidy
    exact ih hcut.tail htidy
  | @style top l b r head body rest selectors ds rs notSkipped notAt isRun hasSelectors opens
      isBalanced closes inside _ ih =>
    rw [isTidy_style notSkipped notAt isRun opens isBalanced closes, Bool.and_eq_true,
      List.all_eq_true] at htidy
    obtain ⟨hhead, hbody, hrest⟩ := hcut.block_cons opens closes
    rw [allReadBack, Bool.and_eq_true, Rule.readsBack, Bool.and_eq_true, List.all_eq_true]
    exact ⟨⟨selectorsReadBack_of_isCut hhead notSkipped notAt isRun hasSelectors htidy.1,
      inside.readsBack_of_isCut hbody⟩, ih hrest htidy.2⟩
  | @last top l head name isAt isRun =>
    rw [isTidy_last isAt isRun] at htidy
    rw [allReadBack, Bool.and_eq_true, Rule.readsBack, allReadBack]
    exact ⟨atHead_readsBack hcut isAt isRun htidy, rfl⟩
  | @statement top l e head rest name rs isAt isRun ends _ ih =>
    rw [isTidy_statement isAt isRun ends, Bool.and_eq_true] at htidy
    rw [← List.cons_append] at hcut
    have hhead := hcut.left (endsPiece_cons (by rw [ends]; rfl) _)
    rw [allReadBack, Bool.and_eq_true, Rule.readsBack]
    exact ⟨atHead_readsBack hhead isAt isRun htidy.1, ih hcut.right.tail htidy.2⟩
  | @group top l b r head body rest name inner rs isAt isRun opens isBalanced closes isGroup _ _
      ihInside ih =>
    rw [isTidy_block isAt isRun opens isBalanced closes, if_pos isGroup, Bool.and_eq_true,
      Bool.and_eq_true] at htidy
    obtain ⟨hhead, hbody, hrest⟩ := hcut.block_cons opens closes
    rw [allReadBack, Bool.and_eq_true, Rule.readsBack, Bool.and_eq_true, Bool.and_eq_true]
    exact ⟨⟨⟨atHead_readsBack hhead isAt isRun htidy.1, isGroup⟩, ihInside hbody htidy.2.1⟩,
      ih hrest htidy.2.2⟩
  | @block top l b r head body rest name rule rs isAt isRun opens isBalanced closes notGroup inside
      _ ih =>
    rw [isTidy_block isAt isRun opens isBalanced closes, if_neg (by simp [notGroup]),
      Bool.and_eq_true, Bool.and_eq_true] at htidy
    obtain ⟨hhead, hbody, hrest⟩ := hcut.block_cons opens closes
    rw [allReadBack, Bool.and_eq_true]
    exact ⟨inside.readsBack_of_isTidy hbody isBalanced notGroup
      (atHead_readsBack hhead isAt isRun htidy.1) htidy.2.1, ih hrest htidy.2.2⟩

end Rule

/-! ## Style sheets -/

namespace Stylesheet

/-- A tidy source is cut as one piece. -/
theorem IsTidy.isCut {source : String} (h : IsTidy source)
    (hbroken : ∀ l ∈ scan source, l.isBroken = false) : IsCut (scan source) [] := by
  obtain ⟨close, -, hclosed⟩ := h.closed
  have hspelled : ∀ l ∈ scan source, l.Spelled := spelled_scanFrom hbroken
  refine ⟨⟨(joined (scan source)).toList, [], ?_⟩, endsPiece_nil, hspelled,
    fun l hl _ isAt => toList_raw_of_at hl (hspelled l hl) isAt, h.noBackslash⟩
  rw [List.nil_append, List.append_nil]
  exact cutsInto_joined h.apart hclosed hbroken

/-- A style sheet that is read from a tidy source is read back from its text. -/
theorem parse_css_of_isTidy {source : String} {sheet : Stylesheet} (h : parse source = .ok sheet)
    (htidy : IsTidy source) : parse sheet.css = .ok sheet := by
  obtain ⟨hbroken, hreads⟩ := parse_eq_ok_iff.1 h
  exact parse_css_of_readsBack (hreads.readsBack_of_isTidy (htidy.isCut hbroken) htidy.pieces)

theorem parse_css_nested :
    let source := "@media é\x7ba > b,.c\\31 x\x7bcolor : f(1px)/**/ ! Important\x7d" ++
      "@page\x7b--v: [ü]\x7d\x7d@import 'x'"
    let sheet : Stylesheet := ⟨[
      .group ⟨"media", "é"⟩ [
        .style ⟨["a > b", ".c\\31 x"], [⟨"color", [.call "f" [.other "1px"]], true⟩]⟩,
        .descriptors ⟨"page", ""⟩ [⟨"--v", [.other "[ü]"], false⟩]],
      .statement ⟨"import", "'x'"⟩]⟩
    parse source = .ok sheet ∧ IsTidy source ∧ parse sheet.css = .ok sheet := by
  intro source sheet
  have hparse : parse source = .ok sheet := by decide +kernel
  have htidy : IsTidy source := by decide +kernel
  exact ⟨hparse, htidy, parse_css_of_isTidy hparse htidy⟩

/-- White space on both sides of a comment is written as two spaces, which are read as one. -/
theorem parse_css_collapses_spaces :
    parse "a /* x */ b\x7b\x7d" = .ok ⟨[.style ⟨["a  b"], []⟩]⟩ ∧
      parse (css ⟨[.style ⟨["a  b"], []⟩]⟩) = .ok ⟨[.style ⟨["a b"], []⟩]⟩ := by
  decide +kernel

end Stylesheet

end Restyle.Css
