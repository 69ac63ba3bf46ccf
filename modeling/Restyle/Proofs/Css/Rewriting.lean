import Restyle.Proofs.Css.GluedSpace
import Restyle.Proofs.Css.SelectorLists
import Restyle.Proofs.Css.VerbatimValues

/-!
# Pieces that are written again

A piece of a style sheet is written without the white space at its ends, and with other white space
inside of it if it stands before a block. It is read back if it was cut, glued, from a text in which
it ends where it does in what the printer writes (`Lexeme.IsCut.respaced`).
-/

namespace Restyle.Css

open Text Lexeme

/-! ## White space and runs -/

theorem isRun_filter {stop : Token → Bool} (hstop : stop .whitespace = false) (closers : List Token)
    (ls : List Lexeme) :
    isRun stop closers ((ls.filter (!·.isSpace)).map token) =
      isRun stop closers (ls.map token) := by
  induction ls generalizing closers with
  | nil => rfl
  | cons l ls ih =>
    cases hl : l.isSpace with
    | true =>
      have hwhite : l.token = .whitespace := of_decide_eq_true hl
      rw [List.filter_cons_of_neg (by simp [hl]), ih, List.map_cons, hwhite, isRun, hstop,
        Bool.and_false]
      rfl
    | false =>
      rw [List.filter_cons_of_pos (by simp [hl]), List.map_cons, List.map_cons, isRun, isRun]
      cases closersAfter closers l.token with
      | none => rfl
      | some closers' => exact congrArg (_ && ·) (ih closers')

theorem isBalanced_filter (depth : Nat) (ls : List Lexeme) :
    isBalanced depth ((ls.filter (!·.isSpace)).map token) = isBalanced depth (ls.map token) := by
  induction ls generalizing depth with
  | nil => rfl
  | cons l ls ih =>
    cases hl : l.isSpace with
    | true =>
      have hwhite : l.token = .whitespace := of_decide_eq_true hl
      rw [List.filter_cons_of_neg (by simp [hl]), ih, List.map_cons, hwhite]
      exact (isBalanced_cons_of_ne (by simp) (by simp) depth _).symm
    | false =>
      rw [List.filter_cons_of_pos (by simp [hl]), List.map_cons, List.map_cons]
      by_cases hopen : l.token = .leftBrace
      · rw [hopen, isBalanced, isBalanced, ih]
      by_cases hclose : l.token = .rightBrace
      · rw [hclose]
        cases depth with
        | zero => rfl
        | succ depth => exact ih depth
      · rw [isBalanced_cons_of_ne hopen hclose, isBalanced_cons_of_ne hopen hclose, ih]

theorem filter_of_spaces {ls : List Lexeme} (h : ∀ l ∈ ls, l.isSpace) :
    ls.filter (!·.isSpace) = [] :=
  List.filter_eq_nil_iff.2 fun l hl => by simp [h l hl]

theorem filter_trimSpace (ls : List Lexeme) :
    (trimSpace ls).filter (!·.isSpace) = ls.filter (!·.isSpace) := by
  obtain ⟨before, after, hls, hbefore, hafter⟩ := exists_trimSpace ls
  nth_rewrite 2 [hls]
  rw [List.filter_append, List.filter_append, filter_of_spaces hbefore, filter_of_spaces hafter,
    List.nil_append, List.append_nil]

/-! ## Where a piece ends -/

/-- Whether a token can come after a piece of a style sheet. -/
def Token.endsPiece : Token → Bool
  | leftBrace | rightBrace | semicolon | comma | colon | delim '!' => true
  | _ => false

/-- Whether a run goes on with what ends a piece, white space aside. -/
def EndsPiece (ls : List Lexeme) : Prop :=
  ∀ l ∈ (ls.filter (!·.isSpace)).head?, l.token.endsPiece

/-- Whether a text that ends a piece is written there. -/
def StartsEnd (z : List Char) : Prop :=
  ∃ e w, z ++ ['\x7b'] = e :: w ∧ Lexer.isEnd e ∧ ['!', '-', '-'].isPrefixOf (e :: w) = false

section

variable {ls spaces rest : List Lexeme} {l : Lexeme}

theorem endsPiece_nil : EndsPiece [] := by
  simp [EndsPiece]

theorem endsPiece_cons (hl : l.token.endsPiece) (ls : List Lexeme) : EndsPiece (l :: ls) := by
  have hspace : l.isSpace = false := by
    rw [Bool.eq_false_iff, Lexeme.isSpace, Ne, decide_eq_true_eq]
    intro hwhite
    rw [hwhite] at hl
    cases hl
  rw [EndsPiece, List.filter_cons_of_pos (by simp [hspace])]
  rintro _ ⟨⟩
  exact hl

theorem EndsPiece.append_left (h : EndsPiece ls) (hspaces : ∀ s ∈ spaces, s.isSpace) :
    EndsPiece (spaces ++ ls) := by
  rwa [EndsPiece, List.filter_append, filter_of_spaces hspaces, List.nil_append]

theorem EndsPiece.glued (h : EndsPiece ls) : EndsPiece (glued ls) := by
  rw [EndsPiece, filter_glued, List.head?_map]
  intro l hl
  obtain ⟨m, hm, rfl⟩ := Option.map_eq_some_iff.1 hl
  exact h m hm

theorem isEnd_of_endsPiece (hl : l.token.endsPiece) (hs : l.Spelled) :
    ∃ d, l.source.toList = [d] ∧ Lexer.isEnd d := by
  have hs : l.token.Shows l.source.toList := hs
  unfold Token.endsPiece at hl
  split at hl
  case h_7 => cases hl
  all_goals
    rename_i htoken
    rw [htoken] at hs
    exact ⟨_, hs, rfl⟩

/-- What ends a piece is written in the place of white space and another end. -/
theorem EndsPiece.resembles (h : EndsPiece ls) (hs : ∀ l ∈ ls, l.Spelled) {z : List Char}
    (hz : StartsEnd z) : Lexer.Resembles (written ls ++ ['\x7b']) (z ++ ['\x7b']) := by
  obtain ⟨e, w, hz, he, hmark⟩ := hz
  have hspaces : ∀ c ∈ written (ls.takeWhile Lexeme.isSpace), isSpace c := by
    intro c hc
    obtain ⟨l, hl, hc⟩ := List.mem_flatMap.1 hc
    have hspelled : l.token.Shows l.source.toList := hs l ((List.takeWhile_prefix _).subset hl)
    have hspace : l.isSpace := List.all_eq_true.1 List.all_takeWhile l hl
    rw [of_decide_eq_true hspace] at hspelled
    exact hspelled c hc
  have hsplit := List.takeWhile_append_dropWhile (p := Lexeme.isSpace) (l := ls)
  have hhead := List.head?_dropWhile_not Lexeme.isSpace ls
  rw [← hsplit, EndsPiece, List.filter_append,
    filter_of_spaces fun l hl => List.all_eq_true.1 List.all_takeWhile l hl] at h
  rw [hz, ← hsplit, written_append, List.append_assoc]
  cases hrest : ls.dropWhile Lexeme.isSpace with
  | nil => exact Lexer.resembles_stop hspaces rfl he hmark []
  | cons l rest =>
    have hl : l.isSpace = false := by simpa [hrest] using hhead
    rw [hrest, List.nil_append, List.filter_cons_of_pos (by simp [hl])] at h
    have hmem : l ∈ ls := (List.dropWhile_suffix _).subset (by rw [hrest]; simp)
    obtain ⟨d, hd, hend⟩ := isEnd_of_endsPiece (h l rfl) (hs l hmem)
    rw [written_cons, hd]
    exact Lexer.resembles_stop hspaces hend he hmark _

theorem startsEnd_nil : StartsEnd [] :=
  ⟨'\x7b', [], rfl, rfl, rfl⟩

theorem startsEnd_colon (z : List Char) : StartsEnd (':' :: z) :=
  ⟨':', z ++ ['\x7b'], rfl, rfl, rfl⟩

theorem startsEnd_important : StartsEnd "!important".toList :=
  ⟨'!', "important\x7b".toList, by decide, rfl, by decide⟩

end

/-! ## Pieces that are cut from a text -/

namespace Lexeme

theorem ne_backslash_of_mem_glued {ls : List Lexeme} (h : ∀ l ∈ ls, l.token ≠ .delim '\\') :
    ∀ m ∈ glued ls, m.token ≠ .delim '\\' := by
  intro m hm
  cases hspace : m.isSpace with
  | true => simp [of_decide_eq_true hspace]
  | false =>
    have hmem : m ∈ (glued ls).filter (!·.isSpace) := by simp [hm, hspace]
    rw [filter_glued] at hmem
    obtain ⟨l, hl, rfl⟩ := List.mem_map.1 hmem
    exact h l (List.mem_filter.1 hl).1

/-- Whether a run of lexemes was cut from a text as a piece, with `back` after it. -/
structure IsCut (ls back : List Lexeme) : Prop where
  /-- A text is cut into the glued lexemes. -/
  cut : ∃ x front, CutsInto x (glued (front ++ (ls ++ back)))
  /-- What comes after the run ends a piece. -/
  ends : EndsPiece back
  /-- The lexemes show their tokens. -/
  spelled : ∀ l ∈ ls, l.Spelled
  /-- The name of an at-rule stands after its mark. -/
  named : ∀ l ∈ ls, ∀ name, l.token = .atKeyword name → l.raw.toList = '@' :: (Rule.atName l).toList
  /-- No lexeme is a backslash before a line feed. -/
  noBackslash : ∀ l ∈ ls, l.token ≠ .delim '\\'

section

variable {ls as bs kept back zs : List Lexeme} {l : Lexeme} {z : List Char}

/-- The front of a piece is a piece if what comes after it ends one. -/
theorem IsCut.left (h : IsCut (ls ++ bs) back) (hends : EndsPiece (bs ++ back)) :
    IsCut ls (bs ++ back) := by
  obtain ⟨x, front, hcut⟩ := h.cut
  rw [List.append_assoc] at hcut
  exact ⟨⟨x, front, hcut⟩, hends, fun l hl => h.spelled l (List.mem_append_left _ hl),
    fun l hl => h.named l (List.mem_append_left _ hl),
    fun l hl => h.noBackslash l (List.mem_append_left _ hl)⟩

/-- The end of a piece is a piece. -/
theorem IsCut.right (h : IsCut (as ++ ls) back) : IsCut ls back := by
  obtain ⟨x, front, hcut⟩ := h.cut
  rw [List.append_assoc, ← List.append_assoc front] at hcut
  exact ⟨⟨x, front ++ as, hcut⟩, h.ends, fun l hl => h.spelled l (List.mem_append_right _ hl),
    fun l hl => h.named l (List.mem_append_right _ hl),
    fun l hl => h.noBackslash l (List.mem_append_right _ hl)⟩

theorem IsCut.head (h : IsCut (l :: ls) back) (hends : EndsPiece (ls ++ back)) :
    IsCut [l] (ls ++ back) := by
  rw [← List.singleton_append] at h
  exact h.left hends

theorem IsCut.tail (h : IsCut (l :: ls) back) : IsCut ls back := by
  rw [← List.singleton_append] at h
  exact h.right

theorem IsCut.trimmed (h : IsCut ls back) :
    ∃ after, (∀ s ∈ after, s.isSpace) ∧ IsCut (trimSpace ls) (after ++ back) := by
  obtain ⟨before, after, hls, -, hafter⟩ := exists_trimSpace ls
  rw [hls] at h
  exact ⟨after, hafter, h.right.left (h.ends.append_left hafter)⟩

/-- A piece without white space at its ends is cut from the text in which other white space is
written inside of it and what ends it comes right after it. -/
theorem IsCut.respaced (h : IsCut kept back) (htrimmed : IsTrimmed kept) {f : Lexeme → Lexeme}
    (hf : ∀ l ∈ glued kept, f l = l ∨ l.isSpace ∧ f l = ⟨.whitespace, " ", 0⟩)
    (hz : CutsInto z zs) (hend : StartsEnd z) :
    CutsInto (written ((glued kept).map f) ++ z) ((glued kept).map f ++ zs) := by
  by_cases hne : kept = []
  · subst hne
    exact hz
  obtain ⟨x, front, hcut⟩ := h.cut
  have hhead : ∀ l ∈ (kept ++ back).head?, l.isSpace = false := by
    rw [List.head?_append_of_ne_nil _ hne]
    exact htrimmed.head
  rw [glued_append_of_head hhead, glued_append_of_last htrimmed.last] at hcut
  have hafter := hcut.after (glued front)
  have hspelled : ∀ l ∈ glued back, l.Spelled := fun l hl => hafter.spelled l (by simp [hl])
  exact (hafter.respaced hf (ne_backslash_of_mem_glued h.noBackslash) hz
    (h.ends.glued.resembles hspelled hend)).1

/-- A piece without white space at its ends is cut from its own text. -/
theorem IsCut.verbatim (h : IsCut kept back) (htrimmed : IsTrimmed kept) (hz : CutsInto z zs)
    (hend : StartsEnd z) : CutsInto ((joined kept).toList ++ z) (glued kept ++ zs) := by
  have hcut := h.respaced htrimmed (f := id) (fun _ _ => .inl rfl) hz hend
  rwa [List.map_id, written_glued] at hcut

end

end Lexeme

/-! ## Values -/

theorem trimSpace_append {before after : List Lexeme} (hbefore : ∀ s ∈ before, s.isSpace)
    (hafter : ∀ s ∈ after, s.isSpace) (ls : List Lexeme) :
    trimSpace (before ++ (ls ++ after)) = trimSpace ls :=
  trim_append hbefore hafter ls

theorem joined_singleton (l : Lexeme) : joined [l] = l.raw := by
  rw [joined_cons, joined]
  simp

theorem isTrimmed_singleton {l : Lexeme} (hl : l.isSpace = false) : IsTrimmed [l] := by
  refine ⟨by simpa using hl, fun as m h => ?_⟩
  rw [← List.nil_append [l]] at h
  obtain ⟨-, hm⟩ := List.append_inj' h rfl
  rw [← (List.cons.inj hm).1]
  exact hl

theorem IsTrimmed.glued {ls : List Lexeme} (h : IsTrimmed ls) : IsTrimmed (glued ls) := by
  refine ⟨fun l hl => ?_, fun as l heq => ?_⟩
  · have hhead := head?_glued ls
    rw [Option.mem_def.1 hl, Option.any_some] at hhead
    rw [hhead]
    cases hls : ls.head? with
    | none => rfl
    | some m => exact h.head m hls
  · induction ls using List.reverseRecOn with
    | nil => simp [Lexeme.glued] at heq
    | append_singleton front m _ =>
      have hm := h.last front m rfl
      rw [glued_append_cons hm] at heq
      obtain ⟨-, hlast⟩ := List.append_inj' heq rfl
      rw [← (List.cons.inj hlast).1]
      exact hm

/-- The two lexemes that a trimmed run ends in, white space aside. -/
theorem exists_of_filter_eq {ls front : List Lexeme} {a b : Lexeme} (h : IsTrimmed ls)
    (hfilter : ls.filter (!·.isSpace) = front ++ [a, b]) :
    ∃ front' spaces, ls = front' ++ a :: (spaces ++ [b]) ∧ ∀ s ∈ spaces, s.isSpace := by
  obtain ⟨as, bs, rfl, -, hbs⟩ := List.filter_eq_append_iff.1 hfilter
  obtain ⟨before, ms, rfl, -, -, hms⟩ := List.filter_eq_cons_iff.1 hbs
  obtain ⟨spaces, after, rfl, hspaces, -, hafter⟩ := List.filter_eq_cons_iff.1 hms
  have hnil : after = [] := by
    induction after using List.reverseRecOn with
    | nil => rfl
    | append_singleton after l _ =>
      have hl := h.last (as ++ (before ++ a :: (spaces ++ b :: after))) l (by simp)
      rw [List.filter_append, List.filter_cons_of_pos (by simp [hl])] at hafter
      simp at hafter
  subst hnil
  exact ⟨as ++ before, spaces, by simp, fun s hs => by simpa using hspaces s hs⟩

/-- A run that is closed before tokens that neither open nor close a group. -/
theorem isRun_of_append_neutral {stop : Token → Bool} {closers as bs : List Token}
    (hbs : ∀ t ∈ bs, ∀ cs, closersAfter cs t = some cs) (h : isRun stop closers (as ++ bs)) :
    isRun stop closers as := by
  induction as generalizing closers with
  | nil =>
    have hclosed := foldlM_of_isRun h
    rw [List.nil_append, foldlM_of_neutral hbs] at hclosed
    exact isRun_nil_iff.2 (Option.some.inj hclosed)
  | cons t as ih =>
    obtain ⟨hstop, closers', hafter, h⟩ := isRun_cons_iff.1 h
    exact isRun_cons_iff.2 ⟨hstop, closers', hafter, ih h⟩

namespace Declaration

/-- The value that is read from the lexemes that count. -/
def valueOf (name : String) (kept : List Lexeme) : List Value :=
  if isCustomName name then if kept.isEmpty then [] else [.other (joined kept)]
  else Value.ofLexemes kept

theorem valueOf_glued (name : String) (kept : List Lexeme) :
    valueOf name (glued kept) = valueOf name kept := by
  rw [valueOf, valueOf, isEmpty_glued, joined_glued, Value.ofLexemes_glued]

section

variable {ls kept : List Lexeme} {important : Bool}

theorem LeavesOut.ofLexemes_eq (h : LeavesOut ls kept important) (name : String) :
    ofLexemes name ls = ⟨name, valueOf name kept, important⟩ := by
  cases h with
  | @important before kept between spaces after bang word n beforeSpaces isTrimmed betweenSpaces
      isBang areSpaces isWord isName afterSpaces =>
    have hbang : bang.isSpace = false := by simp [Lexeme.isSpace, isBang]
    have hword : word.isSpace = false := by simp [Lexeme.isSpace, isWord]
    have hsplit := splitImportant_of_mark
      ((before ++ (kept ++ between)).dropWhile Lexeme.isSpace) isBang areSpaces isWord isName
    rw [← trimSpace_of_mark _ spaces hbang hword afterSpaces] at hsplit
    have hkept : dropSpaceEnd ((before ++ (kept ++ between)).dropWhile Lexeme.isSpace) = kept :=
      (trimSpace_append beforeSpaces betweenSpaces kept).trans isTrimmed.trimSpace_eq
    have hall : before ++ (kept ++ (between ++ bang :: (spaces ++ word :: after))) =
        before ++ (kept ++ between) ++ bang :: (spaces ++ word :: after) := by simp
    rw [hall, Declaration.ofLexemes_eq hsplit, hkept]
    rfl
  | @plain before kept after beforeSpaces isTrimmed afterSpaces notMarked =>
    have htrim := (trimSpace_append beforeSpaces afterSpaces kept).trans isTrimmed.trimSpace_eq
    have hsplit : splitImportant (trimSpace (before ++ (kept ++ after))) = (kept, false) := by
      rw [htrim]
      refine (splitImportant_cases kept).resolve_right ?_
      rintro ⟨value, bang, spaces, word, n, -, hkept, isBang, areSpaces, isWord, isName⟩
      exact notMarked value spaces bang word n hkept isBang areSpaces isWord isName
    rw [Declaration.ofLexemes_eq hsplit, dropSpaceEnd_eq_self isTrimmed.last]
    rfl

/-- The mark that the printer puts after an important value. -/
def mark (important : Bool) : List Lexeme :=
  if important then [⟨.delim '!', "!", 0⟩, ⟨.ident "important", "important", 0⟩] else []

theorem cutsInto_mark (important : Bool) :
    CutsInto (if important then "!important".toList else []) (mark important) := by
  cases important with
  | true => exact cut_eq_some.1 (by decide +kernel)
  | false => exact .nil

theorem startsEnd_mark (important : Bool) :
    StartsEnd (if important then "!important".toList else []) := by
  cases important with
  | true => exact startsEnd_important
  | false => exact startsEnd_nil

theorem LeavesOut.isTrimmed (h : LeavesOut ls kept important) : IsTrimmed kept := by
  cases h with
  | important _ isTrimmed => exact isTrimmed
  | plain _ isTrimmed => exact isTrimmed

/-- The printer writes what counts, and the mark after it. -/
theorem LeavesOut.glued (h : LeavesOut ls kept important) :
    LeavesOut (glued kept ++ mark important) (glued kept) important := by
  have htrimmed := h.isTrimmed.glued
  have hnone : ∀ s ∈ ([] : List Lexeme), s.isSpace := List.forall_mem_nil _
  cases h with
  | important =>
    exact @LeavesOut.important [] _ [] [] [] _ _ _ hnone htrimmed hnone rfl hnone rfl (by decide)
      hnone
  | plain _ isTrimmed _ notMarked =>
    refine @LeavesOut.plain [] _ [] hnone htrimmed hnone ?_
    intro front spaces bang word name heq isBang areSpaces isWord isName
    have hbang : bang.isSpace = false := by simp [Lexeme.isSpace, isBang]
    have hword : word.isSpace = false := by simp [Lexeme.isSpace, isWord]
    have hfilter := filter_glued kept
    rw [heq, List.filter_append, List.filter_cons_of_pos (by simp [hbang]), List.filter_append,
      filter_of_spaces areSpaces, List.nil_append, List.filter_cons_of_pos (by simp [hword]),
      List.filter_nil] at hfilter
    obtain ⟨as, bs, hsplit, -, hbs⟩ := List.map_eq_append_iff.1 hfilter.symm
    obtain ⟨a, rest, rfl, ha, hrest⟩ := List.map_eq_cons_iff.1 hbs
    obtain ⟨b, rest, rfl, hb, hrest⟩ := List.map_eq_cons_iff.1 hrest
    obtain rfl := List.map_eq_nil_iff.1 hrest
    obtain ⟨front', spaces', hkept, hspaces⟩ := exists_of_filter_eq isTrimmed hsplit
    rw [← hb] at isWord
    rw [← ha] at isBang
    exact notMarked front' spaces' a b name hkept isBang hspaces isWord isName

theorem LeavesOut.isRun_glued (h : LeavesOut ls kept important)
    (hrun : isRun endsValue [] (ls.map token)) :
    isRun endsValue [] ((Lexeme.glued kept ++ mark important).map token) := by
  have hfilter : ((Lexeme.glued kept).filter (!·.isSpace)).map token =
      (kept.filter (!·.isSpace)).map token := by
    rw [filter_glued, List.map_map]
    rfl
  rw [← isRun_filter rfl] at hrun ⊢
  rw [List.filter_append, List.map_append, hfilter]
  cases h with
  | @important before kept between spaces after bang word n beforeSpaces isTrimmed betweenSpaces
      isBang areSpaces isWord isName afterSpaces =>
    have hbang : bang.isSpace = false := by simp [Lexeme.isSpace, isBang]
    have hword : word.isSpace = false := by simp [Lexeme.isSpace, isWord]
    rw [List.filter_append, filter_of_spaces beforeSpaces, List.nil_append, List.filter_append,
      List.filter_append, filter_of_spaces betweenSpaces, List.nil_append,
      List.filter_cons_of_pos (by simp [hbang]), List.filter_append, filter_of_spaces areSpaces,
      List.nil_append, List.filter_cons_of_pos (by simp [hword]), filter_of_spaces afterSpaces,
      List.map_append] at hrun
    have hmark := closersAfter_of_mark isBang (List.forall_mem_nil _) isWord
    exact isRun_append (isRun_of_append_neutral hmark hrun) (by decide)
  | @plain before kept after beforeSpaces isTrimmed afterSpaces notMarked =>
    rw [List.filter_append, filter_of_spaces beforeSpaces, List.nil_append, List.filter_append,
      filter_of_spaces afterSpaces, List.append_nil] at hrun
    rw [mark, if_neg Bool.false_ne_true, List.filter_nil, List.map_nil, List.append_nil]
    exact hrun

/-- What counts goes on with what ends the declaration. -/
theorem LeavesOut.exists_parts (h : LeavesOut ls kept important) :
    ∃ before after, ls = before ++ (kept ++ after) ∧
      ∀ rest, EndsPiece rest → EndsPiece (after ++ rest) := by
  cases h with
  | @important before _ between spaces after bang word n _ _ betweenSpaces isBang =>
    refine ⟨before, _, rfl, fun rest _ => ?_⟩
    rw [List.append_assoc]
    exact .append_left (endsPiece_cons (by rw [isBang]; rfl) _) betweenSpaces
  | @plain before _ after _ _ afterSpaces =>
    exact ⟨before, after, rfl, fun rest hrest => hrest.append_left afterSpaces⟩

end

/-- A declaration that was cut from a text is read back from what is written of it. -/
theorem readsBack_of_isCut {spaces value back : List Lexeme} {l c : Lexeme} {name : String}
    (h : IsCut (l :: (spaces ++ c :: value)) back) (isName : l.token = .ident name)
    (areSpaces : ∀ s ∈ spaces, s.isSpace) (isColon : c.token = .colon)
    (isRun : Css.isRun endsValue [] (value.map token)) : (ofLexemes l.raw value).readsBack := by
  obtain ⟨kept, hleaves, hverbatim⟩ := exists_leavesOut l.raw
    (fun v hv => h.spelled v (by simp [hv])) (foldlM_of_isRun isRun)
  have hcss := toList_css (ofLexemes l.raw value)
  generalize (ofLexemes l.raw value).important = important at hleaves hcss
  have hmark := cutsInto_mark important
  have hstart := startsEnd_mark important
  generalize (if important then "!important".toList else []) = text at hcss hmark hstart
  have hglued := hleaves.glued.ofLexemes_eq l.raw
  rw [valueOf_glued, ← hleaves.ofLexemes_eq l.raw] at hglued
  have hl : l.isSpace = false := by simp [Lexeme.isSpace, isName]
  -- The value is written before its mark, and the name before that.
  obtain ⟨before, after, rfl, hafter⟩ := hleaves.exists_parts
  have hvalue : IsCut (before ++ (kept ++ after)) back := h.tail.right.tail
  have hkept := (hvalue.right.left (hafter back h.ends)).verbatim hleaves.isTrimmed hmark hstart
  have hcolon := hkept.cons_token (t := .colon) (c := ':') (p := [])
    (Lexer.skipComments_cons (by decide) _) rfl ⟨by simp, by simp⟩
  have hends : EndsPiece (spaces ++ c :: (before ++ (kept ++ after)) ++ back) := by
    rw [List.append_assoc]
    exact .append_left (endsPiece_cons (by rw [isColon]; rfl) _) areSpaces
  have hname := (h.head hends).verbatim (isTrimmed_singleton hl) hcolon (startsEnd_colon _)
  have hnone : ∀ e ∈ ([] : List Lexeme).head?, e.token = .semicolon := by simp
  have hreads := Reads.declaration (l := l.plain) (c := ⟨.colon, ":", 0⟩) isName
    (List.forall_mem_nil _) rfl (hleaves.isRun_glued isRun) hnone .nil
  have hraw : l.plain.raw = l.raw := rfl
  have hnamed : (ofLexemes l.raw (before ++ (kept ++ after))).name = l.raw := rfl
  rw [hraw, hglued] at hreads
  rw [joined_singleton, glued_cons hl] at hname
  refine readsBack_iff.2 ⟨_, ?_, hreads⟩
  rw [hcss, hverbatim, hnamed, List.append_nil]
  exact hname

/-- Declarations that were cut from a text are read back from what is written of them. -/
theorem Reads.readsBack_of_isCut {body back : List Lexeme} {ds : List Declaration}
    (h : Reads body ds) (hcut : IsCut body back) : ∀ d ∈ ds, d.readsBack := by
  intro d hd
  obtain ⟨before, l, spaces, c, value, rest, name, rfl, isName, areSpaces, isColon, isRun, ends,
    rfl⟩ := h.exists_of_mem hd
  have hrest : EndsPiece (rest ++ back) := by
    cases rest with
    | nil => exact hcut.ends
    | cons e rest => exact endsPiece_cons (by rw [ends e rfl]; rfl) _
  have hpart : IsCut (l :: (spaces ++ c :: value) ++ rest) back := by simpa using hcut.right
  exact Declaration.readsBack_of_isCut (hpart.left hrest) isName areSpaces isColon isRun

end Declaration

end Restyle.Css
