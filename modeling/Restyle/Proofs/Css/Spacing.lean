import Restyle.Proofs.Css.DroppedComments
import Restyle.Proofs.Css.SelectorEntries
import Restyle.Proofs.Css.Tiling

/-!
# White space between lexemes

A comment inside of white space cuts it into several lexemes, and `collapsed` writes a space for
each of them. `Lexeme.merged` has one space in the place of all of them. The grammar does not tell a
run of lexemes from its merged form (`Declaration.Reads.merged`, `selectors?_merged`), and the text
is the same where no two pieces of white space stand side by side (`collapsed_merged`). They do so
only where a comment stands between them (`Lexeme.isChain_scan`).
-/

namespace Restyle.Text

/-- Blank characters around a text do not matter once it is trimmed. -/
theorem trimBlanks_append {as bs : List Char} (has : ∀ c ∈ as, isBlank c)
    (hbs : ∀ c ∈ bs, isBlank c) (cs : List Char) :
    trimBlanks (as ++ (cs ++ bs)) = trimBlanks cs :=
  trim_append has hbs cs

theorem trim_eq_empty_iff {s : String} : trim s = "" ↔ ∀ c ∈ s.toList, isBlank c := by
  rw [← String.toList_eq_nil_iff, trim, String.toList_ofList]
  constructor
  · intro h
    obtain ⟨as, bs, hs, has, hbs⟩ := exists_trim isBlank s.toList
    rw [show ((s.toList.dropWhile isBlank).reverse.dropWhile isBlank).reverse = [] from h,
      List.nil_append] at hs
    rw [hs]
    intro c hc
    exact (List.mem_append.1 hc).elim (has c) (hbs c)
  · intro h
    have hblank := trimBlanks_append h (List.forall_mem_nil _) []
    rw [List.append_nil, List.append_nil] at hblank
    exact hblank

end Restyle.Text

namespace Restyle.Css

open Text Lexeme

namespace Lexeme

/-! ## Merging white space -/

/-- The lexeme without its place, where it is white space as one space. -/
def spaced (l : Lexeme) : Lexeme :=
  if l.isSpace then ⟨.whitespace, " ", 0⟩ else l.plain

/-- A run of lexemes without their places, with one space in the place of all white space lexemes
that stand side by side. -/
def merged : List Lexeme → List Lexeme
  | [] => []
  | l :: ls => if l.isSpace && ls.head?.any isSpace then merged ls else l.spaced :: merged ls

/-- Whether at most one piece of white space stands between any two other lexemes that follow on one
another. -/
def IsSingle (ls : List Lexeme) : Prop :=
  ∀ front a spaces b back, ls = front ++ a :: (spaces ++ b :: back) → a.isSpace = false →
    b.isSpace = false → (∀ s ∈ spaces, s.isSpace) → spaces.length ≤ 1

variable {l b r : Lexeme} {ls as bs : List Lexeme}

theorem spaced_of_not_isSpace (hl : l.isSpace = false) : l.spaced = l.plain :=
  if_neg (by simp [hl])

@[simp]
theorem token_spaced (l : Lexeme) : l.spaced.token = l.token := by
  rw [spaced]
  split_ifs with hl
  · exact (of_decide_eq_true hl).symm
  · rfl

@[simp]
theorem isSpace_spaced (l : Lexeme) : l.spaced.isSpace = l.isSpace := by
  rw [isSpace, token_spaced, isSpace]

theorem collapse_spaced (l : Lexeme) : l.spaced.collapse = l.collapse := by
  rw [spaced]
  split_ifs with hl
  · rw [collapse, collapse, if_pos rfl, if_pos (of_decide_eq_true hl)]
  · rfl

theorem merged_cons (hl : l.isSpace = false) (ls : List Lexeme) :
    merged (l :: ls) = l.plain :: merged ls := by
  rw [merged, if_neg (by simp [hl]), spaced_of_not_isSpace hl]

/-- A white space lexeme is kept as one space, or another one follows. -/
theorem merged_cons_cases (l : Lexeme) (ls : List Lexeme) :
    l.isSpace ∧ merged (l :: ls) = merged ls ∨ merged (l :: ls) = l.spaced :: merged ls := by
  rw [merged]
  split_ifs with h
  · exact .inl ⟨(Bool.and_eq_true_iff.1 h).1, rfl⟩
  · exact .inr rfl

/-- A lexeme that is no white space cuts the merging in two. -/
theorem merged_append_cons (hb : b.isSpace = false) (as bs : List Lexeme) :
    merged (as ++ b :: bs) = merged as ++ b.plain :: merged bs := by
  induction as with
  | nil => exact merged_cons hb bs
  | cons a as ih =>
    have hhead : (as ++ b :: bs).head?.any isSpace = as.head?.any isSpace := by
      cases as with
      | nil => simp [hb]
      | cons => rfl
    rw [List.cons_append, merged, hhead, ih, merged]
    split_ifs <;> rfl

theorem merged_block (opens : b.token = .leftBrace) (closes : r.token = .rightBrace)
    (head body rest : List Lexeme) :
    merged (head ++ b :: (body ++ r :: rest)) =
      merged head ++ b.plain :: (merged body ++ r.plain :: merged rest) := by
  have hb : b.isSpace = false := by simp [isSpace, opens]
  have hr : r.isSpace = false := by simp [isSpace, closes]
  rw [merged_append_cons hb, merged_append_cons hr]

/-- White space at the end is left out, or kept as one space. -/
theorem merged_concat_cases (hl : l.isSpace) (ls : List Lexeme) :
    merged (ls ++ [l]) = merged ls ∨ merged (ls ++ [l]) = merged ls ++ [l.spaced] := by
  induction ls with
  | nil => exact .inr (by simp [merged])
  | cons a ls ih =>
    cases ls with
    | nil =>
      by_cases ha : a.isSpace
      · left
        rw [List.cons_append, List.nil_append, merged, if_pos (by simp [ha, hl])]
        simp [merged, spaced, ha, hl]
      · right
        rw [Bool.not_eq_true] at ha
        rw [List.cons_append, merged_cons ha, merged_cons ha]
        simp [merged]
    | cons b ls =>
      have hstep : ∀ ms : List Lexeme, merged (a :: b :: ms) =
          if a.isSpace && b.isSpace then merged (b :: ms) else a.spaced :: merged (b :: ms) :=
        fun ms => by rw [merged, List.head?_cons, Option.any_some]
      rw [List.cons_append, List.cons_append, hstep, hstep, ← List.cons_append]
      split_ifs
      · exact ih
      · exact ih.imp (congrArg (a.spaced :: ·)) (congrArg (a.spaced :: ·))

theorem isSpace_of_mem_merged (h : ∀ s ∈ ls, s.isSpace) : ∀ s ∈ merged ls, s.isSpace := by
  induction ls with
  | nil => simp [merged]
  | cons l ls ih =>
    rw [List.forall_mem_cons] at h
    rcases merged_cons_cases l ls with ⟨-, hmerged⟩ | hmerged <;> rw [hmerged]
    · exact ih h.2
    · exact List.forall_mem_cons.2 ⟨by rw [isSpace_spaced, h.1], ih h.2⟩

theorem exists_first_not_isSpace (hne : ls ≠ [])
    (hlast : ∀ as l, ls = as ++ [l] → l.isSpace = false) :
    ∃ spaces b back, ls = spaces ++ b :: back ∧ b.isSpace = false ∧ ∀ s ∈ spaces, s.isSpace := by
  induction ls with
  | nil => exact absurd rfl hne
  | cons l ls ih =>
    by_cases hl : l.isSpace
    · have hrest : ls ≠ [] := by
        rintro rfl
        rw [hlast [] l rfl] at hl
        cases hl
      obtain ⟨spaces, b, back, rfl, hb, hspaces⟩ :=
        ih hrest fun as m hm => hlast (l :: as) m (congrArg (l :: ·) hm)
      exact ⟨l :: spaces, b, back, rfl, hb, List.forall_mem_cons.2 ⟨hl, hspaces⟩⟩
    · exact ⟨[], l, ls, rfl, by simpa using hl, by simp⟩

theorem exists_last_not_isSpace (hne : ls ≠ []) (hhead : ∀ l ∈ ls.head?, l.isSpace = false) :
    ∃ front a spaces, ls = front ++ a :: spaces ∧ a.isSpace = false ∧
      ∀ s ∈ spaces, s.isSpace := by
  obtain ⟨spaces, a, front, hreverse, ha, hspaces⟩ :=
    exists_first_not_isSpace (List.reverse_ne_nil_iff.2 hne) fun as l hl =>
      hhead l (by rw [List.reverse_eq_iff.1 hl]; simp)
  exact ⟨front.reverse, a, spaces.reverse, by rw [List.reverse_eq_iff.1 hreverse]; simp, ha,
    fun s hs => hspaces s (List.mem_reverse.1 hs)⟩

/-- Between other lexemes, no two pieces of white space then stand side by side. -/
theorem IsSingle.isChain (h : IsSingle ls) :
    (trimSpace ls).IsChain fun l m => ¬(l.isSpace ∧ m.isSpace) := by
  obtain ⟨before, after, hls, -, -⟩ := exists_trimSpace ls
  have htrimmed := isTrimmed_trimSpace ls
  refine List.isChain_iff_forall_rel_of_append_cons_cons.2 ?_
  rintro l m x y hsplit ⟨hl, hm⟩
  rw [hsplit] at hls htrimmed
  have hx : x ≠ [] := by
    rintro rfl
    rw [htrimmed.head l rfl] at hl
    cases hl
  obtain ⟨front, a, xs, rfl, ha, hxs⟩ := exists_last_not_isSpace hx fun c hc =>
    htrimmed.head c (by rw [List.head?_append, Option.mem_def.1 hc]; rfl)
  obtain ⟨ys, b, back, hy, hb, hys⟩ :=
    exists_first_not_isSpace (List.cons_ne_nil m y) fun as c hc =>
      htrimmed.last (front ++ a :: xs ++ l :: as) c (by rw [hc]; simp)
  have hle := h (before ++ front) a (xs ++ l :: ys) b (back ++ after)
    (by rw [hls, hy]; simp) ha hb fun s hs => by
      simp only [List.mem_append, List.mem_cons] at hs
      rcases hs with hs | rfl | hs
      · exact hxs s hs
      · exact hl
      · exact hys s hs
  cases ys with
  | nil =>
    rw [← (List.cons.inj hy).1, hm] at hb
    cases hb
  | cons s ys =>
    simp only [List.length_append, List.length_cons] at hle
    omega

/-- Where no two white space lexemes stand side by side, each is kept as one space. -/
theorem merged_eq_map (h : ls.IsChain fun l m => ¬(l.isSpace ∧ m.isSpace)) :
    merged ls = ls.map spaced := by
  induction ls with
  | nil => rfl
  | cons l ls ih =>
    rw [List.isChain_cons] at h
    rw [merged, if_neg, ih h.2, List.map_cons]
    rw [Bool.and_eq_true, Option.any_eq_true]
    rintro ⟨hl, m, hm, hspace⟩
    exact h.1 m hm ⟨hl, hspace⟩

end Lexeme

/-! ## White space side by side -/

namespace Lexer

theorem isSpace_eq_false_of_extendsWord {c : Char} {r : List Char} (h : extendsWord (c :: r)) :
    Text.isSpace c = false := by
  rw [Bool.eq_false_iff]
  intro hspace
  simp only [Text.isSpace, Bool.or_eq_true, beq_iff_eq] at hspace
  rcases hspace with (((rfl | rfl) | rfl) | rfl) | rfl <;> cases h

end Lexer

namespace Lexeme

/-- Whether two pieces of white space stand in a text with comments between them, and nothing
else. -/
def CutBy (source : String) (l m : Lexeme) : Prop :=
  ∃ front comments back,
    source.toList = front ++ l.source.toList ++ comments ++ m.source.toList ++ back ∧
      byteSize front = l.start ∧ l.source ≠ "" ∧ m.source ≠ "" ∧ comments ≠ [] ∧
        AreComments comments

/-- If two lexemes are white space, both have source text and there is a gap between them. -/
def LeavesGap (l m : Lexeme) : Prop :=
  l.isSpace → m.isSpace → l.source ≠ "" ∧ m.source ≠ "" ∧ l.stop < m.start

/-- In front of a text that does not start with white space, only comments put white space off. -/
theorem head?_scanFrom_space {start : Nat} {s : List Char}
    (h : ∀ c ∈ s.head?, Text.isSpace c = false) :
    ∀ m ∈ (scanFrom false start s).head?, m.isSpace → m.source ≠ "" ∧ start < m.start := by
  cases hs : Lexer.skipComments s with
  | nil => simp [scanFrom_of_skipComments_eq_nil hs]
  | cons c r =>
    obtain ⟨comments, rfl⟩ : c :: r <:+ s := hs ▸ Lexer.skipComments_suffix s
    obtain ⟨p, hsource⟩ := Lexer.exists_source c r
    rw [scanFrom_eq_of_skipComments hs hsource, gap, Bool.and_false, Bool.false_and,
      if_neg Bool.false_ne_true]
    rintro m ⟨⟩ hm
    refine ⟨by simp, ?_⟩
    cases comments with
    | nil => exact absurd (of_decide_eq_true hm) (Lexer.token_ne_whitespace (h c rfl) rfl)
    | cons d comments =>
      have hpos := d.utf8Size_pos
      simp only [byteSize]
      omega

/-- White space is read as far as it goes, so there is a gap before more of it. -/
theorem isChain_leavesGap (inWord : Bool) (start : Nat) (s : List Char) :
    (scanFrom inWord start s).IsChain LeavesGap := by
  induction hn : s.length using Nat.strongRecOn generalizing inWord start s with
  | ind n ih =>
    subst hn
    cases hs : Lexer.skipComments s with
    | nil =>
      rw [scanFrom_of_skipComments_eq_nil hs]
      exact .nil
    | cons c r =>
      have hlt := Lexer.length_token_lt hs
      obtain ⟨comments, rfl⟩ : c :: r <:+ s := hs ▸ Lexer.skipComments_suffix s
      obtain ⟨p, hsource⟩ := Lexer.exists_source c r
      have hread : (⟨(Lexer.token c r).1, String.ofList (c :: p), start + byteSize comments⟩ ::
          scanFrom (Lexer.token c r).1.isWord (start + byteSize comments + byteSize (c :: p))
            (Lexer.token c r).2).IsChain LeavesGap := by
        refine List.isChain_cons.2 ⟨fun m hm hl hspace => ?_, ih _ hlt _ _ _ rfl⟩
        have hwhite : (Lexer.token c r).1 = .whitespace := of_decide_eq_true hl
        have hc : Text.isSpace c := by
          by_contra hc
          exact Lexer.token_ne_whitespace (by simpa using hc) rfl hwhite
        have hrest : ∀ d ∈ (Lexer.token c r).2.head?, Text.isSpace d = false := by
          rw [Lexer.token_of_isSpace hc]
          have hhead := List.head?_dropWhile_not Text.isSpace r
          intro d hd
          rw [Option.mem_def.1 hd] at hhead
          simpa using hhead
        rw [hwhite] at hm
        obtain ⟨hne, hstart⟩ := head?_scanFrom_space hrest m hm hspace
        exact ⟨by simp, hne, by rwa [stop, bytes, String.toList_ofList]⟩
      rw [scanFrom_eq_of_skipComments hs hsource, gap]
      split_ifs with hgap
      · refine List.isChain_cons.2 ⟨?_, hread⟩
        rintro m ⟨⟩ - hm
        have hword := (Bool.and_eq_true_iff.1 hgap).2
        exact absurd (of_decide_eq_true hm)
          (Lexer.token_ne_whitespace (Lexer.isSpace_eq_false_of_extendsWord hword) rfl)
      · exact hread

/-- Two white space lexemes stand side by side only where a comment cuts white space. -/
theorem isChain_scan (source : String) :
    (scan source).IsChain fun l m => l.isSpace → m.isSpace → CutBy source l m := by
  obtain ⟨tiles, last, hscan, htiling⟩ := tiling_scanFrom false 0 source.toList
  refine List.isChain_iff_forall_rel_of_append_cons_cons.2 fun l m before after hpair hl hm => ?_
  obtain ⟨hlne, hmne, hlt⟩ := List.isChain_iff_forall_rel_of_append_cons_cons.1
    (isChain_leavesGap false 0 source.toList) hpair hl hm
  obtain ⟨front, _, rfl, -, hrest⟩ := List.map_eq_append_iff.1 (hscan.symm.trans hpair)
  obtain ⟨t, _, rfl, rfl, hlast⟩ := List.map_eq_cons_iff.1 hrest
  obtain ⟨u, back, rfl, rfl, -⟩ := List.map_eq_cons_iff.1 hlast
  have hstart := htiling.placed.start_eq
  have hnext := htiling.placed
  rw [List.append_cons] at hnext
  have hnext := hnext.start_eq
  refine ⟨Tile.text front ++ t.gap, u.gap, Tile.text back ++ last, ?_, ?_, hlne, hmne, ?_,
    (htiling.sound u (by simp)).gap⟩
  · rw [htiling.text, Tile.text_append, Tile.text_cons, Tile.text_cons]
    simp only [List.append_assoc]
  · rw [hstart, Nat.zero_add]
  · intro hgap
    rw [hgap, Tile.text_append, Tile.text_cons, List.append_nil] at hnext
    rw [stop, bytes, hstart, hnext] at hlt
    simp only [byteSize_append, Tile.text, List.flatMap_nil, List.append_nil] at hlt
    omega

end Lexeme

/-! ## What merged lexemes are read as -/

section

variable {ls : List Lexeme} {closers : List Token} {stop : Token → Bool}

/-- White space has no part in the groups that are open. -/
theorem isRun_merged (hstop : stop .whitespace = false) :
    isRun stop closers ((merged ls).map token) = isRun stop closers (ls.map token) := by
  induction ls generalizing closers with
  | nil => rfl
  | cons l ls ih =>
    rcases merged_cons_cases l ls with ⟨hl, hmerged⟩ | hmerged
    · have hwhite : l.token = .whitespace := of_decide_eq_true hl
      rw [hmerged, ih, List.map_cons, hwhite, isRun, hstop, Bool.and_false]
      rfl
    · rw [hmerged, List.map_cons, token_spaced, List.map_cons, isRun, isRun]
      cases closersAfter closers l.token with
      | none => rfl
      | some closers' => exact congrArg (_ && ·) ih

theorem isBalanced_cons_of_ne {t : Token} (hopen : t ≠ .leftBrace) (hclose : t ≠ .rightBrace)
    (depth : Nat) (ts : List Token) : isBalanced depth (t :: ts) = isBalanced depth ts := by
  cases t <;> first | rfl | contradiction

theorem isBalanced_merged (depth : Nat) :
    isBalanced depth ((merged ls).map token) = isBalanced depth (ls.map token) := by
  induction ls generalizing depth with
  | nil => rfl
  | cons l ls ih =>
    rcases merged_cons_cases l ls with ⟨hl, hmerged⟩ | hmerged
    · have hwhite : l.token = .whitespace := of_decide_eq_true hl
      rw [hmerged, ih, List.map_cons, hwhite]
      exact (isBalanced_cons_of_ne (by simp) (by simp) depth _).symm
    · rw [hmerged, List.map_cons, token_spaced, List.map_cons]
      by_cases hopen : l.token = .leftBrace
      · rw [hopen, isBalanced, isBalanced, ih]
      by_cases hclose : l.token = .rightBrace
      · rw [hclose]
        cases depth with
        | zero => rfl
        | succ depth => exact ih depth
      · rw [isBalanced_cons_of_ne hopen hclose, isBalanced_cons_of_ne hopen hclose, ih]

end

/-- Declarations are read from merged lexemes too. -/
theorem Declaration.Reads.merged {ls : List Lexeme} {ds : List Declaration} (h : Reads ls ds) :
    ∃ ds', Reads (merged ls) ds' := by
  induction h with
  | nil => exact ⟨[], .nil⟩
  | @skip l ls ds skipped _ ih =>
    obtain ⟨ds', ih⟩ := ih
    rcases merged_cons_cases l ls with ⟨-, hmerged⟩ | hmerged <;> rw [hmerged]
    · exact ⟨ds', ih⟩
    · exact ⟨ds', .skip (by rwa [token_spaced]) ih⟩
  | @declaration l c spaces value rest ds name isName areSpaces isColon isRun ends _ ih =>
    obtain ⟨ds', ih⟩ := ih
    have hvalue : Lexeme.merged (value ++ rest) = Lexeme.merged value ++ Lexeme.merged rest := by
      cases rest with
      | nil => simp [Lexeme.merged]
      | cons e rest =>
        have he : e.isSpace = false := by simp [Lexeme.isSpace, ends e rfl]
        rw [merged_append_cons he, merged_cons he]
    refine ⟨ofLexemes l.raw (Lexeme.merged value) :: ds', ?_⟩
    rw [merged_cons (by simp [Lexeme.isSpace, isName]),
      merged_append_cons (by simp [Lexeme.isSpace, isColon]), hvalue]
    refine .declaration isName (isSpace_of_mem_merged areSpaces) isColon ?_ ?_ ih
    · rwa [isRun_merged rfl]
    · cases rest with
      | nil => simp [Lexeme.merged]
      | cons e rest =>
        have he := ends e rfl
        rw [merged_cons (by simp [Lexeme.isSpace, he])]
        simpa [plain] using he

/-! ## Texts of merged lexemes -/

section

variable {ls : List Lexeme} {l : Lexeme}

theorem collapsed_eq (ls : List Lexeme) :
    collapsed ls = trim (String.ofList (ls.flatMap collapse)) :=
  rfl

/-- White space around a run of lexemes does not show in its text. -/
theorem collapsed_append {before after : List Lexeme} (hbefore : ∀ s ∈ before, s.isSpace)
    (hafter : ∀ s ∈ after, s.isSpace) (ls : List Lexeme) :
    collapsed (before ++ (ls ++ after)) = collapsed ls := by
  have hblank : ∀ spaces : List Lexeme, (∀ s ∈ spaces, s.isSpace) →
      ∀ c ∈ spaces.flatMap collapse, isBlank c := by
    intro spaces hspaces c hc
    obtain ⟨s, hs, hc⟩ := List.mem_flatMap.1 hc
    rw [collapse, if_pos (of_decide_eq_true (hspaces s hs)), List.mem_singleton] at hc
    rw [hc]
    rfl
  rw [collapsed_eq, collapsed_eq, trim, trim, String.toList_ofList, String.toList_ofList,
    List.flatMap_append, List.flatMap_append,
    trimBlanks_append (hblank before hbefore) (hblank after hafter)]

theorem collapsed_cons_space (hl : l.isSpace) (ls : List Lexeme) :
    collapsed (l :: ls) = collapsed ls := by
  have h := collapsed_append (List.forall_mem_singleton.2 hl) (List.forall_mem_nil _) ls
  rwa [List.append_nil] at h

theorem collapsed_concat_space (hl : l.isSpace) (ls : List Lexeme) :
    collapsed (ls ++ [l]) = collapsed ls :=
  collapsed_append (List.forall_mem_nil _) (List.forall_mem_singleton.2 hl) ls

theorem collapsed_merged_append {before after : List Lexeme} (hbefore : ∀ s ∈ before, s.isSpace)
    (hafter : ∀ s ∈ after, s.isSpace) (ls : List Lexeme) :
    collapsed (merged (before ++ (ls ++ after))) = collapsed (merged ls) := by
  induction before with
  | nil =>
    induction after using List.reverseRecOn with
    | nil => rw [List.nil_append, List.append_nil]
    | append_singleton after s ih =>
      rw [List.forall_mem_append, List.forall_mem_singleton] at hafter
      rw [← ih hafter.1, List.nil_append, List.nil_append, ← List.append_assoc]
      rcases merged_concat_cases hafter.2 (ls ++ after) with h | h <;> rw [h]
      exact collapsed_concat_space (by rw [isSpace_spaced, hafter.2]) _
  | cons s before ih =>
    rw [List.forall_mem_cons] at hbefore
    rw [← ih hbefore.2, List.cons_append]
    rcases merged_cons_cases s (before ++ (ls ++ after)) with ⟨-, h⟩ | h <;> rw [h]
    exact collapsed_cons_space (by rw [isSpace_spaced, hbefore.1]) _

/-- Where at most one piece of white space stands between other lexemes, merging changes nothing. -/
theorem collapsed_merged (h : IsSingle ls) : collapsed (merged ls) = collapsed ls := by
  obtain ⟨before, after, hls, hbefore, hafter⟩ := exists_trimSpace ls
  have htext : (merged (trimSpace ls)).flatMap collapse = (trimSpace ls).flatMap collapse := by
    rw [merged_eq_map h.isChain, List.flatMap_map]
    exact List.flatMap_congr fun l _ => collapse_spaced l
  rw [hls, collapsed_merged_append hbefore hafter, collapsed_append hbefore hafter, collapsed_eq,
    htext]
  rfl

/-- Merging white space neither empties a text nor fills one. -/
theorem collapsed_merged_eq_empty_iff : collapsed (merged ls) = "" ↔ collapsed ls = "" := by
  rw [collapsed_eq, collapsed_eq, trim_eq_empty_iff, trim_eq_empty_iff, String.toList_ofList,
    String.toList_ofList]
  induction ls with
  | nil => rfl
  | cons l ls ih =>
    have hsplit : ∀ (m : Lexeme) (ms : List Lexeme),
        (∀ c ∈ (m :: ms).flatMap collapse, isBlank c) ↔
          (∀ c ∈ m.collapse, isBlank c) ∧ ∀ c ∈ ms.flatMap collapse, isBlank c := by
      intro m ms
      rw [List.flatMap_cons, List.forall_mem_append]
    rw [hsplit l, ← ih]
    rcases merged_cons_cases l ls with ⟨hl, hmerged⟩ | hmerged <;> rw [hmerged]
    · rw [collapse, if_pos (of_decide_eq_true hl)]
      simp [isBlank]
    · rw [hsplit, collapse_spaced]

end

/-! ## Selector lists -/

theorem commaPieces_merged {ls : List Lexeme} (h : isRun endsSelectors [] (ls.map token)) :
    commaPieces 0 (merged ls) = (commaPieces 0 ls).map merged := by
  have piece : ∀ {p tail q : List Lexeme} {qs : List (List Lexeme)},
      isRun endsEntry [] (p.map token) → commaPieces 0 tail = q :: qs →
        commaPieces 0 (merged p ++ tail) = (merged p ++ q) :: qs := by
    intro p tail q qs hp htail
    rw [← isRun_merged rfl] at hp
    exact commaPieces_append hp htail
  induction hn : ls.length using Nat.strongRecOn generalizing ls with
  | ind n ih =>
    subst hn
    rcases commaPieces_cases h with ⟨heq, hentry⟩ | ⟨p, k, rest, rfl, hk, heq, hentry, hrest⟩ <;>
      rw [List.length_nil] at heq <;> rw [heq]
    · have hnil : commaPieces 0 [] = [[]] := rfl
      have hpiece := piece hentry hnil
      rwa [List.append_nil] at hpiece
    · have htail : commaPieces 0 (k.plain :: merged rest) =
          [] :: commaPieces 0 (merged rest) := by
        rw [commaPieces, if_pos]
        · simp [plain, hk, Token.opensGroup, Token.closesGroup]
        · simp [plain, hk, Token.opensGroup, Token.closesGroup]
      rw [merged_append_cons (by simp [Lexeme.isSpace, hk]), piece hentry htail, List.append_nil,
        ih rest.length (by simp; omega) hrest rfl, List.map_cons]

/-- A selector list is read from merged lexemes too, with an entry for each entry. -/
theorem selectors?_merged {ls : List Lexeme} {ss : List String}
    (hrun : isRun endsSelectors [] (ls.map token)) (h : selectors? ls = some ss) :
    ss = (commaPieces 0 ls).map collapsed ∧
      selectors? (merged ls) = some ((commaPieces 0 ls).map fun p => collapsed (merged p)) := by
  have hss : (commaPieces 0 ls).map collapsed = ss := by
    have hall := List.forall₂_map_left_iff.2 (forall₂_selectors h)
    rwa [List.forall₂_eq_eq_eq] at hall
  have hne := selectors?_eq_some_iff.1 h
  rw [← hss, List.forall₂_map_right_iff, List.forall₂_same] at hne
  refine ⟨hss.symm, selectors?_eq_some_iff.2 ?_⟩
  rw [commaPieces_merged hrun, List.forall₂_map_left_iff, List.forall₂_map_right_iff,
    List.forall₂_same]
  exact fun p hp => ⟨rfl, mt collapsed_merged_eq_empty_iff.1 (hne p hp).2⟩

end Restyle.Css
