import Restyle.Proofs.Css.Cutting

/-!
# Lexemes and comments tile a text

A text is its lexemes with comments between them. `Tile` is a lexeme with the comments right before
it, and `Tiling` says of a run of tiles that they make up a text and lie where their lexemes say.
Main statement: a text is read as such a run, with the mark of the end at its end
(`Lexeme.ofText_tiles`).
-/

namespace Restyle.Css

open Text

/-! ## Comments -/

/-- Whether a text is a comment: its first end mark stands at its end. -/
def IsComment (t : List Char) : Prop :=
  ∃ body, t = '/' :: '*' :: (body ++ ['*', '/']) ∧ ¬ ['*', '/'] <:+: body ++ ['*']

/-- Whether a text starts a comment that has no end mark. -/
def IsOpenComment (t : List Char) : Prop :=
  ∃ body, t = '/' :: '*' :: body ∧ ¬ ['*', '/'] <:+: body

/-- Whether a text is a run of comments. -/
def AreComments (t : List Char) : Prop :=
  ∃ cs : List (List Char), (∀ c ∈ cs, IsComment c) ∧ t = cs.flatten

/-- Whether a text is a run of comments, of which the last one may have no end mark. -/
def AreLastComments (t : List Char) : Prop :=
  ∃ comments last, AreComments comments ∧ (last = [] ∨ IsOpenComment last) ∧ t = comments ++ last

theorem AreComments.nil : AreComments [] :=
  ⟨[], by simp, rfl⟩

theorem AreComments.cons {c t : List Char} (hc : IsComment c) (ht : AreComments t) :
    AreComments (c ++ t) := by
  obtain ⟨cs, hcs, rfl⟩ := ht
  exact ⟨c :: cs, List.forall_mem_cons.2 ⟨hc, hcs⟩, rfl⟩

theorem AreLastComments.cons {c t : List Char} (hc : IsComment c) (ht : AreLastComments t) :
    AreLastComments (c ++ t) := by
  obtain ⟨comments, last, hcomments, hlast, rfl⟩ := ht
  exact ⟨c ++ comments, last, hcomments.cons hc, hlast, (List.append_assoc _ _ _).symm⟩

namespace Lexer

theorem mark_not_infix_cons {c : Char} {s : List Char}
    (h : ∀ r, c = '*' → s = '/' :: r → False) (hs : ¬ ['*', '/'] <:+: s) :
    ¬ ['*', '/'] <:+: c :: s := by
  intro hinfix
  rcases List.infix_cons_iff.1 hinfix with ⟨t, ht⟩ | hinfix
  · obtain ⟨hc, ht⟩ : '*' = c ∧ '/' :: t = s := List.cons.inj ht
    exact h t hc.symm ht.symm
  · exact hs hinfix

/-- A comment ends at its first end mark, or goes on to the end of the text. -/
theorem commentRest_cases (s : List Char) :
    (∃ body, s = body ++ ['*', '/'] ++ commentRest s ∧ ¬ ['*', '/'] <:+: body ++ ['*']) ∨
      commentRest s = [] ∧ ¬ ['*', '/'] <:+: s := by
  induction s using commentRest.induct with
  | case1 r => exact .inl ⟨[], rfl, by decide⟩
  | case2 c r h ih =>
    rw [commentRest.eq_2 c r h]
    refine ih.imp ?_ (And.imp_right (mark_not_infix_cons h))
    rintro ⟨body, hbody, hfirst⟩
    refine ⟨c :: body, congrArg (List.cons c) hbody, mark_not_infix_cons (fun t hc ht => ?_) hfirst⟩
    cases body with
    | nil => cases ht
    | cons d body =>
      obtain ⟨rfl, -⟩ : d = '/' ∧ body ++ ['*'] = t := List.cons.inj ht
      exact h _ hc hbody
  | case3 => exact .inr ⟨rfl, by decide⟩

/-- What is skipped at the front are comments. -/
theorem comments_skipComments (s : List Char) :
    ∃ comments, s = comments ++ skipComments s ∧
      (AreComments comments ∨ skipComments s = [] ∧ AreLastComments comments) := by
  fun_induction skipComments s with
  | case1 r _ ih =>
    obtain ⟨comments, hs, hcomments⟩ := ih
    rcases commentRest_cases r with ⟨body, hbody, hfirst⟩ | ⟨hnil, hopen⟩
    · have hc : IsComment ('/' :: '*' :: (body ++ ['*', '/'])) := ⟨body, rfl, hfirst⟩
      refine ⟨_ ++ comments, ?_, hcomments.imp (.cons hc) (And.imp_right (.cons hc))⟩
      rw [List.append_assoc, ← hs, List.cons_append, List.cons_append, ← hbody]
    · have hskip : skipComments (commentRest r) = [] := by rw [hnil, skipComments.eq_2 _ (by simp)]
      refine ⟨'/' :: '*' :: r, by rw [hskip, List.append_nil], .inr ⟨hskip, ?_⟩⟩
      exact ⟨[], _, .nil, .inr ⟨r, rfl, hopen⟩, rfl⟩
  | case2 s => exact ⟨[], rfl, .inl .nil⟩

/-! ## The end is no token of the text -/

theorem nameToken_ne_eof (s : List Char) : (nameToken s).1 ≠ .eof := by
  unfold nameToken
  generalize name s = p
  dsimp only
  split
  · split
    · split <;> simp
    · simp
  · simp

theorem numberToken_ne_eof (s : List Char) : (numberToken s).1 ≠ .eof := by
  unfold numberToken
  generalize Numeral.read s = p
  dsimp only
  split
  · simp
  · split <;> simp

theorem stringToken_ne_eof (quote : Char) (s : List Char) : (stringToken quote s).1 ≠ .eof := by
  unfold stringToken
  split <;> simp

theorem hyphenToken_ne_eof (s : List Char) : (hyphenToken s).1 ≠ .eof := by
  unfold hyphenToken
  split
  · exact numberToken_ne_eof _
  · split
    · simp
    · split
      · exact nameToken_ne_eof _
      · simp

theorem token_ne_eof (c : Char) (r : List Char) : (token c r).1 ≠ .eof := by
  unfold token
  split
  · simp
  · split
    case h_1 | h_2 => exact stringToken_ne_eof _ _
    case h_3 =>
      unfold hashToken
      split <;> simp
    case h_13 | h_15 =>
      split
      · exact numberToken_ne_eof _
      · simp
    case h_14 => exact hyphenToken_ne_eof _
    case h_16 =>
      unfold lessToken
      split <;> simp
    case h_17 =>
      unfold atToken
      split <;> simp
    case h_18 =>
      split
      · exact nameToken_ne_eof _
      · simp
    case h_19 =>
      split
      · exact numberToken_ne_eof _
      · split
        · exact nameToken_ne_eof _
        · simp
    all_goals simp

end Lexer

/-! ## Tiles -/

/-- A lexeme with what stands between it and the lexeme before it. -/
structure Tile where
  /-- What stands right before the lexeme. -/
  gap : List Char
  /-- The lexeme. -/
  lexeme : Lexeme

namespace Tile

/-- The text that tiles make up. -/
def text (tiles : List Tile) : List Char :=
  tiles.flatMap fun t => t.gap ++ t.lexeme.source.toList

/-- Whether there are comments before a lexeme of a text, which has source text or stands for
them. -/
structure IsSound (t : Tile) : Prop where
  /-- Nothing but comments stands before the lexeme. -/
  gap : AreComments t.gap
  /-- The lexeme does not mark the end. -/
  token : t.lexeme.token ≠ .eof
  /-- There is source text, or white space that stands for the comments right before it. -/
  source : t.lexeme.source ≠ "" ∨ t.lexeme.token = .whitespace ∧ t.gap ≠ []

/-- Whether tiles follow on one another from a byte offset on. -/
def Placed : Nat → List Tile → Prop
  | _, [] => True
  | start, t :: tiles => t.lexeme.start = start + byteSize t.gap ∧ Placed t.lexeme.stop tiles

theorem text_cons (t : Tile) (tiles : List Tile) :
    text (t :: tiles) = t.gap ++ t.lexeme.source.toList ++ text tiles :=
  List.flatMap_cons

theorem text_append (as bs : List Tile) : text (as ++ bs) = text as ++ text bs :=
  List.flatMap_append

/-- A lexeme lies right after what stands before it. -/
theorem Placed.start_eq {start : Nat} {before after : List Tile} {t : Tile}
    (h : Placed start (before ++ t :: after)) :
    t.lexeme.start = start + byteSize (text before ++ t.gap) := by
  induction before generalizing start with
  | nil => exact h.1
  | cons u before ih =>
    rw [ih h.2, Lexeme.stop, h.1, bytes, text_cons]
    simp only [byteSize_append]
    omega

/-- Tiles that follow on one another are in order. -/
theorem Placed.pairwise {start : Nat} {tiles : List Tile} (h : Placed start tiles) :
    (∀ t ∈ tiles, start ≤ t.lexeme.start) ∧
      tiles.Pairwise fun t u => t.lexeme.stop ≤ u.lexeme.start := by
  induction tiles generalizing start with
  | nil => exact ⟨by simp, .nil⟩
  | cons t tiles ih =>
    obtain ⟨hafter, hpairwise⟩ := ih h.2
    have hstart : start ≤ t.lexeme.start := h.1 ▸ Nat.le_add_right _ _
    refine ⟨List.forall_mem_cons.2 ⟨hstart, fun u hu => ?_⟩,
      List.pairwise_cons.2 ⟨hafter, hpairwise⟩⟩
    exact hstart.trans ((Nat.le_add_right _ _).trans (hafter u hu))

end Tile

/-- Whether tiles make up a text, from a byte offset on, with comments only after the last one. -/
structure Tiling (start : Nat) (s : List Char) (tiles : List Tile) (last : List Char) : Prop where
  /-- The text is made up of the tiles and what is left. -/
  text : s = Tile.text tiles ++ last
  /-- Comments are left, and the last one may have no end mark. -/
  last : AreLastComments last
  /-- The tiles are sound. -/
  sound : ∀ t ∈ tiles, t.IsSound
  /-- The tiles lie where their lexemes say. -/
  placed : Tile.Placed start tiles

namespace Tiling

variable {start : Nat} {s last : List Char} {tiles : List Tile}

/-- A tile in front of others. -/
theorem cons (start : Nat) (t : Tile) (ht : t.IsSound)
    (hstart : t.lexeme.start = start + byteSize t.gap) (h : Tiling t.lexeme.stop s tiles last) :
    Tiling start (t.gap ++ t.lexeme.source.toList ++ s) (t :: tiles) last where
  text := by rw [Tile.text_cons, List.append_assoc _ _ last, ← h.text]
  last := h.last
  sound := List.forall_mem_cons.2 ⟨ht, h.sound⟩
  placed := ⟨hstart, h.placed⟩

/-- The text that a lexeme was read from lies where the lexeme says. -/
theorem exists_text (h : Tiling 0 s tiles last) {t : Tile} (ht : t ∈ tiles) :
    ∃ front back, s = front ++ t.lexeme.source.toList ++ back ∧
      byteSize front = t.lexeme.start := by
  obtain ⟨before, after, rfl⟩ := List.append_of_mem ht
  refine ⟨Tile.text before ++ t.gap, Tile.text after ++ last, ?_, ?_⟩
  · rw [h.text, Tile.text_append, Tile.text_cons]
    simp only [List.append_assoc]
  · rw [h.placed.start_eq, Nat.zero_add]

end Tiling

namespace Lexeme

/-- What is read from a text from a byte offset on are lexemes that tile it. -/
theorem tiling_scanFrom (inWord : Bool) (start : Nat) (s : List Char) :
    ∃ tiles last, scanFrom inWord start s = tiles.map Tile.lexeme ∧ Tiling start s tiles last := by
  induction hn : s.length using Nat.strongRecOn generalizing inWord start s with
  | ind n ih =>
    subst hn
    obtain ⟨comments, hs, hcomments⟩ := Lexer.comments_skipComments s
    cases hskip : Lexer.skipComments s with
    | nil =>
      rw [hskip, List.append_nil] at hs
      have hlast : AreLastComments s := by
        rcases hcomments with hcomments | ⟨-, hlast⟩
        · exact ⟨comments, [], hcomments, .inl rfl, by rw [List.append_nil, hs]⟩
        · rwa [hs]
      exact ⟨[], s, scanFrom_of_skipComments_eq_nil hskip, rfl, hlast, by simp, trivial⟩
    | cons c r =>
      rw [hskip] at hs hcomments
      have hcomments : AreComments comments := hcomments.resolve_right fun h => by cases h.1
      obtain ⟨p, hsource⟩ := Lexer.exists_source c r
      have hlt := Lexer.length_token_lt hskip
      let l : Lexeme := ⟨(Lexer.token c r).1, String.ofList (c :: p), start + byteSize comments⟩
      have hl : l.source.toList = c :: p := String.toList_ofList
      have hne : l.source ≠ "" := fun h => by
        rw [h] at hl
        cases hl
      obtain ⟨tiles, last, hscan, htiling⟩ := ih _ hlt (Lexer.token c r).1.isWord l.stop _ rfl
      have hstep : scanFrom inWord start s =
          gap comments inWord l.start (c :: r) ++ l :: tiles.map Tile.lexeme := by
        subst hs
        rw [scanFrom_eq_of_skipComments hskip hsource, ← hscan, stop, bytes, hl]
      rw [hstep]
      rw [← hsource, ← hl] at hs
      have htoken := Lexer.token_ne_eof c r
      unfold gap
      split_ifs with hgap
      · have hcomment : comments ≠ [] := by
          rintro rfl
          cases hgap
        -- The white space takes the comments, and the token stands right after it.
        have hspace := htiling.cons l.start ⟨[], l⟩ ⟨.nil, htoken, .inl hne⟩ rfl
        have hall := hspace.cons start ⟨comments, ⟨.whitespace, "", l.start⟩⟩
          ⟨hcomments, by simp, .inr ⟨rfl, hcomment⟩⟩ rfl
        exact ⟨_, last, rfl, by simpa [hs] using hall⟩
      · have hall := htiling.cons start ⟨comments, l⟩
          ⟨hcomments, htoken, .inl hne⟩ rfl
        exact ⟨_, last, rfl, by simpa [hs] using hall⟩

theorem bytes_eq (s : String) : bytes s = s.utf8ByteSize := by
  have hsize : ∀ cs : List Char, byteSize cs = (String.ofList cs).utf8ByteSize := by
    intro cs
    induction cs with
    | nil => rfl
    | cons c cs ih =>
      rw [byteSize, ih, String.ofList_cons, String.utf8ByteSize_append,
        String.utf8ByteSize_singleton]
  rw [bytes, hsize, String.ofList_toList]

/-- A front piece of a text ends between two characters. -/
theorem isValid_of_append {s : String} {front back : List Char} (h : s.toList = front ++ back) :
    (⟨byteSize front⟩ : String.Pos.Raw).IsValid s := by
  refine String.Pos.Raw.isValid_iff_exists_append.2
    ⟨String.ofList front, String.ofList back, ?_, String.Pos.Raw.ext ?_⟩
  · rw [← String.ofList_append, ← h, String.ofList_toList]
  · rw [String.byteIdx_rawEndPos, ← bytes_eq, bytes, String.toList_ofList]

/-- The lexemes of a text and its comments make up the text, in order and without overlap, and the
mark of the end stands behind them. -/
theorem ofText_tiles (s : String) :
    ∃ tiles last,
      ofText s = tiles.map Tile.lexeme ++ [⟨.eof, "", s.utf8ByteSize⟩] ∧
      s.toList = Tile.text tiles ++ last ∧ AreLastComments last ∧ (∀ t ∈ tiles, t.IsSound) ∧
      (∀ before t after, tiles = before ++ t :: after →
        t.lexeme.start = byteSize (Tile.text before ++ t.gap)) ∧
      (ofText s).Pairwise (fun l l' => l.stop ≤ l'.start) ∧
      ∀ l ∈ ofText s, (⟨l.start⟩ : String.Pos.Raw).IsValid s ∧
        (⟨l.stop⟩ : String.Pos.Raw).IsValid s := by
  obtain ⟨tiles, last, hscan, htiling⟩ := tiling_scanFrom false 0 s.toList
  have hofText : ofText s = tiles.map Tile.lexeme ++ [⟨.eof, "", s.utf8ByteSize⟩] := by
    rw [ofText, scan, hscan, bytes_eq]
  refine ⟨tiles, last, hofText, htiling.text, htiling.last, htiling.sound, ?_, ?_, ?_⟩
  · rintro before t after rfl
    rw [htiling.placed.start_eq, Nat.zero_add]
  · have hend : ∀ t ∈ tiles, t.lexeme.stop ≤ s.utf8ByteSize := by
      intro t ht
      obtain ⟨front, back, htext, hfront⟩ := htiling.exists_text ht
      rw [stop, bytes, ← hfront, ← bytes_eq, bytes, htext, byteSize_append, byteSize_append]
      exact Nat.le_add_right _ _
    rw [hofText, List.pairwise_append, List.pairwise_map]
    refine ⟨htiling.placed.pairwise.2, List.pairwise_singleton _ _, fun l hl l' hl' => ?_⟩
    obtain ⟨t, ht, rfl⟩ := List.mem_map.1 hl
    rw [List.mem_singleton.1 hl']
    exact hend t ht
  · intro l hl
    rw [hofText, List.mem_append, List.mem_singleton, List.mem_map] at hl
    rcases hl with ⟨t, ht, rfl⟩ | rfl
    · obtain ⟨front, back, htext, hfront⟩ := htiling.exists_text ht
      rw [stop, ← hfront, bytes, ← byteSize_append]
      exact ⟨isValid_of_append (htext.trans (List.append_assoc _ _ _)), isValid_of_append htext⟩
    · have hvalid := isValid_of_append (List.append_nil s.toList).symm
      rw [← bytes, bytes_eq] at hvalid
      exact ⟨hvalid, hvalid⟩

end Lexeme

end Restyle.Css
