import Mathlib.Tactic.NthRewrite
import Restyle.Css.Parser
import Restyle.Proofs.Css.Delimiter
import Restyle.Proofs.Css.Scan

/-!
# Texts that are cut off at a delimiter

`CutsInto x ls` says that a text `x` without comments is read as the lexemes `ls` when a delimiter
comes after it. Then it is read the same inside a longer text (`CutsInto.scanFrom`). The other way
round, what is read before a delimiter comes from a text of this kind, unless comments are lost
(`split_scanFrom`); `weight` counts the characters that are lost with them.
-/

namespace Restyle.Css

open Text

namespace Lexeme

/-- The lexeme without its place. -/
def plain (l : Lexeme) : Lexeme :=
  { l with start := 0 }

/-- Whether a lexeme is a string or an address that is broken off. -/
def isBroken (l : Lexeme) : Bool :=
  l.token = .badString || l.token = .badUrl

/-- The source text of a run of lexemes. -/
def written (ls : List Lexeme) : List Char :=
  ls.flatMap (·.source.toList)

/-- The lexeme of a delimiter. -/
def delimiter (d : Char) (start : Nat) : Lexeme :=
  ⟨(Lexer.token d []).1, String.ofList [d], start⟩

theorem written_append (as bs : List Lexeme) : written (as ++ bs) = written as ++ written bs :=
  List.flatMap_append

theorem written_cons (l : Lexeme) (ls : List Lexeme) :
    written (l :: ls) = l.source.toList ++ written ls :=
  List.flatMap_cons

theorem written_map_plain (ls : List Lexeme) : written (ls.map plain) = written ls := by
  rw [written, List.flatMap_map]
  rfl

end Lexeme

/-! ## Punctuation -/

/-- The token of a character that is always a token of its own. -/
def punctuation? : Char → Option Token
  | '(' => some .leftParen
  | ')' => some .rightParen
  | '[' => some .leftBracket
  | ']' => some .rightBracket
  | '\x7b' => some .leftBrace
  | '\x7d' => some .rightBrace
  | ',' => some .comma
  | ':' => some .colon
  | ';' => some .semicolon
  | _ => none

/-- Whether a token is a character that is always a token of its own. -/
def Token.isPunctuation : Token → Bool
  | leftParen | rightParen | leftBracket | rightBracket | leftBrace | rightBrace | comma | colon
  | semicolon => true
  | _ => false

namespace Lexer

theorem isPunctuation_nameToken (s : List Char) : (nameToken s).1.isPunctuation = false := by
  unfold nameToken
  generalize name s = p
  dsimp only
  split
  · split
    · split <;> rfl
    · rfl
  · rfl

theorem isPunctuation_numberToken (s : List Char) : (numberToken s).1.isPunctuation = false := by
  unfold numberToken
  generalize Numeral.read s = p
  dsimp only
  split
  · rfl
  · split <;> rfl

theorem isPunctuation_stringToken (quote : Char) (s : List Char) :
    (stringToken quote s).1.isPunctuation = false := by
  unfold stringToken
  split <;> rfl

theorem isPunctuation_hashToken (s : List Char) : (hashToken s).1.isPunctuation = false := by
  unfold hashToken
  split <;> rfl

theorem isPunctuation_atToken (s : List Char) : (atToken s).1.isPunctuation = false := by
  unfold atToken
  split <;> rfl

theorem isPunctuation_lessToken (s : List Char) : (lessToken s).1.isPunctuation = false := by
  unfold lessToken
  split <;> rfl

theorem isPunctuation_hyphenToken (s : List Char) : (hyphenToken s).1.isPunctuation = false := by
  unfold hyphenToken
  split
  · exact isPunctuation_numberToken _
  · split
    · rfl
    · split
      · exact isPunctuation_nameToken _
      · rfl

/-- Punctuation is the token of its character. -/
theorem token_of_isPunctuation {c : Char} {r : List Char} (h : (token c r).1.isPunctuation) :
    ∃ t, punctuation? c = some t ∧ token c r = (t, r) := by
  unfold token at h ⊢
  split at h
  · cases h
  rename_i hspace
  rw [if_neg hspace]
  split at h
  case h_1 | h_2 =>
    rw [isPunctuation_stringToken] at h
    cases h
  case h_3 =>
    rw [isPunctuation_hashToken] at h
    cases h
  case h_13 | h_15 =>
    split at h
    · rw [isPunctuation_numberToken] at h
      cases h
    · cases h
  case h_14 =>
    rw [isPunctuation_hyphenToken] at h
    cases h
  case h_16 =>
    rw [isPunctuation_lessToken] at h
    cases h
  case h_17 =>
    rw [isPunctuation_atToken] at h
    cases h
  case h_18 =>
    split at h
    · rw [isPunctuation_nameToken] at h
      cases h
    · cases h
  case h_19 =>
    split at h
    · rw [isPunctuation_numberToken] at h
      cases h
    · split at h
      · rw [isPunctuation_nameToken] at h
        cases h
      · cases h
  all_goals exact ⟨_, rfl, rfl⟩

theorem punctuation?_inj {c d : Char} {t : Token} (hc : punctuation? c = some t)
    (hd : punctuation? d = some t) : c = d := by
  unfold punctuation? at hc
  split at hc <;> cases hc <;> unfold punctuation? at hd <;> split at hd <;> cases hd <;> rfl

theorem token_delimiter {d : Char} (hd : isDelimiter d) (u : List Char) :
    token d u = ((token d []).1, u) := by
  rcases delimiter_cases hd with rfl | rfl | rfl | rfl <;> rfl

theorem punctuation?_delimiter {d : Char} (hd : isDelimiter d) :
    punctuation? d = some (token d []).1 := by
  rcases delimiter_cases hd with rfl | rfl | rfl | rfl <;> rfl

/-- Only a delimiter itself is read as its token. -/
theorem token_eq_delimiter {c d : Char} (hd : isDelimiter d) {r : List Char}
    (h : (token c r).1 = (token d []).1) : c = d ∧ (token c r).2 = r := by
  have hpunctuation : (token c r).1.isPunctuation := by
    rw [h]
    rcases delimiter_cases hd with rfl | rfl | rfl | rfl <;> rfl
  obtain ⟨t, hc, htoken⟩ := token_of_isPunctuation hpunctuation
  have ht : t = (token d []).1 := by rw [← h, htoken]
  rw [ht] at hc
  exact ⟨punctuation?_inj hc (punctuation?_delimiter hd), by rw [htoken]⟩

theorem isWord_of_delimiter {d : Char} (hd : isDelimiter d) {t : Token}
    (h : t = (token d []).1) : t.isWord = false := by
  subst h
  rcases delimiter_cases hd with rfl | rfl | rfl | rfl <;> rfl

theorem ne_whitespace_of_delimiter {d : Char} (hd : isDelimiter d) {t : Token}
    (h : t = (token d []).1) : t ≠ .whitespace := by
  subst h
  rcases delimiter_cases hd with rfl | rfl | rfl | rfl <;> decide

/-! ## Comments -/

theorem not_comment_of_skipComments {s : List Char} (h : skipComments s = s) (t : List Char) :
    s ≠ '/' :: '*' :: t := by
  rintro rfl
  have hle := ((skipComments_suffix (commentRest t)).trans (commentRest_suffix t)).length_le
  rw [skipComments] at h
  rw [h, List.length_cons, List.length_cons] at hle
  omega

/-- What is skipped at the front is nothing, or starts with a slash. -/
theorem exists_front (s : List Char) :
    ∃ front, front ++ skipComments s = s ∧ (front = [] ∨ ∃ z, front = '/' :: z) := by
  by_cases h : ∃ t, s = '/' :: '*' :: t
  · obtain ⟨t, rfl⟩ := h
    obtain ⟨q, hq⟩ := (skipComments_suffix (commentRest t)).trans (commentRest_suffix t)
    refine ⟨'/' :: '*' :: q, ?_, .inr ⟨_, rfl⟩⟩
    rw [skipComments, List.cons_append, List.cons_append, hq]
  · exact ⟨[], skipComments_eq_self fun t ht => h ⟨t, ht⟩, .inl rfl⟩

theorem skipComments_idem (s : List Char) : skipComments (skipComments s) = skipComments s := by
  fun_induction skipComments s with
  | case1 r _ ih => exact ih
  | case2 s hs => exact skipComments_eq_self hs

/-- What is skipped at the front is nothing, or starts a comment. -/
theorem take_skipComments (s : List Char) :
    s.take (s.length - (skipComments s).length) = [] ∧ skipComments s = s ∨
      ∃ t, s.take (s.length - (skipComments s).length) = '/' :: '*' :: t := by
  by_cases h : ∃ t, s = '/' :: '*' :: t
  · obtain ⟨t, rfl⟩ := h
    right
    have hle := ((skipComments_suffix (commentRest t)).trans (commentRest_suffix t)).length_le
    rw [skipComments]
    obtain ⟨k, hk⟩ :
        ∃ k, ('/' :: '*' :: t).length - (skipComments (commentRest t)).length = k + 2 :=
      ⟨t.length - (skipComments (commentRest t)).length, by
        simp only [List.length_cons]
        omega⟩
    rw [hk]
    exact ⟨_, rfl⟩
  · left
    rw [skipComments_eq_self fun t ht => h ⟨t, ht⟩]
    simp

theorem skipComments_stop {d e : Char} (he : isStop e) {s u : List Char}
    (h : skipComments (s ++ d :: u) = s ++ d :: u) (w : List Char) :
    skipComments (s ++ e :: w) = s ++ e :: w := by
  apply skipComments_eq_self
  intro t ht
  have hne := not_comment_of_skipComments h
  rcases s with _ | ⟨a, _ | ⟨b, s⟩⟩
  all_goals
    simp only [List.nil_append, List.cons_append, List.cons.injEq] at ht
  · rw [ht.1] at he
    cases he
  · rw [ht.2.1] at he
    cases he
  · rw [ht.1, ht.2.1] at hne
    exact hne _ rfl

end Lexer

namespace Lexeme

/-! ## Scanning without comments -/

theorem gap_nil (inWord : Bool) (start : Nat) (s : List Char) : gap [] inWord start s = [] :=
  rfl

theorem written_gap (comments : List Char) (inWord : Bool) (start : Nat) (s : List Char) :
    written (gap comments inWord start s) = [] := by
  unfold gap
  split_ifs <;> rfl

/-- The source text of a token and what is left after it make up the text. -/
theorem take_append_rest (c : Char) (r : List Char) :
    (c :: r).take ((c :: r).length - (Lexer.token c r).2.length) ++ (Lexer.token c r).2 =
      c :: r := by
  obtain ⟨t, ht⟩ := (Lexer.token_suffix c r).trans (List.suffix_cons c r)
  nth_rewrite 1 [← ht]
  rw [← ht, List.length_append, Nat.add_sub_cancel, List.take_left, ht]

theorem scanFrom_cons {c : Char} {r : List Char} (h : Lexer.skipComments (c :: r) = c :: r)
    (inWord : Bool) (start : Nat) :
    ∃ start₁ start₂,
      scanFrom inWord start (c :: r) =
        ⟨(Lexer.token c r).1,
          String.ofList ((c :: r).take ((c :: r).length - (Lexer.token c r).2.length)), start₁⟩ ::
          scanFrom (Lexer.token c r).1.isWord start₂ (Lexer.token c r).2 := by
  obtain ⟨start₁, start₂, hscan⟩ := scanFrom_of_skipComments_eq_cons h
  rw [Nat.sub_self, List.take_zero, gap_nil, List.nil_append] at hscan
  exact ⟨start₁, start₂, hscan⟩

theorem scanFrom_delimiter {d : Char} (hd : isDelimiter d) (inWord : Bool) (start : Nat)
    (u : List Char) :
    ∃ start₁ start₂,
      scanFrom inWord start (d :: u) = delimiter d start₁ :: scanFrom false start₂ u := by
  have hskip : Lexer.skipComments (d :: u) = d :: u :=
    Lexer.skipComments_cons (Lexer.ne_of_isDelimiter hd rfl) u
  obtain ⟨start₁, start₂, hscan⟩ := scanFrom_cons hskip inWord start
  refine ⟨start₁, start₂, ?_⟩
  rw [hscan, Lexer.token_delimiter hd, Lexer.isWord_of_delimiter hd rfl, delimiter]
  simp

/-! ## Reading from left to right -/

/-- How a text is read from left to right, `inWord` after a word: comments at the front are skipped,
and the lexeme after them is read. -/
inductive Scans : Bool → List Char → List Lexeme → Prop where
  /-- Nothing but comments is there. -/
  | nil {inWord : Bool} {s : List Char} (skips : Lexer.skipComments s = []) : Scans inWord s []
  /-- A token, perhaps with comments before it. -/
  | cons {inWord : Bool} {front p x : List Char} {c : Char} {t : Token} {start : Nat}
      {ls : List Lexeme} (skips : Lexer.skipComments (front ++ c :: (p ++ x)) = c :: (p ++ x))
      (isComment : front = [] ∨ ∃ z, front = '/' :: z) (reads : Lexer.token c (p ++ x) = (t, x))
      (rest : Scans t.isWord x ls) :
      Scans inWord (front ++ c :: (p ++ x))
        (gap front inWord start (c :: (p ++ x)) ++ ⟨t, String.ofList (c :: p), start⟩ :: ls)

theorem scans_scanFrom (inWord : Bool) (start : Nat) (s : List Char) :
    Scans inWord s (scanFrom inWord start s) := by
  induction hlength : s.length using Nat.strongRecOn generalizing inWord start s with
  | ind n ih =>
    subst hlength
    cases hskip : Lexer.skipComments s with
    | nil =>
      rw [scanFrom_of_skipComments_eq_nil hskip]
      exact .nil hskip
    | cons c r =>
      obtain ⟨front, hfront, hcomment⟩ := Lexer.exists_front s
      obtain ⟨p, hp⟩ := Lexer.token_suffix c r
      obtain ⟨t, x, htoken⟩ : ∃ t x, Lexer.token c r = (t, x) := ⟨_, _, rfl⟩
      have hlt := Lexer.length_token_lt hskip
      rw [htoken] at hp hlt
      obtain rfl : p ++ x = r := hp
      rw [hskip] at hfront
      rw [← hfront] at hskip
      have hscan := @scanFrom_eq_of_skipComments inWord start front (c :: p) (p ++ x) c hskip
        (by rw [htoken]; rfl)
      rw [htoken] at hscan
      rw [← hfront, hscan]
      exact .cons hskip hcomment htoken (ih _ hlt _ _ _ rfl)

/-! ## Texts that are cut off -/

/-- The lexemes, without their places, that a text without comments is read as when a delimiter
comes after it. -/
inductive CutsInto : List Char → List Lexeme → Prop where
  /-- Nothing is there. -/
  | nil : CutsInto [] []
  /-- A token that stops at the delimiter or before it. -/
  | cons {c : Char} {r r' source : List Char} {t : Token} {ls : List Lexeme}
      (noComment : Lexer.skipComments (c :: (r ++ ['\x7b'])) = c :: (r ++ ['\x7b']))
      (reads : Lexer.token c (r ++ ['\x7b']) = (t, r' ++ ['\x7b']))
      (whole : t ≠ .badString ∧ t ≠ .badUrl) (split : source ++ r' = c :: r)
      (rest : CutsInto r' ls) : CutsInto (c :: r) (⟨t, String.ofList source, 0⟩ :: ls)

theorem CutsInto.written {x : List Char} {ls : List Lexeme} (h : CutsInto x ls) :
    Lexeme.written ls = x := by
  induction h with
  | nil => rfl
  | cons noComment reads whole split rest ih =>
    rw [written_cons, ih, String.toList_ofList, split]

theorem CutsInto.written_of_plain {x : List Char} {ls : List Lexeme}
    (h : CutsInto x (ls.map plain)) : Lexeme.written ls = x := by
  rw [← written_map_plain, h.written]

theorem CutsInto.not_broken {x : List Char} {ls : List Lexeme} (h : CutsInto x ls) :
    ∀ l ∈ ls, l.isBroken = false := by
  induction h with
  | nil => simp
  | cons noComment reads whole split rest ih =>
    rintro l (_ | ⟨_, hl⟩)
    · simp [isBroken, whole]
    · exact ih l hl

theorem CutsInto.exists_source {x : List Char} {ls : List Lexeme} (h : CutsInto x ls) :
    ∀ l ∈ ls, ∃ c p, l.source.toList = c :: p ∧ (l.token ≠ .whitespace → c ≠ ' ') := by
  induction h with
  | nil => simp
  | @cons c r r' source t ls noComment reads whole split rest ih =>
    rintro l (_ | ⟨_, hl⟩)
    · obtain ⟨p, hp⟩ := Lexer.token_suffix c (r ++ ['\x7b'])
      rw [reads] at hp
      have hr : p ++ r' = r := by
        apply (List.append_left_inj ['\x7b']).1
        rw [List.append_assoc, hp]
      refine ⟨c, p, ?_, fun ht => ?_⟩
      · rw [String.toList_ofList]
        apply (List.append_left_inj r').1
        rw [split, List.cons_append, hr]
      · rintro rfl
        exact ht (congrArg Prod.fst reads).symm
    · exact ih l hl

/-- A text that is cut off is read the same before any delimiter and whatever comes after it. -/
theorem CutsInto.scanFrom {x : List Char} {ls : List Lexeme} (h : CutsInto x ls) {d : Char}
    (hd : isDelimiter d) (u : List Char) (inWord : Bool) (start : Nat) :
    ∃ ls' start₁ start₂, ls'.map plain = ls ∧
      Lexeme.scanFrom inWord start (x ++ d :: u) =
        ls' ++ delimiter d start₁ :: Lexeme.scanFrom false start₂ u := by
  have hstop := Lexer.isStop_of_isDelimiter hd
  induction h generalizing inWord start with
  | nil =>
    obtain ⟨start₁, start₂, hscan⟩ := scanFrom_delimiter hd inWord start u
    exact ⟨[], start₁, start₂, rfl, hscan⟩
  | @cons c r r' source t ls noComment reads whole split rest ih =>
    have hskip : Lexer.skipComments (c :: (r ++ d :: u)) = c :: (r ++ d :: u) :=
      Lexer.skipComments_stop (s := c :: r) hstop noComment u
    have hreads := Lexer.token_stop rfl hstop u whole.1 whole.2 reads
    obtain ⟨start₁, start₂, hscan⟩ := scanFrom_cons hskip inWord start
    obtain ⟨ls', start₃, start₄, hplain, hrest⟩ := ih t.isWord start₂
    have hsource : (c :: (r ++ d :: u)).take
        ((c :: (r ++ d :: u)).length - (r' ++ d :: u).length) = source := by
      rw [← List.cons_append, ← split, List.append_assoc, List.length_append, Nat.add_sub_cancel,
        List.take_left]
    refine ⟨⟨t, String.ofList source, start₁⟩ :: ls', start₃, start₄, ?_, ?_⟩
    · rw [List.map_cons, hplain]
      rfl
    · rw [List.cons_append, hscan, hreads]
      dsimp only
      rw [hsource, hrest]
      rfl

/-- A text that is cut off goes on with a text that is cut off and starts with a stop. -/
theorem CutsInto.append_stop {x u : List Char} {as bs : List Lexeme} {e : Char}
    (hx : CutsInto x as) (hu : CutsInto (e :: u) bs) (he : isStop e) :
    CutsInto (x ++ e :: u) (as ++ bs) := by
  induction hx with
  | nil => exact hu
  | @cons c r r' source t ls noComment reads whole split rest ih =>
    have hskip := Lexer.skipComments_stop (s := c :: r) he noComment (u ++ ['\x7b'])
    have hreads := Lexer.token_stop rfl he (u ++ ['\x7b']) whole.1 whole.2 reads
    refine .cons ?_ ?_ whole ?_ ih
    · simpa using hskip
    · simpa using hreads
    · rw [← List.append_assoc, split]
      rfl

/-- Two texts that are cut off are cut off with a delimiter between them. -/
theorem CutsInto.append {x u : List Char} {as bs : List Lexeme} (hx : CutsInto x as)
    (hu : CutsInto u bs) {d : Char} (hd : isDelimiter d) :
    CutsInto (x ++ d :: u) (as ++ delimiter d 0 :: bs) := by
  refine hx.append_stop (.cons ?_ (Lexer.token_delimiter hd _) ?_ rfl hu)
    (Lexer.isStop_of_isDelimiter hd)
  · exact Lexer.skipComments_cons (Lexer.ne_of_isDelimiter hd rfl) _
  · rcases Lexer.delimiter_cases hd with rfl | rfl | rfl | rfl <;> decide

/-- The text after some lexemes is cut off. -/
theorem CutsInto.after {t : List Char} (as : List Lexeme) {bs : List Lexeme}
    (h : CutsInto t (as ++ bs)) : CutsInto (Lexeme.written bs) bs := by
  induction as generalizing t with
  | nil =>
    have hwritten : Lexeme.written bs = t := h.written
    rwa [hwritten]
  | cons a as ih =>
    cases h with
    | cons noComment reads whole split rest => exact ih rest

/-- A text that is cut off is cut off before a lexeme that starts with a stop or a letter. -/
theorem CutsInto.before {t : List Char} {as bs : List Lexeme} {l : Lexeme}
    (h : CutsInto t (as ++ l :: bs)) {d : Char} {p : List Char} (hl : l.source.toList = d :: p)
    (hd : isFront d) : CutsInto (Lexeme.written as) as := by
  induction as generalizing t with
  | nil => exact .nil
  | cons a as ih =>
    cases h with
    | @cons c r r' source t _ noComment reads whole split rest =>
      have hx := ih rest
      have hr' : r' = Lexeme.written as ++ d :: (p ++ Lexeme.written bs) := by
        have hwritten : Lexeme.written (as ++ l :: bs) = r' := rest.written
        rw [← hwritten, written_append, written_cons, hl, List.cons_append]
      obtain ⟨q, hq⟩ := Lexer.token_suffix c (r ++ ['\x7b'])
      rw [reads] at hq
      have hr : r = (q ++ Lexeme.written as) ++ d :: (p ++ Lexeme.written bs) := by
        apply (List.append_left_inj ['\x7b']).1
        rw [← hq, hr']
        simp
      have hsource : source = c :: q := by
        apply (List.append_left_inj r').1
        rw [split, hr, hr']
        simp
      rw [written_cons, String.toList_ofList, hsource, List.cons_append]
      subst hr
      subst hr'
      refine .cons ?_ ?_ whole rfl hx
      · have hskip : Lexer.skipComments (c :: (q ++ Lexeme.written as) ++
            d :: (p ++ Lexeme.written bs ++ ['\x7b'])) =
              c :: (q ++ Lexeme.written as) ++ d :: (p ++ Lexeme.written bs ++ ['\x7b']) := by
          simpa using noComment
        exact Lexer.skipComments_stop (s := c :: (q ++ Lexeme.written as)) rfl hskip []
      · apply Lexer.token_stop (u := p ++ Lexeme.written bs ++ ['\x7b']) hd rfl [] whole.1 whole.2
        simpa using reads

/-- A text that is cut off is cut off before a delimiter and after it. -/
theorem CutsInto.split {t : List Char} {as bs : List Lexeme} {l : Lexeme}
    (h : CutsInto t (as ++ l :: bs)) {d : Char} (hd : isDelimiter d)
    (hl : l.token = (Lexer.token d []).1) :
    ∃ x u, t = x ++ d :: u ∧ CutsInto x as ∧ CutsInto u bs := by
  have hfront := Lexer.isFront_of_isStop (Lexer.isStop_of_isDelimiter hd)
  have hafter := h.after as
  have hwritten := h.written
  rw [written_append] at hwritten
  generalize hu : Lexeme.written (l :: bs) = u at hafter hwritten
  cases hafter with
  | @cons c r r' source t _ noComment reads whole split rest =>
    have htoken : (Lexer.token c (r ++ ['\x7b'])).1 = (Lexer.token d []).1 := by
      rw [reads]
      exact hl
    obtain ⟨rfl, hrest⟩ := Lexer.token_eq_delimiter hd htoken
    rw [reads] at hrest
    obtain rfl : r' = r := (List.append_left_inj _).1 hrest
    have hsource : source = [c] := (List.append_left_inj r').1 split
    exact ⟨Lexeme.written as, r', hwritten.symm,
      h.before (by rw [hsource, String.toList_ofList]) hfront, rest⟩

/-! ## What is lost with comments -/

/-- Whether a character counts: a space does not, and a semicolon only if asked for. -/
def counts (semicolons : Bool) (c : Char) : Bool :=
  c != ' ' && (semicolons || c != ';')

/-- The number of characters that count. -/
def weight (semicolons : Bool) (cs : List Char) : Nat :=
  cs.countP (counts semicolons)

theorem weight_append (semicolons : Bool) (as bs : List Char) :
    weight semicolons (as ++ bs) = weight semicolons as + weight semicolons bs :=
  List.countP_append

theorem weight_cons_of_counts {semicolons : Bool} {c : Char} (h : counts semicolons c)
    (cs : List Char) : weight semicolons (c :: cs) = weight semicolons cs + 1 :=
  List.countP_cons_of_pos h

theorem weight_comment (semicolons : Bool) (t : List Char) :
    0 < weight semicolons ('/' :: '*' :: t) := by
  simp [weight, counts]

/-- A step of a scan: comments, a token with its source text, and what is left. -/
theorem scanFrom_step {inWord : Bool} {start : Nat} {t : List Char} {c : Char} {r : List Char}
    (h : Lexer.skipComments t = c :: r) :
    ∃ comments source p start₁ start₂,
      t = comments ++ c :: r ∧ source ++ (Lexer.token c r).2 = c :: r ∧ source = c :: p ∧
        (comments = [] ∨ ∀ semicolons, 0 < weight semicolons comments) ∧
        scanFrom inWord start t =
          gap comments inWord start₁ (c :: r) ++
            ⟨(Lexer.token c r).1, String.ofList source, start₁⟩ ::
              scanFrom (Lexer.token c r).1.isWord start₂ (Lexer.token c r).2 := by
  obtain ⟨start₁, start₂, hscan⟩ := scanFrom_of_skipComments_eq_cons h
  have hsource := take_append_rest c r
  obtain ⟨p, hp⟩ := Lexer.token_suffix c r
  have hlost := Lexer.take_skipComments t
  rw [h] at hlost
  refine ⟨_, _, p, start₁, start₂, ?_, hsource, ?_, ?_, hscan⟩
  · obtain ⟨q, hq⟩ := Lexer.skipComments_suffix t
    rw [h] at hq
    rw [← hq, List.length_append, Nat.add_sub_cancel, List.take_left]
  · exact List.append_cancel_right (hsource.trans (by rw [List.cons_append, hp]))
  · rcases hlost with ⟨hnil, -⟩ | ⟨x, hcomment⟩
    · exact .inl hnil
    · right
      intro semicolons
      rw [hcomment]
      exact weight_comment semicolons x

/-- The white space that stands for comments comes before any other lexeme. -/
theorem exists_of_gap_append {comments s : List Char} {inWord : Bool} {start : Nat} {l l' : Lexeme}
    {as bs ls : List Lexeme} (hl : l.token ≠ .whitespace)
    (h : gap comments inWord start s ++ l' :: ls = as ++ l :: bs) :
    ∃ as', as = gap comments inWord start s ++ as' ∧ l' :: ls = as' ++ l :: bs := by
  unfold gap at h ⊢
  split_ifs at h ⊢
  · cases as with
    | nil =>
      rw [← (List.cons.inj h).1] at hl
      exact absurd rfl hl
    | cons a as =>
      obtain ⟨rfl, hnext⟩ := List.cons.inj h
      exact ⟨as, rfl, hnext⟩
  · exact ⟨as, rfl, h⟩

/-- Lexemes that are cut from a text weigh as much, and where comments are lost they weigh less. -/
theorem weight_le_of_cutsInto_or_lt {x : List Char} {as : List Lexeme}
    (h : CutsInto x (as.map plain) ∨
      ∀ semicolons, weight semicolons (written as) < weight semicolons x) (semicolons : Bool) :
    weight semicolons (written as) ≤ weight semicolons x := by
  rcases h with hcut | hlost
  · rw [hcut.written_of_plain]
  · exact Nat.le_of_lt (hlost semicolons)

/-- What is read before a delimiter is cut off there, unless comments are lost. -/
theorem split_scanFrom {d : Char} (hd : isDelimiter d) {inWord : Bool} {start : Nat} {t : List Char}
    {as bs : List Lexeme} {l : Lexeme} (h : scanFrom inWord start t = as ++ l :: bs)
    (hl : l.token = (Lexer.token d []).1) (has : ∀ a ∈ as, a.isBroken = false) :
    ∃ x u start', t = x ++ d :: u ∧ l.source = String.ofList [d] ∧ bs = scanFrom false start' u ∧
      (CutsInto x (as.map plain) ∨
        ∀ semicolons, weight semicolons (written as) < weight semicolons x) := by
  have hfront := Lexer.isFront_of_isStop (Lexer.isStop_of_isDelimiter hd)
  induction hn : t.length using Nat.strongRecOn generalizing inWord start t as with
  | ind n ih =>
    subst hn
    cases ht : Lexer.skipComments t with
    | nil =>
      rw [scanFrom_of_skipComments_eq_nil ht] at h
      simp at h
    | cons c r =>
      obtain ⟨comments, source, p, start₁, start₂, hcomments, hrest', hsource, hlost, hscan⟩ :=
        scanFrom_step ht
      have hp : p ++ (Lexer.token c r).2 = r := by
        rw [hsource, List.cons_append] at hrest'
        exact (List.cons.inj hrest').2
      rw [hscan] at h
      obtain ⟨as', rfl, hnext⟩ := exists_of_gap_append (Lexer.ne_whitespace_of_delimiter hd hl) h
      clear h
      cases as' with
      | nil =>
        obtain ⟨rfl, rfl⟩ := List.cons.inj hnext
        obtain ⟨rfl, hrest⟩ := Lexer.token_eq_delimiter hd hl
        refine ⟨comments, r, start₂, hcomments, ?_, ?_, ?_⟩
        · have hp : p = [] := by simpa [hrest] using hp
          rw [hsource, hp]
        · rw [hrest, Lexer.isWord_of_delimiter hd hl]
        · rw [List.append_nil, written_gap]
          rcases hlost with rfl | hlost
          · exact .inl .nil
          · exact .inr hlost
      | cons a as =>
        obtain ⟨rfl, hafter⟩ := List.cons.inj hnext
        have hlt := Lexer.length_token_lt ht
        obtain ⟨x, u, start', hrest, hchar, hbs, hcut⟩ :=
          ih _ hlt hafter (fun b hb => has b (by simp [hb])) rfl
        have hr : r = (p ++ x) ++ d :: u := by rw [← hp, hrest, List.append_assoc]
        refine ⟨comments ++ (source ++ x), u, start', ?_, hchar, hbs, ?_⟩
        · rw [hcomments, hsource, hr]
          simp
        rcases hlost with rfl | hlost
        · rw [gap_nil, List.nil_append, List.nil_append]
          rcases hcut with hcut | hcut
          · left
            have htoken := has _ (List.mem_append_right _ List.mem_cons_self)
            simp only [isBroken, Bool.or_eq_false_iff, decide_eq_false_iff_not] at htoken
            rw [List.map_cons, hsource, List.cons_append]
            refine .cons ?_ ?_ htoken ?_ hcut
            · rw [hcomments, List.nil_append, hr] at ht
              exact Lexer.skipComments_stop (s := c :: (p ++ x)) rfl ht []
            · refine Lexer.token_stop hfront rfl [] htoken.1 htoken.2 (?_ : _ = (_, x ++ d :: u))
              rw [← hr]
              exact Prod.ext rfl hrest
            · rw [List.cons_append]
          · right
            intro semicolons
            have := hcut semicolons
            rw [written_cons, String.toList_ofList, weight_append, weight_append]
            omega
        · right
          intro semicolons
          have hcomment := hlost semicolons
          have hle := weight_le_of_cutsInto_or_lt hcut semicolons
          rw [written_append, written_gap, List.nil_append, written_cons, String.toList_ofList,
            weight_append, weight_append, weight_append]
          omega

/-- What is read up to the end of a text is the text, unless comments are lost. -/
theorem written_scanFrom (inWord : Bool) (start : Nat) (t : List Char) :
    (written (scanFrom inWord start t) = t ∧ ∀ l ∈ scanFrom inWord start t, l.source ≠ "") ∨
      ∀ semicolons,
        weight semicolons (written (scanFrom inWord start t)) < weight semicolons t := by
  induction hn : t.length using Nat.strongRecOn generalizing inWord start t with
  | ind n ih =>
    subst hn
    cases ht : Lexer.skipComments t with
    | nil =>
      rw [scanFrom_of_skipComments_eq_nil ht]
      rcases Lexer.take_skipComments t with ⟨-, hskip⟩ | ⟨x, hx⟩
      · exact .inl ⟨(hskip.symm.trans ht).symm, by simp⟩
      · right
        intro semicolons
        rw [ht, List.length_nil, Nat.sub_zero, List.take_length] at hx
        rw [hx]
        exact weight_comment semicolons x
    | cons c r =>
      obtain ⟨comments, source, p, start₁, start₂, hcomments, hrest, hsource, hlost, hscan⟩ :=
        scanFrom_step ht
      have hlt := Lexer.length_token_lt ht
      have ih := ih _ hlt (Lexer.token c r).1.isWord start₂ _ rfl
      rw [hscan, hcomments, written_append, written_gap, List.nil_append, written_cons,
        String.toList_ofList, ← hrest]
      simp only [weight_append]
      rcases hlost with rfl | hlost
      · rcases ih with ⟨hwritten, hne⟩ | ih
        · refine .inl ⟨by rw [hwritten]; rfl, fun l hl => ?_⟩
          rw [gap_nil, List.nil_append, List.mem_cons] at hl
          rcases hl with rfl | hl
          · simp [hsource]
          · exact hne l hl
        · right
          intro semicolons
          have := ih semicolons
          omega
      · right
        intro semicolons
        have hcomment := hlost semicolons
        rcases ih with ⟨hwritten, -⟩ | ih
        · rw [hwritten]
          omega
        · have := ih semicolons
          omega

/-! ## Cutting a text off -/

/-- The lexemes, without their places, that a text is read as before a delimiter. There are none if
it holds a comment or something broken, or does not leave the delimiter alone. -/
def cut (x : String) : Option (List Lexeme) :=
  let all := (scan (x ++ "\x7b")).map plain
  let ls := all.dropLast
  if all = ls ++ [delimiter '\x7b' 0] ∧ written ls = x.toList ∧ ls.all (!·.isBroken) then some ls
  else none

theorem cut_eq_some {x : String} {ls : List Lexeme} :
    cut x = some ls ↔ CutsInto x.toList ls := by
  have hscan : scan (x ++ "\x7b") = scanFrom false 0 (x.toList ++ ['\x7b']) := by
    rw [scan, String.toList_append]
    rfl
  constructor
  · intro h
    simp only [cut, Option.ite_none_right_eq_some, Option.some.injEq] at h
    obtain ⟨⟨hall, hwritten, hbroken⟩, rfl⟩ := h
    obtain ⟨as, bs, hsplit, has, hbs⟩ := List.map_eq_append_iff.1 hall
    obtain ⟨l, rfl, hl⟩ := List.map_eq_singleton_iff.1 hbs
    rw [← has] at hwritten hbroken ⊢
    rw [written_map_plain] at hwritten
    have hnot : ∀ a ∈ as, a.isBroken = false := by
      intro a ha
      have hplain := List.all_eq_true.1 hbroken a.plain (List.mem_map_of_mem ha)
      rw [Bool.not_eq_true'] at hplain
      exact hplain
    rw [hscan] at hsplit
    obtain ⟨y, u, start, hy, -, -, hcut⟩ :=
      split_scanFrom rfl hsplit (congrArg Lexeme.token hl) hnot
    rcases hcut with hcut | hcut
    · have : y = x.toList := by
        rw [← hwritten, hcut.written_of_plain]
      rwa [this] at hcut
    · have hlt := hcut true
      have hle := congrArg (weight true) hy
      rw [weight_append, weight_append, hwritten] at *
      have : weight true ['\x7b'] = 1 := rfl
      have : weight true ('\x7b' :: u) = 1 + weight true u := by
        rw [← List.singleton_append, weight_append]
        rfl
      omega
  · intro h
    obtain ⟨as, start₁, start₂, has, hsplit⟩ := h.scanFrom (d := '\x7b') rfl [] false 0
    have hnil : scanFrom false start₂ [] = [] :=
      scanFrom_of_skipComments_eq_nil (Lexer.skipComments_eq_self (by simp))
    have hbroken := h.not_broken
    rw [hnil] at hsplit
    simp only [cut, hscan, hsplit, List.map_append, has, List.map_cons, List.map_nil]
    rw [List.dropLast_concat, if_pos]
    refine ⟨rfl, h.written, ?_⟩
    simpa using hbroken

end Lexeme

end Restyle.Css
