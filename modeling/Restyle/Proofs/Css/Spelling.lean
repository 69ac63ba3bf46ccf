import Restyle.Proofs.Css.Cutting
import Restyle.Proofs.Css.Names

/-!
# How lexemes are spelled

`Lexeme.Spelled` says what the source text of a whole lexeme shows of its token, as far as readers
take it apart. Every lexeme of a scan that is not broken off is spelled so (`spelled_scanFrom`).
-/

namespace Restyle.Css

open Text

/-- What a source text shows of its token. Nothing shows a token that is broken off. -/
def Token.Shows (t : Token) (cs : List Char) : Prop :=
  match t with
  | .ident name => name.toList.length ≤ Lexeme.weight false cs
  | .function _ => ∃ n, cs = n ++ ['(']
  | .atKeyword _ => ∃ n, cs = '@' :: n
  | .hash _ _ => ∃ n, cs = '#' :: n
  | .delim c => cs = [c]
  | .whitespace => ∀ c ∈ cs, isSpace c
  | .cdo => cs = ['<', '!', '-', '-']
  | .cdc => cs = ['-', '-', '>']
  | .leftParen => cs = ['(']
  | .rightParen => cs = [')']
  | .leftBracket => cs = ['[']
  | .rightBracket => cs = [']']
  | .leftBrace => cs = ['\x7b']
  | .rightBrace => cs = ['\x7d']
  | .comma => cs = [',']
  | .colon => cs = [':']
  | .semicolon => cs = [';']
  | .badString | .badUrl => False
  | .string _ | .url _ | .number _ _ | .percentage _ | .dimension _ _ | .eof => True

namespace Lexer

theorem counts_of_isNameChar {c : Char} (h : isNameChar c) (semicolons : Bool) :
    Lexeme.counts semicolons c := by
  have hspace : c ≠ ' ' := by
    rintro rfl
    revert h
    decide
  have hsemicolon : c ≠ ';' := by
    rintro rfl
    revert h
    decide
  simp [Lexeme.counts, hspace, hsemicolon]

/-- Every character of a name is written with one that counts at least. -/
theorem WritesName.length_le {p n : List Char} (h : WritesName p n) :
    n.length ≤ Lexeme.weight false p := by
  induction h with
  | nil => exact Nat.zero_le _
  | char isName _ ih =>
    rw [Lexeme.weight_cons_of_counts (counts_of_isNameChar isName false)]
    exact Nat.succ_le_succ ih
  | escape _ _ _ ih =>
    rw [Lexeme.weight_cons_of_counts (by decide), ← List.cons_append, Lexeme.weight_append,
      List.length_cons]
    omega

theorem length_name_le (s : List Char) :
    ∀ p, p ++ (name s).2 = s → (name s).1.length ≤ Lexeme.weight false p := by
  intro p hp
  rcases writesName_or_cut hp with hwrites | ⟨-, p', n', c, rfl, hn, hwrites⟩
  · exact hwrites.length_le
  · rw [hn, List.length_append, Lexeme.weight_append]
    exact Nat.add_le_add_right hwrites.length_le 1

theorem shows_nameToken {s p : List Char} :
    p ++ (nameToken s).2 = s → (nameToken s).1 ≠ .badUrl → (nameToken s).1.Shows p := by
  have hlength := length_name_le s
  have hsuffix := name_suffix s
  unfold nameToken
  generalize name s = np at hlength hsuffix ⊢
  obtain ⟨n, rest⟩ := np
  dsimp only at hlength hsuffix ⊢
  split
  · rename_i r
    split
    · split
      · exact fun _ _ => trivial
      · exact fun _ h => absurd rfl h
    · obtain ⟨q, hq⟩ := hsuffix
      intro hp _
      refine ⟨q, (List.append_left_inj r).1 ?_⟩
      rw [hp, ← hq]
      simp
  · intro hp _
    show (String.ofList n).toList.length ≤ _
    rw [String.toList_ofList]
    exact hlength p hp

theorem shows_numberToken (s p : List Char) : (numberToken s).1.Shows p := by
  unfold numberToken
  generalize Numeral.read s = n
  dsimp only
  split
  · trivial
  · split <;> trivial

theorem shows_stringToken {quote : Char} {s : List Char} (h : (stringToken quote s).1 ≠ .badString)
    (p : List Char) : (stringToken quote s).1.Shows p := by
  unfold stringToken at h ⊢
  split
  · trivial
  · rename_i heq
    rw [heq] at h
    exact absurd rfl h

theorem shows_hyphenToken {r p : List Char} :
    p ++ (hyphenToken r).2 = '-' :: r → (hyphenToken r).1 ≠ .badUrl →
      (hyphenToken r).1.Shows p := by
  unfold hyphenToken
  split
  · exact fun _ _ => shows_numberToken _ _
  · split
    · exact fun hp _ => (List.append_left_inj _).1 hp
    · split
      · exact shows_nameToken
      · exact fun hp _ => (List.append_left_inj _).1 hp

theorem shows_lessToken {r p : List Char} :
    p ++ (lessToken r).2 = '<' :: r → (lessToken r).1.Shows p := by
  unfold lessToken
  split
  · exact fun hp => (List.append_left_inj _).1 hp
  · exact fun hp => (List.append_left_inj _).1 hp

/-- A token that is not broken off shows in its source text. -/
theorem shows_token {c : Char} {r p : List Char} (hp : p ++ (token c r).2 = c :: r)
    (hstring : (token c r).1 ≠ .badString) (hurl : (token c r).1 ≠ .badUrl) :
    (token c r).1.Shows p := by
  obtain ⟨q, hpq, hq⟩ := exists_cons_of_suffix (token_suffix c r) hp
  revert hp hstring hurl hq
  unfold token
  split
  · rename_i hspace
    intro _ _ _ hq
    have hq' : q = r.takeWhile isSpace := by
      apply (List.append_left_inj (r.dropWhile isSpace)).1
      rw [hq, List.takeWhile_append_dropWhile]
    intro x hx
    rw [hpq, hq', List.mem_cons] at hx
    rcases hx with rfl | hx
    · exact hspace
    · exact List.all_eq_true.1 List.all_takeWhile x hx
  · split
    case h_1 | h_2 => exact fun _ hstring _ _ => shows_stringToken hstring p
    case h_3 =>
      unfold hashToken
      split
      · exact fun _ _ _ _ => ⟨q, hpq⟩
      · exact fun hp _ _ _ => (List.append_left_inj r).1 hp
    case h_13 | h_15 =>
      split
      · exact fun _ _ _ _ => shows_numberToken _ _
      · exact fun hp _ _ _ => (List.append_left_inj r).1 hp
    case h_14 => exact fun hp _ hurl _ => shows_hyphenToken hp hurl
    case h_16 => exact fun hp _ _ _ => shows_lessToken hp
    case h_17 =>
      unfold atToken
      split
      · exact fun _ _ _ _ => ⟨q, hpq⟩
      · exact fun hp _ _ _ => (List.append_left_inj r).1 hp
    case h_18 =>
      split
      · exact fun hp _ hurl _ => shows_nameToken hp hurl
      · exact fun hp _ _ _ => (List.append_left_inj r).1 hp
    case h_19 =>
      split
      · exact fun _ _ _ _ => shows_numberToken _ _
      · split
        · exact fun hp _ hurl _ => shows_nameToken hp hurl
        · exact fun hp _ _ _ => (List.append_left_inj r).1 hp
    all_goals exact fun hp _ _ _ => (List.append_left_inj r).1 hp

end Lexer

namespace Lexeme

/-- Whether the source text of a lexeme shows its token. -/
def Spelled (l : Lexeme) : Prop :=
  l.token.Shows l.source.toList

theorem spelled_gap {comments s : List Char} {inWord : Bool} {start : Nat} :
    ∀ l ∈ gap comments inWord start s, l.Spelled := by
  unfold gap
  split_ifs
  · intro l hl
    rw [List.mem_singleton.1 hl]
    simp [Spelled, Token.Shows]
  · simp

theorem spelled_scanFrom {inWord : Bool} {start : Nat} {s : List Char}
    (h : ∀ l ∈ scanFrom inWord start s, l.isBroken = false) :
    ∀ l ∈ scanFrom inWord start s, l.Spelled := by
  induction hn : s.length using Nat.strongRecOn generalizing inWord start s with
  | ind n ih =>
    subst hn
    cases hs : Lexer.skipComments s with
    | nil => simp [scanFrom_of_skipComments_eq_nil hs]
    | cons c r =>
      obtain ⟨comments, source, p, start₁, start₂, hcomments, hsource, -, -, hscan⟩ :=
        scanFrom_step hs
      rw [hscan] at h ⊢
      have hlt := Lexer.length_token_lt hs
      intro l hl
      rw [List.mem_append, List.mem_cons] at hl
      rcases hl with hl | rfl | hl
      · exact spelled_gap l hl
      · have hbroken := h _ (List.mem_append_right _ List.mem_cons_self)
        simp only [isBroken, Bool.or_eq_false_iff, decide_eq_false_iff_not] at hbroken
        rw [Spelled, String.toList_ofList]
        exact Lexer.shows_token hsource hbroken.1 hbroken.2
      · exact ih _ hlt (fun a ha => h a (by simp [ha])) rfl l hl

theorem CutsInto.spelled {x : List Char} {ls : List Lexeme} (h : CutsInto x ls) :
    ∀ l ∈ ls, l.Spelled := by
  induction h with
  | nil => simp
  | @cons c r r' source t ls noComment reads whole split rest ih =>
    rintro l (_ | ⟨_, hl⟩)
    · rw [Spelled, String.toList_ofList]
      have hshows := Lexer.shows_token (c := c) (r := r ++ ['\x7b']) (p := source)
      rw [reads, ← List.append_assoc, split] at hshows
      exact hshows rfl whole.1 whole.2
    · exact ih l hl

/-- A lexeme of a scan is read from the text where it starts, or it stands there for comments
between words. -/
theorem exists_place_of_mem_scanFrom {inWord : Bool} {start : Nat} {s : List Char} {l : Lexeme}
    (hl : l ∈ scanFrom inWord start s) :
    ∃ front rest, s = front ++ rest ∧ l.start = start + byteSize front ∧
      (l.token = .whitespace ∧ l.source = "" ∨
        ∃ c r, rest = c :: r ∧ l.token = (Lexer.token c r).1 ∧
          l.source.toList ++ (Lexer.token c r).2 = c :: r) := by
  induction hn : s.length using Nat.strongRecOn generalizing inWord start s with
  | ind n ih =>
    subst hn
    cases hs : Lexer.skipComments s with
    | nil => simp [scanFrom_of_skipComments_eq_nil hs] at hl
    | cons c r =>
      have hlt := Lexer.length_token_lt hs
      obtain ⟨p, hsource⟩ := Lexer.exists_source c r
      obtain ⟨comments, rfl⟩ : c :: r <:+ s := hs ▸ Lexer.skipComments_suffix s
      rw [scanFrom_eq_of_skipComments hs hsource, List.mem_append, List.mem_cons] at hl
      rcases hl with hl | rfl | hl
      · unfold gap at hl
        split_ifs at hl
        · rw [List.mem_singleton.1 hl]
          exact ⟨comments, c :: r, rfl, rfl, .inl ⟨rfl, rfl⟩⟩
        · cases hl
      · refine ⟨comments, c :: r, rfl, rfl, .inr ⟨c, r, rfl, rfl, ?_⟩⟩
        rw [String.toList_ofList, hsource]
      · obtain ⟨front, rest, hrest, hstart, hread⟩ := ih _ hlt hl rfl
        refine ⟨comments ++ (c :: p ++ front), rest, ?_, ?_, hread⟩
        · rw [List.append_assoc, List.append_assoc, ← hrest, hsource]
        · rw [hstart, byteSize_append, byteSize_append]
          omega

/-- A lexeme of a scan is read from the text, or it stands for comments between words. -/
theorem exists_token_of_mem_scanFrom {inWord : Bool} {start : Nat} {s : List Char} {l : Lexeme}
    (hl : l ∈ scanFrom inWord start s) :
    l.token = .whitespace ∧ l.source = "" ∨
      ∃ c r, l.token = (Lexer.token c r).1 ∧ l.source.toList ++ (Lexer.token c r).2 = c :: r := by
  obtain ⟨_, _, -, -, hgap | ⟨c, r, -, hread⟩⟩ := exists_place_of_mem_scanFrom hl
  · exact .inl hgap
  · exact .inr ⟨c, r, hread⟩

/-- An at-keyword is its mark and the name after it. -/
theorem exists_name_of_atKeyword {inWord : Bool} {start : Nat} {s : List Char} {l : Lexeme}
    (hl : l ∈ scanFrom inWord start s) (hspelled : l.Spelled) {name : String}
    (isAt : l.token = .atKeyword name) :
    ∃ n r, l.source.toList = '@' :: n ∧ Lexer.startsName r ∧ n ++ (Lexer.name r).2 = r := by
  obtain ⟨hgap, -⟩ | ⟨c, r, htoken, hsource⟩ := exists_token_of_mem_scanFrom hl
  · rw [isAt] at hgap
    cases hgap
  · rw [Spelled, isAt] at hspelled
    obtain ⟨n, hn⟩ := hspelled
    rw [hn, List.cons_append] at hsource
    obtain ⟨rfl, hsource⟩ := List.cons.inj hsource
    have hat : Lexer.token '@' r = Lexer.atToken r := rfl
    rw [hat, Lexer.atToken] at hsource
    rw [isAt, hat, Lexer.atToken] at htoken
    split_ifs at htoken hsource with hstarts
    exact ⟨n, r, hn, hstarts, hsource⟩

/-- Punctuation is spelled with its character. -/
theorem Spelled.toList_source {l : Lexeme} (h : l.Spelled) {t : Token} (hl : l.token = t)
    {c : Char} (hc : punctuation? c = some t) : l.source.toList = [c] := by
  rw [Spelled, hl] at h
  unfold punctuation? at hc
  split at hc <;> cases hc <;> exact h

theorem Spelled.toList_raw {l : Lexeme} (h : l.Spelled) {t : Token} (hl : l.token = t) {c : Char}
    (hc : punctuation? c = some t) : l.raw.toList = [c] := by
  have hsource := h.toList_source hl hc
  rw [raw, if_neg]
  · exact hsource
  · rintro ⟨-, hempty⟩
    rw [hempty] at hsource
    cases hsource

theorem Spelled.not_broken {l : Lexeme} (h : l.Spelled) : l.isBroken = false := by
  obtain ⟨t, source, start⟩ := l
  cases t <;> first | rfl | exact h.elim

end Lexeme

end Restyle.Css
