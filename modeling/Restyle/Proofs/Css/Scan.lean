import Mathlib.Tactic.SplitIfs
import Restyle.Css.Lexer

/-!
# Scanning step by step

`Lexeme.scanFrom` drops the comments at the front, reads one token and goes on after it. The
equations here say so for a text that holds comments only, and for one in which a token follows
them.
-/

namespace Restyle.Css

open Text

namespace Lexer

theorem skipComments_eq_self {s : List Char} (h : ∀ t, s ≠ '/' :: '*' :: t) :
    skipComments s = s := by
  rw [skipComments.eq_2 s h]

theorem skipComments_cons {c : Char} (h : c ≠ '/') (r : List Char) :
    skipComments (c :: r) = c :: r :=
  skipComments_eq_self fun _ ht => h (List.cons.inj ht).1

/-- A hexadecimal escape is a digit, more of them, and a white space character at most. -/
theorem escape_of_isHexDigit {c : Char} (h : isHexDigit c) (r : List Char) :
    ∃ more t, r = more ++ t ∧ more.all isHexDigit ∧
      escape (c :: r) = (scalar (numberOf 16 (c :: more)), dropSpace t) := by
  refine ⟨(r.take 5).takeWhile isHexDigit,
    r.drop ((r.take 5).takeWhile isHexDigit).length, ?_, List.all_takeWhile, by simp [escape, h]⟩
  have hprefix : (r.take 5).takeWhile isHexDigit <+: r :=
    (List.takeWhile_prefix _).trans (List.take_prefix _ _)
  exact (List.prefix_iff_eq_append.1 hprefix).symm

/-- A token takes the first character of its text. -/
theorem exists_source (c : Char) (r : List Char) : ∃ p, c :: p ++ (token c r).2 = c :: r := by
  obtain ⟨p, hp⟩ := token_suffix c r
  exact ⟨p, congrArg (List.cons c) hp⟩

/-- A step of a scan leaves less. -/
theorem length_token_lt {s : List Char} {c : Char} {r : List Char} (h : skipComments s = c :: r) :
    (token c r).2.length < s.length := by
  have hskip := (skipComments_suffix s).length_le
  have hrest := (token_suffix c r).length_le
  rw [h, List.length_cons] at hskip
  omega

/-! ## Hexadecimal digits -/

theorem toNat_lt_of_isHexDigit {c : Char} (h : isHexDigit c) : c.toNat < 103 := by
  simp only [isHexDigit, Char.isDigit, Bool.or_eq_true, Bool.and_eq_true, decide_eq_true_eq,
    Char.le_def, UInt32.le_iff_toNat_le, ge_iff_le] at h
  change (48 ≤ c.toNat ∧ c.toNat ≤ 57 ∨ 97 ≤ c.toNat ∧ c.toNat ≤ 102) ∨
    65 ≤ c.toNat ∧ c.toNat ≤ 70 at h
  omega

theorem forall_hexDigit {p : Char → Prop}
    (h : ∀ n < 103, isHexDigit (Char.ofNat n) → p (Char.ofNat n))
    {c : Char} (hc : isHexDigit c) : p c := by
  have := h c.toNat (toNat_lt_of_isHexDigit hc)
  rw [Char.ofNat_toNat] at this
  exact this hc

theorem isNameChar_of_isHexDigit {c : Char} (h : isHexDigit c) : isNameChar c := by
  refine forall_hexDigit (p := fun c => isNameChar c) ?_ h
  decide

/-! ## Identifiers -/

section

variable {v : String}

theorem stringToken_ne_ident (quote : Char) (s : List Char) :
    (stringToken quote s).1 ≠ .ident v := by
  unfold stringToken
  split <;> simp

theorem hashToken_ne_ident (s : List Char) : (hashToken s).1 ≠ .ident v := by
  unfold hashToken
  split <;> simp

theorem atToken_ne_ident (s : List Char) : (atToken s).1 ≠ .ident v := by
  unfold atToken
  split <;> simp

theorem lessToken_ne_ident (s : List Char) : (lessToken s).1 ≠ .ident v := by
  unfold lessToken
  split <;> simp

theorem numberToken_ne_ident (s : List Char) : (numberToken s).1 ≠ .ident v := by
  unfold numberToken
  generalize Numeral.read s = p
  dsimp only
  split
  · simp
  · split <;> simp

theorem name_of_nameToken {s : List Char} (h : (nameToken s).1 = .ident v) :
    name s = (v.toList, (nameToken s).2) := by
  unfold nameToken at h ⊢
  generalize name s = p at h ⊢
  obtain ⟨n, rest⟩ := p
  dsimp only at h ⊢
  split at h
  · split at h
    · split at h <;> cases h
    · cases h
  · cases h
    rw [String.toList_ofList]

/-- An identifier is a name that stands where a name can start. -/
theorem token_eq_ident {c : Char} {r : List Char} (h : (token c r).1 = .ident v) :
    startsName (c :: r) ∧ name (c :: r) = (v.toList, (token c r).2) := by
  generalize hp : token c r = p at h ⊢
  unfold token at hp
  split at hp
  · subst hp
    cases h
  split at hp
  case h_1 | h_2 => exact absurd (hp ▸ h) (stringToken_ne_ident _ _)
  case h_3 => exact absurd (hp ▸ h) (hashToken_ne_ident _)
  case h_13 | h_15 =>
    split at hp
    · exact absurd (hp ▸ h) (numberToken_ne_ident _)
    · subst hp
      cases h
  case h_14 =>
    unfold hyphenToken at hp
    split at hp
    · exact absurd (hp ▸ h) (numberToken_ne_ident _)
    · split at hp
      · subst hp
        cases h
      · split at hp
        · rename_i hstarts
          subst hp
          exact ⟨hstarts, name_of_nameToken h⟩
        · subst hp
          cases h
  case h_16 => exact absurd (hp ▸ h) (lessToken_ne_ident _)
  case h_17 => exact absurd (hp ▸ h) (atToken_ne_ident _)
  case h_18 =>
    split at hp
    · rename_i hesc
      subst hp
      exact ⟨hesc, name_of_nameToken h⟩
    · subst hp
      cases h
  case h_19 =>
    split at hp
    · exact absurd (hp ▸ h) (numberToken_ne_ident _)
    · split at hp
      · rename_i hstart
        subst hp
        refine ⟨?_, name_of_nameToken h⟩
        unfold startsName
        split <;> simp_all
      · subst hp
        cases h
  all_goals
    subst hp
    cases h

end

end Lexer

namespace Lexeme

open Lexer

/-! ## Lexemes -/

/-- The white space that stands for comments which keep two words apart. -/
def gap (comments : List Char) (inWord : Bool) (start : Nat) (s : List Char) : List Lexeme :=
  if !comments.isEmpty && inWord && extendsWord s then [⟨.whitespace, "", start⟩] else []

theorem scanFrom_of_skipComments_eq_nil {inWord : Bool} {start : Nat} {s : List Char}
    (h : skipComments s = []) : scanFrom inWord start s = [] := by
  rw [scanFrom]
  split
  · rfl
  · simp_all

/-- A step of a scan: comments, a token with its source text, and what is left. -/
theorem scanFrom_eq_of_skipComments {inWord : Bool} {start : Nat} {comments source r : List Char}
    {c : Char} (h : Lexer.skipComments (comments ++ c :: r) = c :: r)
    (hsource : source ++ (Lexer.token c r).2 = c :: r) :
    scanFrom inWord start (comments ++ c :: r) =
      gap comments inWord (start + byteSize comments) (c :: r) ++
        ⟨(Lexer.token c r).1, String.ofList source, start + byteSize comments⟩ ::
          scanFrom (Lexer.token c r).1.isWord (start + byteSize comments + byteSize source)
            (Lexer.token c r).2 := by
  have htake : (comments ++ c :: r).take ((comments ++ c :: r).length - (c :: r).length) =
      comments := by
    rw [List.length_append, Nat.add_sub_cancel, List.take_left]
  have htake' : (c :: r).take ((c :: r).length - (Lexer.token c r).2.length) = source := by
    rw [← hsource, List.length_append, Nat.add_sub_cancel, List.take_left]
  rw [scanFrom]
  split
  · simp_all
  · rename_i c' r' h'
    rw [h] at h'
    cases h'
    simp only [htake, htake', gap]
    split_ifs <;> rfl

theorem scanFrom_of_skipComments_eq_cons {inWord : Bool} {start : Nat} {s : List Char} {c : Char}
    {r : List Char} (h : skipComments s = c :: r) :
    ∃ start₁ start₂,
      scanFrom inWord start s =
        gap (s.take (s.length - (c :: r).length)) inWord start₁ (c :: r) ++
          ⟨(Lexer.token c r).1,
            String.ofList ((c :: r).take ((c :: r).length - (Lexer.token c r).2.length)),
            start₁⟩ ::
          scanFrom (Lexer.token c r).1.isWord start₂ (Lexer.token c r).2 := by
  obtain ⟨comments, rfl⟩ : c :: r <:+ s := h ▸ skipComments_suffix s
  obtain ⟨p, hsource⟩ := exists_source c r
  refine ⟨start + byteSize comments, start + byteSize comments + byteSize (c :: p), ?_⟩
  rw [scanFrom_eq_of_skipComments h hsource, List.length_append, Nat.add_sub_cancel,
    List.take_left, ← congrArg List.length hsource, List.length_append, Nat.add_sub_cancel,
    ← hsource, List.take_left]

/-- A text that is one identifier is a name with comments around it. -/
theorem name_of_ofText_eq_ident {n v : String}
    (h : (ofText n).map token = [.ident v, .eof]) :
    ∃ rest, startsName (skipComments n.toList) ∧
      name (skipComments n.toList) = (v.toList, rest) ∧ skipComments rest = [] := by
  unfold ofText scan at h
  cases hn : skipComments n.toList with
  | nil => simp [scanFrom_of_skipComments_eq_nil hn] at h
  | cons c r =>
    obtain ⟨start₁, start₂, hscan⟩ := scanFrom_of_skipComments_eq_cons hn
    rw [hscan] at h
    simp only [gap, Bool.and_false, Bool.false_and, Bool.false_eq_true, if_false, List.nil_append,
      List.cons_append, List.map_cons, List.cons.injEq, List.map_append, List.map_nil] at h
    obtain ⟨hstarts, hname⟩ := token_eq_ident h.1
    refine ⟨_, hstarts, hname, ?_⟩
    cases hrest : skipComments (Lexer.token c r).2 with
    | nil => rfl
    | cons d t =>
      obtain ⟨_, _, hscan⟩ := scanFrom_of_skipComments_eq_cons hrest
      have := congrArg List.length h.2
      rw [hscan] at this
      simp only [List.length_map, List.length_append, List.length_cons, List.length_nil] at this
      omega

end Lexeme

end Restyle.Css
