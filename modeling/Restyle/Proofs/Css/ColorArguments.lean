import Restyle.Color.Function
import Restyle.Proofs.Css.ContainedSheets
import Restyle.Proofs.Css.DroppedComments
import Restyle.Proofs.Css.Gray

/-!
# The texts that color functions take

The arguments of a color function are numbers, percentages and angles, with white space, commas and
slashes between them. Main statement: no hash stands in such a text unless a comment starts there
(`hash_notMem_of_ofLexemes?`).
-/

namespace Restyle.Css

open Text

/-- Whether no comment starts in a text. -/
def LacksComment (t : List Char) : Prop :=
  ¬ "/*".toList <:+: t

theorem LacksComment.of_isInfix {t u : List Char} (h : LacksComment t) (hu : u <:+: t) :
    LacksComment u :=
  fun hopens => h (hopens.trans hu)

theorem isInfix_pair_of_ne {a b c : Char} (ha : c ≠ a) {t : List Char} (h : [a, b] <:+: c :: t) :
    [a, b] <:+: t := by
  refine (List.infix_cons_iff.1 h).resolve_left fun hprefix => ?_
  exact ha (List.cons_prefix_cons.1 hprefix).1.symm

/-- A pair of characters that a third one keeps apart is on one side of it. -/
theorem isInfix_pair_append {a b c : Char} (ha : c ≠ a) (hb : c ≠ b) {s t : List Char}
    (h : [a, b] <:+: s ++ c :: t) : [a, b] <:+: s ∨ [a, b] <:+: t := by
  induction s with
  | nil => exact .inr (isInfix_pair_of_ne ha h)
  | cons d s ih =>
    rcases List.infix_cons_iff.1 h with hprefix | hinfix
    · obtain ⟨rfl, hrest⟩ := List.cons_prefix_cons.1 hprefix
      cases s with
      | nil => exact absurd (List.cons_prefix_cons.1 hrest).1.symm hb
      | cons e s =>
        obtain ⟨rfl, -⟩ := List.cons_prefix_cons.1 hrest
        exact .inl ⟨[], s, rfl⟩
    · exact (ih hinfix).imp_left fun hs => hs.trans (List.suffix_cons d s).isInfix

/-- No comment starts in the digits of a hash. -/
theorem LacksComment.keptByHash : Value.KeptByHash LacksComment := by
  intro front piece back digits hdigits h hopens
  have hpair : "/*".toList = ['/', '*'] := rfl
  rw [Value.isHexColor, Bool.and_eq_true] at hdigits
  rw [LacksComment, hpair] at h
  rw [hpair] at hopens
  obtain hfront | hrest := isInfix_pair_append (by decide) (by decide) hopens
  · exact h (hfront.trans (List.prefix_append _ _).isInfix)
  suffices hskip : ∀ ds : List Char, ds.all isHexDigit → ['/', '*'] <:+: ds ++ back →
      ['/', '*'] <:+: back by
    have hback := hskip _ hdigits.2 hrest
    have hwhole := (List.suffix_append piece back).trans (List.suffix_append front _)
    exact h (hback.trans hwhole.isInfix)
  intro ds hall hinfix
  induction ds with
  | nil => exact hinfix
  | cons c ds ih =>
    rw [List.all_cons, Bool.and_eq_true] at hall
    refine ih hall.2 (isInfix_pair_of_ne ?_ hinfix)
    rintro rfl
    exact absurd hall.1 (by decide)

/-! ## Numerals -/

namespace Numeral

/-- No hash is in a numeral. -/
theorem hash_notMem_text (s : List Char) : '#' ∉ (read s).1.text := by
  have hdigit : ∀ c : Char, c.isDigit → c ≠ '#' := by
    rintro c hc rfl
    cases hc
  exact fun hash => Lexer.forall_mem_numeral hdigit (by simp) s _ hash rfl

end Numeral

/-! ## Names -/

namespace Lexer

/-- A hash in a text that writes a name is in the name. -/
theorem WritesName.hash_mem {p n : List Char} (h : WritesName p n) (hash : '#' ∈ p) : '#' ∈ n := by
  induction h with
  | nil => cases hash
  | @char c p n isName _ ih =>
    rcases List.mem_cons.1 hash with rfl | hash
    · cases isName
    · exact List.mem_cons_of_mem c (ih hash)
  | @escape c value e p n more isSelf _ ih =>
    rw [List.mem_cons, List.mem_cons, List.mem_append] at hash
    rcases hash with hash | rfl | hash | hash
    · cases hash
    · rcases isSelf with hdigit | ⟨-, rfl⟩
      · cases hdigit
      · exact List.mem_cons_self
    · rcases more _ hash with hdigit | hspace
      · cases hdigit
      · cases hspace
    · exact List.mem_cons_of_mem _ (ih hash)

theorem hash_mem_name {s p : List Char} (hp : p ++ (name s).2 = s) (hash : '#' ∈ p) :
    '#' ∈ (name s).1 := by
  rcases writesName_or_cut hp with hwrites | ⟨-, p', n', c, rfl, hn, hwrites⟩
  · exact hwrites.hash_mem hash
  · rw [hn]
    refine List.mem_append_left _ (hwrites.hash_mem ?_)
    simpa using hash

end Lexer

end Restyle.Css

namespace Restyle.ColorArg

open Css Text Lexer

/-! ## Arguments -/

/-- Whether a token can stand among the arguments of a color function. -/
def isArgument : Token → Bool
  | .number _ _ | .percentage _ | .whitespace | .comma => true
  | .dimension v unit => (ofAngle? v.toFloat unit).isSome
  | .delim c => c == '/'
  | _ => false

theorem isArgument_of_ofLexemes? {l : Lexeme} {ls : List Lexeme}
    (h : (ofLexemes? (l :: ls)).isSome) :
    isArgument l.token ∧ (ofLexemes? ls).isSome := by
  rw [ofLexemes?] at h
  split at h
  case h_7 => cases h
  all_goals
    rename_i htoken
    rw [htoken, isArgument]
  · exact ⟨rfl, by simpa using h⟩
  · exact ⟨rfl, by simpa using h⟩
  · obtain ⟨args, hargs⟩ := Option.isSome_iff_exists.1 h
    obtain ⟨a, ha, hrest⟩ := Option.bind_eq_some_iff.1 hargs
    obtain ⟨as, has, -⟩ := Option.bind_eq_some_iff.1 hrest
    exact ⟨Option.isSome_of_mem ha, Option.isSome_of_mem has⟩
  all_goals exact ⟨rfl, h⟩

theorem hash_notMem_of_ofAngle? {x : Float} {unit : String} (h : (ofAngle? x unit).isSome) :
    '#' ∉ unit.toList := by
  intro hmem
  have hlower : '#' ∈ (lower unit).toList := by
    rw [lower, String.toList_ofList]
    exact List.mem_map_of_mem hmem
  unfold ofAngle? at h
  split at h
  case h_5 => cases h
  all_goals
    rename_i hunit
    rw [hunit] at hlower
    revert hlower
    decide

theorem hash_notMem_of_numberToken {s p : List Char} (hp : p ++ (numberToken s).2 = s)
    (h : isArgument (numberToken s).1) : '#' ∉ p := by
  have hread := Numeral.text_read s
  have hnumeral := Numeral.hash_notMem_text s
  revert hp h
  unfold numberToken
  generalize Numeral.read s = n at hread hnumeral ⊢
  obtain ⟨n, rest⟩ := n
  dsimp only at hread hnumeral ⊢
  subst hread
  split
  · intro hp h hash
    obtain ⟨q, hq⟩ := name_suffix rest
    have hsplit : p = n.text ++ q := by
      apply (List.append_left_inj (name rest).2).1
      rw [hp, List.append_assoc, hq]
    rw [hsplit, List.mem_append] at hash
    have hname := hash_mem_name hq (hash.resolve_left hnumeral)
    have hunit := hash_notMem_of_ofAngle? h
    rw [String.toList_ofList] at hunit
    exact hunit hname
  · split
    · rename_i r _
      intro hp _
      have hsplit : p = n.text ++ ['%'] := by
        apply (List.append_left_inj r).1
        rw [hp, List.append_assoc]
        rfl
      simpa [hsplit] using hnumeral
    · intro hp _
      rwa [(List.append_left_inj _).1 hp]

/-- Whether a token is a number, with or without a unit. -/
def isNumeric : Token → Bool
  | .number _ _ | .percentage _ | .dimension _ _ => true
  | _ => false

/-- A token with a number is read as one. -/
theorem token_eq_numberToken {c : Char} {r : List Char} (h : isNumeric (token c r).1) :
    token c r = numberToken (c :: r) := by
  rcases numeral_cases c r with ⟨-, hread⟩ | ⟨-, hnone⟩
  · exact hread
  · generalize (token c r).1 = t at h hnone
    cases t with
    | number _ _ | percentage _ | dimension _ _ => cases hnone
    | _ => cases h

theorem hash_notMem_of_token {c : Char} {r p : List Char} (hp : p ++ (token c r).2 = c :: r)
    (h : isArgument (token c r).1) : '#' ∉ p := by
  cases hnumeric : isNumeric (token c r).1 with
  | true =>
    rw [token_eq_numberToken hnumeric] at hp h
    exact hash_notMem_of_numberToken hp h
  | false =>
    have hshows := shows_token hp (by rintro heq; rw [heq] at h; cases h)
      (by rintro heq; rw [heq] at h; cases h)
    generalize (token c r).1 = t at h hnumeric hshows
    cases t with
    | whitespace =>
      intro hmem
      cases hshows _ hmem
    | comma => simp [show p = [','] from hshows]
    | delim d =>
      obtain rfl : d = '/' := by simpa [isArgument] using h
      simp [show p = ['/'] from hshows]
    | number _ _ | percentage _ | dimension _ _ => cases hnumeric
    | _ => cases h

theorem skipComments_of_lacksComment {s : List Char} (h : LacksComment s) : skipComments s = s := by
  unfold skipComments
  split
  · rename_i r
    exact absurd ⟨[], r, rfl⟩ h
  · rfl

/-- No hash is in the text of the arguments of a color function, unless a comment starts there. -/
theorem hash_notMem_of_ofLexemes? {inWord : Bool} {start : Nat} {s : List Char}
    (h : (ofLexemes? (Lexeme.scanFrom inWord start s)).isSome) (hlacks : LacksComment s) :
    '#' ∉ s := by
  induction hn : s.length using Nat.strongRecOn generalizing inWord start s with
  | ind n ih =>
    subst hn
    cases s with
    | nil => exact List.not_mem_nil
    | cons c r =>
      have hskip := skipComments_of_lacksComment hlacks
      obtain ⟨start₁, start₂, hscan⟩ : ∃ start₁ start₂,
          Lexeme.scanFrom inWord start (c :: r) = _ ++ _ :: _ :=
        Lexeme.scanFrom_of_skipComments_eq_cons hskip
      rw [hscan, Nat.sub_self, List.take_zero] at h
      obtain ⟨harg, hrest⟩ := isArgument_of_ofLexemes? h
      obtain ⟨p, hp⟩ := (token_suffix c r).trans (List.suffix_cons c r)
      have hlt := (token_suffix c r).length_le
      have hash := ih _ (by simp; omega) hrest (hlacks.of_isInfix ⟨p, [], by simpa using hp⟩) rfl
      rw [← hp, List.mem_append, not_or]
      exact ⟨hash_notMem_of_token hp harg, hash⟩

end Restyle.ColorArg
