import Mathlib.Data.List.TakeWhile
import Restyle.Proofs.Css.Recoloring
import Restyle.Proofs.Css.SelectorEntries

/-!
# Reading a word before another text

A name or a number that was read from a text is read the same when another text comes after it, as
long as the readers see no difference there. `SeesSame` lists what they look at, and `endsOpen`
tells a name whose last escape takes the white space that comes after it. Main statements: the two
for names (`Lexer.name_append_iff`) and for numbers (`Lexer.numberToken_append_iff`).
-/

namespace Restyle.Css

open Text

namespace Lexer

variable {c d : Char} {p u y : List Char}

/-! ## Escapes -/

theorem escape_of_hex {x : Char} (hx : isHexDigit x) (r : List Char) :
    escape (x :: r) = (scalar (numberOf 16 (x :: (r.take 5).takeWhile isHexDigit)),
      dropSpace (r.drop ((r.take 5).takeWhile isHexDigit).length)) := by
  simp [escape, hx]

theorem escape_of_not_hex {x : Char} (hx : isHexDigit x = false) (r : List Char) :
    escape (x :: r) = (x, r) := by
  simp [escape, hx]

theorem dropSpace_append {r : List Char} (hr : r ≠ []) (y : List Char) :
    dropSpace (r ++ y) = dropSpace r ++ y := by
  cases r with
  | nil => exact absurd rfl hr
  | cons x r =>
    simp only [List.cons_append, dropSpace]
    split_ifs <;> rfl

theorem dropSpace_of_head? (h : ∀ e ∈ y.head?, isSpace e = false) : dropSpace y = y := by
  cases y with
  | nil => rfl
  | cons e y => simp [dropSpace, h e rfl]

theorem isHexDigit_of_isSpace (h : isSpace c) : isHexDigit c = false := by
  simp only [isSpace, Bool.or_eq_true, beq_iff_eq] at h
  rcases h with (((rfl | rfl) | rfl) | rfl) | rfl <;> rfl

/-- An escape all of whose characters are digits takes white space that comes after it. -/
theorem escape_space {x e : Char} {r : List Char} (hhex : (x :: r).all isHexDigit)
    (hlength : r.length ≤ 5) (he : isSpace e) (y : List Char) :
    (escape (x :: (r ++ e :: y))).2 = y := by
  rw [List.all_cons, Bool.and_eq_true] at hhex
  have hnot : ∀ f ∈ (e :: y).head?, isHexDigit f = false := by
    rintro f ⟨⟩
    exact isHexDigit_of_isSpace he
  have htake : (r.take 5).takeWhile isHexDigit = r := by
    rw [List.take_of_length_le hlength, List.takeWhile_eq_self_iff]
    exact List.all_eq_true.1 hhex.2
  rw [escape_of_hex hhex.1, takeWhile_take_append (.inr hnot), htake, List.drop_left, dropSpace,
    if_pos he]

/-- Whether an escape by number leaves nothing of its text, so that it goes on with digits that come
next and takes white space there. -/
def IsOpenEscape (x : Char) (r t : List Char) : Prop :=
  t = [] ∧ (x :: r).all isHexDigit

/-- Whether an escape is read as a character and leaves `t` of its text, whatever comes after the
text, as long as an open escape is not affected. -/
structure EscapesTo (x : Char) (r : List Char) (a : Char) (t : List Char) : Prop where
  /-- The end of the text is left. -/
  suffix : t <:+ r
  /-- An open escape has six digits at most. -/
  short : IsOpenEscape x r t → r.length ≤ 5
  /-- The escape is read so before other texts. -/
  read : ∀ y, (IsOpenEscape x r t → ∀ e ∈ y.head?, isHexDigit e = false ∧ isSpace e = false) →
    escape (x :: (r ++ y)) = (a, t ++ y)

theorem EscapesTo.length_lt {x a : Char} {r t : List Char} (h : EscapesTo x r a t) (c : Char) :
    t.length < (c :: x :: r).length :=
  Nat.lt_of_le_of_lt h.suffix.length_le (Nat.lt_add_of_pos_right Nat.two_pos)

theorem escapesTo_of_not_hex {x : Char} (hx : isHexDigit x = false) (r : List Char) :
    EscapesTo x r x r where
  suffix := List.suffix_refl r
  short := by
    rintro ⟨-, hhex⟩
    simp [hx] at hhex
  read y _ := escape_of_not_hex hx _

/-- An escape by number whose digits end inside of its text is not open. -/
theorem escapesTo_of_lt {x : Char} (hx : isHexDigit x) {r : List Char}
    (hlt : ((r.take 5).takeWhile isHexDigit).length < r.length) :
    ∃ a t, EscapesTo x r a t ∧ ¬ IsOpenEscape x r t := by
  have hread : ∀ y, escape (x :: (r ++ y)) =
      (scalar (numberOf 16 (x :: (r.take 5).takeWhile isHexDigit)),
        dropSpace (r.drop ((r.take 5).takeWhile isHexDigit).length) ++ y) := by
    intro y
    rw [escape_of_hex hx, takeWhile_take_append (.inl hlt), List.drop_append_of_le_length hlt.le,
      dropSpace_append]
    rw [← List.length_pos_iff, List.length_drop]
    omega
  have hclosed : ¬ IsOpenEscape x r
      (dropSpace (r.drop ((r.take 5).takeWhile isHexDigit).length)) := by
    rintro ⟨hnil, hhex⟩
    rw [List.all_cons, Bool.and_eq_true, List.all_eq_true] at hhex
    have htake : (r.take 5).takeWhile isHexDigit = r.take 5 :=
      List.takeWhile_eq_self_iff.2 fun e he => hhex.2 e (List.take_subset 5 r he)
    rw [htake, List.length_take] at hlt hnil
    have hdrop : r.drop (min 5 r.length) ≠ [] := by
      rw [← List.length_pos_iff, List.length_drop]
      omega
    obtain ⟨e, s, hs⟩ := List.exists_cons_of_ne_nil hdrop
    have he : isHexDigit e := hhex.2 e ((List.drop_suffix _ r).subset (by rw [hs]; simp))
    have hspace : isSpace e = false := Bool.eq_false_iff.2 fun hspace => by
      rw [isHexDigit_of_isSpace hspace] at he
      cases he
    simp [hs, dropSpace, hspace] at hnil
  exact ⟨_, _, ⟨(dropSpace_suffix _).trans (List.drop_suffix _ _), fun h => absurd h hclosed,
    fun y _ => hread y⟩, hclosed⟩

/-- An escape by number whose digits go on to the end of its text is open. -/
theorem escapesTo_of_all {x : Char} (hx : isHexDigit x) {r : List Char}
    (htake : (r.take 5).takeWhile isHexDigit = r) :
    EscapesTo x r (scalar (numberOf 16 (x :: r))) [] where
  suffix := List.nil_suffix
  short _ := by
    rw [← htake]
    exact (List.takeWhile_prefix _).length_le.trans (List.length_take_le _ _)
  read y hy := by
    have hall : (x :: r).all isHexDigit := by
      rw [List.all_cons, hx, Bool.true_and, ← htake]
      exact List.all_takeWhile
    have hy := hy ⟨rfl, hall⟩
    rw [escape_of_hex hx, takeWhile_take_append (.inr fun e he => (hy e he).1), htake,
      List.drop_left, dropSpace_of_head? fun e he => (hy e he).2, List.nil_append]

/-- An escape leaves the text that comes after it, and is read so before other texts; or it takes
more than its own text. -/
theorem escape_append (x : Char) (r : List Char) (d : Char) (u : List Char) :
    (∃ a t, EscapesTo x r a t ∧ escape (x :: (r ++ d :: u)) = (a, t ++ d :: u) ∧
      (IsOpenEscape x r t → isSpace d = false)) ∨
      (escape (x :: (r ++ d :: u))).2 <:+ u := by
  by_cases hx : isHexDigit x
  swap
  · rw [Bool.not_eq_true] at hx
    refine .inl ⟨x, r, escapesTo_of_not_hex hx r, escape_of_not_hex hx _, ?_⟩
    rintro ⟨-, hhex⟩
    simp [hx] at hhex
  rcases Nat.lt_or_eq_of_le (length_takeWhile_take_le (p := isHexDigit) 5 r) with hlt | heq
  · obtain ⟨a, t, hto, hclosed⟩ := escapesTo_of_lt hx hlt
    exact .inl ⟨a, t, hto, hto.read _ fun h => absurd h hclosed, fun h => absurd h hclosed⟩
  have htake : (r.take 5).takeWhile isHexDigit = r :=
    ((List.takeWhile_prefix _).trans (List.take_prefix _ _)).eq_of_length heq
  rcases takeWhile_take_append_or isHexDigit 5 r d u with hsame | hmore
  · have hd : escape (x :: (r ++ d :: u)) =
        (scalar (numberOf 16 (x :: r)), dropSpace (d :: u)) := by
      rw [escape_of_hex hx, hsame, htake, List.drop_left]
    by_cases hspace : isSpace d
    · right
      rw [hd, dropSpace, if_pos hspace]
    · rw [Bool.not_eq_true] at hspace
      refine .inl ⟨_, _, escapesTo_of_all hx htake, ?_, fun _ => hspace⟩
      rw [hd, dropSpace, if_neg (by simp [hspace]), List.nil_append]
  · right
    rw [escape_of_hex hx]
    refine (dropSpace_suffix _).trans (List.suffix_of_suffix_length_le (List.drop_suffix _ _)
      ((List.suffix_cons d u).trans (List.suffix_append r _)) ?_)
    rw [List.length_drop, List.length_append, List.length_cons]
    omega

/-! ## Names -/

/-- Whether the last escape of a name is by number and takes the white space that comes after it. -/
def endsOpen (s : List Char) : Bool :=
  match s with
  | [] => false
  | c :: r =>
    if c = '\\' then
      have := (escape_suffix r).length_le
      ((escape r).2.isEmpty && !r.isEmpty && r.all isHexDigit) || endsOpen (escape r).2
    else endsOpen r
termination_by s.length
decreasing_by all_goals simp only [List.length_cons]; omega

theorem endsOpen_cons (h : c ≠ '\\') (r : List Char) : endsOpen (c :: r) = endsOpen r := by
  rw [endsOpen, if_neg h]

theorem endsOpen_append (h : ∀ c ∈ p, c ≠ '\\') (r : List Char) :
    endsOpen (p ++ r) = endsOpen r := by
  induction p with
  | nil => rfl
  | cons c p ih =>
    rw [List.cons_append, endsOpen_cons (h c List.mem_cons_self),
      ih fun x hx => h x (List.mem_cons_of_mem c hx)]

theorem name_of_isNameChar (hc : isNameChar c) (r : List Char) :
    name (c :: r) = (c :: (name r).1, (name r).2) := by
  rw [name, if_pos hc]

theorem name_of_escape {x : Char} (hx : x ≠ '\n') (r : List Char) :
    name ('\\' :: x :: r) =
      ((escape (x :: r)).1 :: (name (escape (x :: r)).2).1, (name (escape (x :: r)).2).2) := by
  rw [name, if_neg (by decide), if_pos ⟨rfl, by rw [escapes_cons, bne_iff_ne]; exact hx⟩]

theorem not_suffix_self (h : d :: u <:+ u) : False := by
  have := h.length_le
  rw [List.length_cons] at this
  omega

theorem isNameChar_of_head? (h : continuesName y = false) :
    ∀ e ∈ y.head?, isNameChar e = false := by
  intro e he
  obtain ⟨r, rfl⟩ := List.head?_eq_some_iff.1 he
  by_cases hbackslash : e = '\\'
  · subst hbackslash
    rfl
  · rwa [continuesName_cons_of_ne hbackslash] at h

theorem continuesName_of_name {s n : List Char} (h : name s = (n, y)) :
    continuesName y = false := by
  have hend := continuesName_name s
  rwa [h] at hend

theorem name_eq_nil (h : continuesName y = false) : name y = ([], y) :=
  name_append (n := []) (by simp) h

section

variable {x a : Char} {r t : List Char}

theorem endsOpen_of_open (hto : EscapesTo x r a []) (hhex : (x :: r).all isHexDigit) :
    endsOpen ('\\' :: x :: r) := by
  have hself := hto.read [] (by simp)
  rw [List.append_nil, List.append_nil] at hself
  rw [endsOpen, if_pos rfl, hself, hhex]
  rfl

theorem endsOpen_of_not_open (hto : EscapesTo x r a t) (hclosed : ¬ IsOpenEscape x r t) :
    endsOpen ('\\' :: x :: r) = endsOpen t := by
  have hself := hto.read [] (by simp)
  rw [List.append_nil, List.append_nil] at hself
  have hopen : (t.isEmpty && !(x :: r).isEmpty && (x :: r).all isHexDigit) = false := by
    rw [Bool.eq_false_iff]
    intro hopen
    simp only [Bool.and_eq_true, List.isEmpty_iff] at hopen
    exact hclosed ⟨hopen.1.1, hopen.2⟩
  rw [endsOpen, if_pos rfl, hself, hopen, Bool.false_or]

/-- A name that is an open escape ends before a text if it does not go on there, and no white space
that the escape would take comes first. -/
theorem name_open_iff (hx : x ≠ '\n') (hto : EscapesTo x r a [])
    (hhex : (x :: r).all isHexDigit) :
    name ('\\' :: x :: (r ++ y)) = ([a], y) ↔
      continuesName y = false ∧ ∀ e ∈ y.head?, isSpace e = false := by
  constructor
  · intro h
    refine ⟨continuesName_of_name h, fun e he => Bool.eq_false_iff.2 fun hspace => ?_⟩
    obtain ⟨y, rfl⟩ := List.head?_eq_some_iff.1 he
    have hsuffix := name_suffix (escape (x :: (r ++ e :: y))).2
    rw [name_of_escape hx] at h
    rw [congrArg Prod.snd h, escape_space hhex (hto.short ⟨rfl, hhex⟩) hspace] at hsuffix
    exact not_suffix_self hsuffix
  · rintro ⟨hcontinues, hspace⟩
    have hread := hto.read y fun _ e he => ⟨?_, hspace e he⟩
    · rw [name_of_escape hx, hread, List.nil_append, name_eq_nil hcontinues]
    · have hnot := isNameChar_of_head? hcontinues e he
      refine Bool.eq_false_iff.2 fun hhex => ?_
      rw [isNameChar_of_isHexDigit hhex] at hnot
      cases hnot

end

/-- A name is read before another text if it ends there. -/
theorem name_append_iff {n : List Char} (h : name (p ++ d :: u) = (n, d :: u)) :
    name (p ++ y) = (n, y) ↔
      continuesName y = false ∧ (endsOpen p → ∀ e ∈ y.head?, isSpace e = false) := by
  induction hlength : p.length using Nat.strongRecOn generalizing p n with
  | ind k ih =>
    subst hlength
    cases p with
    | nil =>
      obtain rfl : [] = n :=
        congrArg Prod.fst ((name_eq_nil (continuesName_of_name h)).symm.trans h)
      refine ⟨fun h => ⟨continuesName_of_name h, fun hopen => ?_⟩, fun h => name_eq_nil h.1⟩
      rw [endsOpen] at hopen
      cases hopen
    | cons c q =>
      rw [List.cons_append] at h ⊢
      by_cases hc : isNameChar c
      · have hne : c ≠ '\\' := by
          rintro rfl
          exact absurd hc (by decide)
        rw [name_of_isNameChar hc, Prod.mk.injEq] at h
        obtain ⟨rfl, hrest⟩ := h
        have ih := ih q.length (Nat.lt_succ_self _) (Prod.ext rfl hrest) rfl
        rw [name_of_isNameChar hc, endsOpen_cons hne]
        refine Iff.trans ?_ ih
        simp only [Prod.ext_iff, List.cons.injEq, true_and]
      by_cases hescapes : c = '\\' ∧ escapes (q ++ d :: u)
      · obtain ⟨rfl, hescapes⟩ := hescapes
        cases q with
        | nil =>
          rw [List.nil_append, escapes_cons, bne_iff_ne] at hescapes
          rw [List.nil_append, name_of_escape hescapes] at h
          have htaken := (name_suffix _).trans (escape_cons_suffix d u)
          rw [congrArg Prod.snd h] at htaken
          exact (not_suffix_self htaken).elim
        | cons x r =>
          rw [List.cons_append, escapes_cons, bne_iff_ne] at hescapes
          rw [List.cons_append, name_of_escape hescapes, Prod.mk.injEq] at h
          obtain ⟨rfl, hrest⟩ := h
          rw [List.cons_append]
          rcases escape_append x r d u with ⟨a, t, hto, hread, -⟩ | htaken
          · rw [hread] at hrest ⊢
            by_cases hopen : IsOpenEscape x r t
            · -- Only here does the escape depend on what comes after it.
              obtain ⟨rfl, hhex⟩ := hopen
              rw [List.nil_append] at hrest ⊢
              have hend := continuesName_name (d :: u)
              rw [hrest] at hend
              rw [name_eq_nil hend, name_open_iff hescapes hto hhex]
              simp only [endsOpen_of_open hto hhex, true_implies]
            · have ih := ih t.length (hto.length_lt _) (Prod.ext rfl hrest) rfl
              rw [name_of_escape hescapes, hto.read y fun h => absurd h hopen,
                endsOpen_of_not_open hto hopen]
              refine Iff.trans ?_ ih
              simp only [Prod.ext_iff, List.cons.injEq, true_and]
          · have htaken := (name_suffix _).trans htaken
            rw [hrest] at htaken
            exact (not_suffix_self htaken).elim
      · rw [name, if_neg hc, if_neg hescapes, Prod.mk.injEq] at h
        have hlength := congrArg List.length h.2
        simp only [List.length_cons, List.length_append] at hlength
        omega

theorem name_backslash_suffix (hd : d ≠ '\n') (u : List Char) :
    (name ('\\' :: d :: u)).2 <:+ u := by
  rw [name_of_escape hd]
  exact (name_suffix _).trans (escape_cons_suffix d u)

theorem not_name_backslash {n : List Char} (h : name ('\\' :: d :: u) = (n, d :: u)) : False := by
  by_cases hd : d = '\n'
  · subst hd
    rw [name, if_neg (by decide), if_neg (by simp [escapes])] at h
    have hlength := congrArg List.length (congrArg Prod.snd h)
    simp only [List.length_cons] at hlength
    omega
  · have htaken := name_backslash_suffix hd u
    rw [h] at htaken
    exact not_suffix_self htaken

theorem continuesName_of_startsAfterHyphen (h : startsAfterHyphen y) : continuesName y := by
  cases y with
  | nil => cases h
  | cons c r =>
    by_cases hbackslash : c = '\\'
    · subst hbackslash
      simpa [startsAfterHyphen, isNameStart, continuesName] using h
    · rw [continuesName_cons_of_ne hbackslash]
      simp only [startsAfterHyphen, hbackslash, Bool.or_eq_true, beq_iff_eq, Bool.and_eq_true,
        false_and, or_false] at h
      rcases h with h | rfl
      · exact isNameChar_of_isNameStart h
      · rfl

theorem startsName_cons_of_ne (hhyphen : c ≠ '-') (hbackslash : c ≠ '\\') (r : List Char) :
    startsName (c :: r) = isNameStart c := by
  simp [startsName]

theorem continuesName_of_startsName (h : startsName y) : continuesName y := by
  cases y with
  | nil => cases h
  | cons c r =>
    by_cases hhyphen : c = '-'
    · subst hhyphen
      rfl
    · by_cases hbackslash : c = '\\'
      · subst hbackslash
        exact h
      · rw [startsName_cons_of_ne hhyphen hbackslash] at h
        rw [continuesName_cons_of_ne hbackslash]
        exact isNameChar_of_isNameStart h

section

variable {n : List Char} (h : name (p ++ d :: u) = (n, d :: u)) (hy : continuesName y = false)

include h

theorem continuesName_append (hcontinues : continuesName (p ++ d :: u)) :
    p ≠ [] ∧ ∀ y, continuesName (p ++ y) := by
  cases p with
  | nil =>
    rw [List.nil_append, continuesName_of_name h] at hcontinues
    cases hcontinues
  | cons c q =>
    refine ⟨by simp, fun y => ?_⟩
    rw [List.cons_append] at hcontinues h ⊢
    by_cases hbackslash : c = '\\'
    · subst hbackslash
      cases q with
      | nil => exact (not_name_backslash h).elim
      | cons x q =>
        rw [continuesName, List.cons_append, escapes_cons] at hcontinues ⊢
        exact hcontinues
    · rwa [continuesName_cons_of_ne hbackslash] at hcontinues ⊢

include hy

/-- Whether a name starts does not depend on what comes after it. -/
theorem startsName_append : startsName (p ++ y) = startsName (p ++ d :: u) := by
  have hd := continuesName_of_name h
  have hnot : ∀ {z : List Char}, continuesName z = false →
      startsName z = false ∧ startsAfterHyphen z = false := by
    intro z hz
    refine ⟨Bool.eq_false_iff.2 fun hs => ?_, Bool.eq_false_iff.2 fun hs => ?_⟩
    · rw [continuesName_of_startsName hs] at hz
      cases hz
    · rw [continuesName_of_startsAfterHyphen hs] at hz
      cases hz
  cases p with
  | nil => rw [List.nil_append, List.nil_append, (hnot hy).1, (hnot hd).1]
  | cons c q =>
    rw [List.cons_append] at h ⊢
    rw [List.cons_append]
    by_cases hbackslash : c = '\\'
    · subst hbackslash
      cases q with
      | nil => exact (not_name_backslash h).elim
      | cons x q => rw [startsName, startsName, List.cons_append, List.cons_append, escapes_cons,
          escapes_cons]
    by_cases hhyphen : c = '-'
    · subst hhyphen
      rw [startsName, startsName]
      cases q with
      | nil => rw [List.nil_append, List.nil_append, (hnot hy).2, (hnot hd).2]
      | cons x q =>
        rw [List.cons_append, List.cons_append, startsAfterHyphen, startsAfterHyphen]
        cases q with
        | cons e q => rw [List.cons_append, List.cons_append, escapes_cons, escapes_cons]
        | nil =>
          by_cases hx : x = '\\'
          · subst hx
            rw [name_of_isNameChar (by decide), Prod.mk.injEq] at h
            exact (not_name_backslash (Prod.ext rfl h.2)).elim
          · rw [beq_eq_false_iff_ne.2 hx, Bool.false_and, Bool.false_and]
    · rw [startsName_cons_of_ne hhyphen hbackslash, startsName_cons_of_ne hhyphen hbackslash]

end

/-! ## Numerals -/

/-- Whether a text starts with a point and a digit. -/
def startsPoint : List Char → Bool
  | '.' :: r => Numeral.startsDigit r
  | _ => false

/-- Whether a text starts with a plus sign and a digit. -/
def startsPlus : List Char → Bool
  | '+' :: r => Numeral.startsDigit r
  | _ => false

theorem isDigit_of_head? (h : Numeral.startsDigit y = false) :
    ∀ e ∈ y.head?, e.isDigit = false := by
  intro e he
  obtain ⟨r, rfl⟩ := List.head?_eq_some_iff.1 he
  exact h

theorem takeWhile_ne_nil (h : Numeral.startsDigit y) : y.takeWhile Char.isDigit ≠ [] := by
  cases y with
  | nil => cases h
  | cons c r =>
    have hc : c.isDigit := h
    simp [hc]

theorem startsDigit_dropWhile (s : List Char) :
    Numeral.startsDigit (s.dropWhile Char.isDigit) = false := by
  have hhead := List.head?_dropWhile_not Char.isDigit s
  cases hs : s.dropWhile Char.isDigit with
  | nil => rfl
  | cons c r =>
    rw [hs] at hhead
    simpa [Numeral.startsDigit] using hhead

/-- A numeral takes all digits. -/
theorem startsDigit_read (s : List Char) : Numeral.startsDigit (Numeral.read s).2 = false := by
  have hfraction : ∀ t : List Char, Numeral.startsDigit t = false →
      Numeral.startsDigit (Numeral.readFraction t).2 = false := by
    intro t ht
    unfold Numeral.readFraction
    split
    · split_ifs
      · exact startsDigit_dropWhile _
      · rfl
    · exact ht
  have hexponent : ∀ t : List Char, Numeral.startsDigit t = false →
      Numeral.startsDigit (Numeral.readExponent t).2 = false := by
    intro t ht
    unfold Numeral.readExponent
    split
    · dsimp only
      split_ifs
      · exact startsDigit_dropWhile _
      · exact ht
      · exact ht
    · rfl
  exact hexponent _ (hfraction _ (startsDigit_dropWhile _))

/-- Whether a numeral starts a text shows in the numeral. -/
theorem starts_eq (s : List Char) :
    Numeral.starts s =
      (!(Numeral.read s).1.whole.isEmpty || (Numeral.read s).1.fraction.isSome) := by
  rw [Numeral.starts, Numeral.read]
  dsimp only
  generalize (Numeral.readSign s).2 = t
  unfold Numeral.startsUnsigned
  split
  · rename_i r
    have hpoint : ('.' :: r).dropWhile Char.isDigit = '.' :: r :=
      List.dropWhile_cons_of_neg (by decide)
    rw [hpoint, Numeral.readFraction, List.takeWhile_cons_of_neg (by decide)]
    split_ifs with hdigit
    · simp [hdigit]
    · simpa using hdigit
  · rename_i hpoint
    cases t with
    | nil => rfl
    | cons c r =>
      cases hdigit : c.isDigit with
      | true => simp [Numeral.startsDigit, hdigit]
      | false =>
        simp [Numeral.startsDigit, hdigit, Numeral.readFraction]

theorem readFraction_eq_none_iff {s : List Char} :
    (Numeral.readFraction s).1 = none ↔ startsPoint s = false := by
  unfold Numeral.readFraction startsPoint
  split
  · split_ifs with hdigit <;> simp [hdigit]
  · simp

theorem readFraction_of_none {s : List Char} (h : (Numeral.readFraction s).1 = none) :
    Numeral.readFraction s = (none, s) := by
  have htext := Numeral.text_readFraction s
  rw [h] at htext
  exact Prod.ext h htext

theorem readExponent_of_none {s : List Char} (h : (Numeral.readExponent s).1 = none) :
    Numeral.readExponent s = (none, s) := by
  have htext := Numeral.text_readExponent s
  rw [h] at htext
  exact Prod.ext h htext

/-- An exponent that is read has digits. -/
theorem text_ne_nil_of_readExponent {s : List Char} {e : Exponent}
    (h : (Numeral.readExponent s).1 = some e) : e.sign.toList ++ e.digits ≠ [] := by
  unfold Numeral.readExponent at h
  split at h
  · dsimp only at h
    split_ifs at h with _ hdigit
    · obtain rfl := Option.some.inj h
      exact fun hnil => takeWhile_ne_nil hdigit (List.append_eq_nil_iff.1 hnil).2
  · cases h

theorem readSign_append (c : Char) (s : List Char) :
    ∃ sign q, ∀ v : List Char, Numeral.readSign (c :: s ++ v) = (sign, q ++ v) := by
  by_cases hplus : c = '+'
  · exact ⟨some '+', s, fun v => by rw [hplus]; rfl⟩
  · by_cases hminus : c = '-'
    · exact ⟨some '-', s, fun v => by rw [hminus]; rfl⟩
    · exact ⟨none, c :: s, fun v => by simp [Numeral.readSign, hplus, hminus]⟩

section

variable {z w s t : List Char} (hz : Numeral.startsDigit z = false)
  (hw : Numeral.startsDigit w = false)

include hz hw

theorem startsDigit_append (s : List Char) :
    Numeral.startsDigit (s ++ w) = Numeral.startsDigit (s ++ z) := by
  cases s with
  | nil => rw [List.nil_append, List.nil_append, hz, hw]
  | cons c s => rfl

theorem startsPoint_append (hpoint : startsPoint z = false → startsPoint w = false)
    (h : startsPoint (s ++ z) = false) : startsPoint (s ++ w) = false := by
  cases s with
  | nil => exact hpoint h
  | cons c s =>
    by_cases hc : c = '.'
    · subst hc
      exact (startsDigit_append hz hw s).trans h
    · simp [startsPoint, hc]

theorem readFraction_append (hpoint : startsPoint z = false → startsPoint w = false)
    {fraction : Option (List Char)} (h : Numeral.readFraction (s ++ z) = (fraction, t ++ z)) :
    Numeral.readFraction (s ++ w) = (fraction, t ++ w) := by
  have htext := Numeral.text_readFraction (s ++ z)
  rw [h] at htext
  cases fraction with
  | none =>
    obtain rfl : t = s := List.append_cancel_right htext
    have hnone := readFraction_eq_none_iff.1 (congrArg Prod.fst h)
    exact readFraction_of_none
      (readFraction_eq_none_iff.2 (startsPoint_append hz hw hpoint hnone))
  | some digits =>
    obtain rfl : '.' :: (digits ++ t) = s := List.append_cancel_right (by simpa using htext)
    rw [List.cons_append, Numeral.readFraction] at h ⊢
    rw [startsDigit_append hz hw]
    obtain ⟨htake, hdrop⟩ := takeWhile_append_of_head? (isDigit_of_head? hz) (digits ++ t)
    obtain ⟨htake', hdrop'⟩ := takeWhile_append_of_head? (isDigit_of_head? hw) (digits ++ t)
    rw [htake, hdrop] at h
    rw [htake', hdrop']
    split_ifs at h ⊢
    · rw [Prod.mk.injEq] at h
      rw [h.1, List.append_cancel_right h.2]
    · cases congrArg Prod.fst h

theorem readExponent_append
    (hexponent : (Numeral.readExponent z).1 = none → (Numeral.readExponent w).1 = none)
    {exponent : Option Exponent} (h : Numeral.readExponent (s ++ z) = (exponent, z)) :
    Numeral.readExponent (s ++ w) = (exponent, w) := by
  have htext := Numeral.text_readExponent (s ++ z)
  rw [h] at htext
  cases exponent with
  | none =>
    obtain rfl : [] = s := List.append_cancel_right htext
    exact readExponent_of_none (hexponent (congrArg Prod.fst h))
  | some e =>
    obtain rfl : e.text = s := List.append_cancel_right htext
    have hq := text_ne_nil_of_readExponent (congrArg Prod.fst h)
    obtain ⟨k, q, hk⟩ := List.exists_cons_of_ne_nil hq
    obtain ⟨sign, v, hv⟩ := readSign_append k q
    rw [Exponent.text, List.cons_append, hk, List.cons_append, Numeral.readExponent, hv] at h ⊢
    dsimp only at h ⊢
    rw [startsDigit_append hz hw]
    obtain ⟨htake, hdrop⟩ := takeWhile_append_of_head? (isDigit_of_head? hz) v
    obtain ⟨htake', hdrop'⟩ := takeWhile_append_of_head? (isDigit_of_head? hw) v
    rw [htake, hdrop] at h
    rw [htake', hdrop']
    split_ifs at h ⊢
    · rw [Prod.mk.injEq] at h
      have hnil : v.dropWhile Char.isDigit = [] := List.append_left_eq_self.1 h.2
      rw [h.1, hnil, List.nil_append]
    · cases congrArg Prod.fst h
    · cases congrArg Prod.fst h

/-- A numeral is read before another text if no digits, no fraction and no exponent go on there. -/
theorem read_append (hpoint : startsPoint z = false → startsPoint w = false)
    (hexponent : (Numeral.readExponent z).1 = none → (Numeral.readExponent w).1 = none)
    {n : Numeral} (h : Numeral.read (c :: s ++ z) = (n, z)) :
    Numeral.read (c :: s ++ w) = (n, w) := by
  obtain ⟨sign, q, hq⟩ := readSign_append c s
  rw [Numeral.read, hq] at h ⊢
  dsimp only at h ⊢
  obtain ⟨htake, hdrop⟩ := takeWhile_append_of_head? (isDigit_of_head? hz) q
  obtain ⟨htake', hdrop'⟩ := takeWhile_append_of_head? (isDigit_of_head? hw) q
  rw [htake, hdrop, Prod.mk.injEq] at h
  rw [htake', hdrop']
  -- What is left of the fraction is the exponent and the rest.
  have hexp := Numeral.text_readExponent (Numeral.readFraction (q.dropWhile Char.isDigit ++ z)).2
  rw [h.2] at hexp
  have hfraction : Numeral.readFraction (q.dropWhile Char.isDigit ++ z) =
      ((Numeral.readFraction (q.dropWhile Char.isDigit ++ z)).1, _ ++ z) := Prod.ext rfl hexp.symm
  have hfraction' := readFraction_append hz hw hpoint hfraction
  have hread := readExponent_append hz hw hexponent
    (Prod.ext (by rw [hexp]) (by rw [hexp]; exact h.2))
  rw [hfraction']
  dsimp only
  rw [hread, h.1]

end

/-! ## Words -/

/-- Whether the readers of words see no difference between two texts that come next. -/
structure SeesSame (x y : List Char) : Prop where
  /-- A name goes on in both or in none. -/
  continues : continuesName y = continuesName x
  /-- A name starts in both or in none. -/
  starts : startsName y = startsName x
  /-- A digit comes first in both or in none. -/
  digit : Numeral.startsDigit y = Numeral.startsDigit x
  /-- A point with a digit comes first in both or in none. -/
  point : startsPoint y = startsPoint x
  /-- A plus sign with a digit comes first in both or in none. -/
  plus : startsPlus y = startsPlus x
  /-- A parenthesis comes first only if it did before. -/
  paren : y.head? = some '(' → x.head? = some '('
  /-- A percent sign comes first only if it did before. -/
  percent : y.head? = some '%' → x.head? = some '%'

/-- Whether white space comes first. -/
def startsSpace (y : List Char) : Bool :=
  y.head?.any isSpace

theorem not_startsSpace_iff : startsSpace y = false ↔ ∀ e ∈ y.head?, isSpace e = false := by
  cases y <;> simp [startsSpace]

theorem SeesSame.refl (x : List Char) : SeesSame x x :=
  ⟨rfl, rfl, rfl, rfl, rfl, id, id⟩

/-- What is read from a name alone is read before another text if the name is. -/
theorem named_append_iff {α : Type} {f : List Char → α} (hf : Function.Injective f) {n : List Char}
    (hname : name (p ++ d :: u) = (n, d :: u)) (hcontinues : continuesName y = false) :
    (f (name (p ++ y)).1, (name (p ++ y)).2) = (f n, y) ↔
      (endsOpen p → startsSpace y = false) := by
  have hiff := name_append_iff (y := y) hname
  rw [not_startsSpace_iff]
  constructor
  · intro heq
    rw [Prod.mk.injEq] at heq
    exact (hiff.1 (Prod.ext (hf heq.1) heq.2)).2
  · intro hspace
    rw [hiff.2 ⟨hcontinues, hspace⟩]

/-- An exponent goes on before another text only if it did before. -/
theorem readExponent_name {n : List Char} (h : name (p ++ d :: u) = (n, d :: u))
    (hsame : SeesSame (d :: u) y) (hp : p ≠ [])
    (hnone : (Numeral.readExponent (p ++ d :: u)).1 = none) :
    (Numeral.readExponent (p ++ y)).1 = none := by
  have hd := continuesName_of_name h
  have hy : continuesName y = false := hsame.continues.trans hd
  have hdigit : ∀ {z : List Char}, continuesName z = false → Numeral.startsDigit z = false := by
    intro z hz
    cases z with
    | nil => rfl
    | cons c r =>
      have hc := isNameChar_of_head? hz c rfl
      simp only [isNameChar, Bool.or_eq_false_iff] at hc
      exact hc.1.2
  obtain ⟨c, q, rfl⟩ := List.exists_cons_of_ne_nil hp
  rw [List.cons_append, Numeral.readExponent] at hnone ⊢
  split_ifs at hnone ⊢ with hletter
  · dsimp only at hnone ⊢
    cases q with
    | nil =>
      -- A sign that comes next is a plus sign, because a hyphen goes on with the name.
      rw [List.nil_append] at hnone ⊢
      have hsign : ∀ {z : List Char}, continuesName z = false →
          Numeral.startsDigit (Numeral.readSign z).2 = startsPlus z := by
        intro z hz
        unfold Numeral.readSign startsPlus
        split
        · rfl
        · cases hz
        · rename_i hplus hminus
          split
          · exact absurd rfl (hplus _)
          · exact hdigit hz
      rw [hsign hd] at hnone
      rw [hsign hy, hsame.plus]
      split_ifs at hnone ⊢
      rfl
    | cons e q =>
      obtain ⟨sign, s, hs⟩ := readSign_append e q
      rw [hs] at hnone ⊢
      dsimp only at hnone ⊢
      rw [startsDigit_append (hdigit hd) (hdigit hy)]
      split_ifs at hnone ⊢
      rfl
  · rfl

theorem ne_backslash_of_mem_numeral {s : List Char} (h : c ∈ (Numeral.read s).1.text) :
    c ≠ '\\' := by
  rintro rfl
  have hneutral := isNeutral_of_mem_numeral h
  revert hneutral
  decide

theorem readExponent_of_not_startsName (h : startsName y = false) :
    (Numeral.readExponent y).1 = none := by
  cases y with
  | nil => rfl
  | cons c r =>
    rw [Numeral.readExponent]
    split_ifs with hletter
    · have hstart : isNameStart c := by rcases hletter with rfl | rfl <;> rfl
      have hhyphen : c ≠ '-' := by rcases hletter with rfl | rfl <;> decide
      have hbackslash : c ≠ '\\' := by rcases hletter with rfl | rfl <;> decide
      rw [startsName_cons_of_ne hhyphen hbackslash, hstart] at h
      cases h
    · rfl

/-- Whether the front of a text is a numeral, with `s` left of the text, before what comes next and
before every text that does not go on with it. -/
structure FrontNumeral (text s next : List Char) (n : Numeral) : Prop where
  /-- The numeral is written at the front. -/
  text_eq : text = n.text ++ s
  /-- It is read before what comes next. -/
  read : Numeral.read (text ++ next) = (n, s ++ next)
  /-- It is read before other texts. -/
  other : ∀ y, Numeral.startsDigit (s ++ y) = false →
    (startsPoint (s ++ next) = false → startsPoint (s ++ y) = false) →
    ((Numeral.readExponent (s ++ next)).1 = none → (Numeral.readExponent (s ++ y)).1 = none) →
    Numeral.starts (text ++ y) ∧ Numeral.read (text ++ y) = (n, s ++ y)

/-- A number has a numeral at its front. -/
theorem exists_frontNumeral {q : List Char} {t : Token}
    (h : numberToken (c :: q ++ d :: u) = (t, d :: u))
    (hstarts : Numeral.starts (c :: q ++ d :: u)) :
    ∃ n s, FrontNumeral (c :: q) s (d :: u) n := by
  obtain ⟨n, rest, hread⟩ : ∃ n rest, Numeral.read (c :: q ++ d :: u) = (n, rest) := ⟨_, _, rfl⟩
  have htext := Numeral.text_read (c :: q ++ d :: u)
  have hne := Numeral.text_ne_nil hstarts
  have hdigit := startsDigit_read (c :: q ++ d :: u)
  have hsuffix := numberToken_suffix (c :: q ++ d :: u)
  rw [hread] at htext hne hdigit
  rw [h, hread] at hsuffix
  obtain ⟨s, rfl⟩ := hsuffix
  have hp : c :: q = n.text ++ s := by
    apply (List.append_left_inj (d :: u)).1
    rw [List.append_assoc]
    exact htext.symm
  obtain ⟨e, m, hm⟩ := List.exists_cons_of_ne_nil hne
  dsimp only at hm hread hdigit
  have hparts : ∀ z, c :: q ++ z = e :: m ++ (s ++ z) := fun z => by
    rw [hp, hm, List.append_assoc]
  refine ⟨n, s, hp, hread, fun y hdigit' hpoint hexponent => ?_⟩
  rw [hparts] at hread
  have hread' := read_append hdigit hdigit' hpoint hexponent hread
  rw [← hparts] at hread hread'
  refine ⟨?_, hread'⟩
  rw [starts_eq, hread']
  rwa [starts_eq, hread] at hstarts

namespace FrontNumeral

variable {text s : List Char} {n : Numeral} {t : Token}

theorem startsDigit_eq {next : List Char} (hfront : FrontNumeral text s next n) :
    Numeral.startsDigit (s ++ next) = false := by
  have hdigit := startsDigit_read (text ++ next)
  rwa [hfront.read] at hdigit

theorem endsOpen_eq {next : List Char} (hfront : FrontNumeral text s next n) :
    endsOpen text = endsOpen s := by
  rw [hfront.text_eq]
  refine endsOpen_append (fun e he => ?_) s
  have hread := congrArg Prod.fst hfront.read
  exact ne_backslash_of_mem_numeral (s := text ++ next) (by rwa [hread])

/-- A number without a unit is read before another text. -/
theorem number_append (hfront : FrontNumeral text [] (d :: u) n)
    (h : numberToken (text ++ d :: u) = (t, d :: u)) (hsame : SeesSame (d :: u) y) :
    Numeral.starts (text ++ y) ∧ numberToken (text ++ y) = (t, y) ∧
      ¬ ∃ v unit, t = .dimension v unit := by
  have hdigit := hfront.startsDigit_eq
  rw [numberToken, hfront.read] at h
  rw [List.nil_append] at h hdigit
  dsimp only at h
  split_ifs at h with hunit
  · -- Nothing is left of the number for a unit.
    rw [Prod.mk.injEq] at h
    have hend := continuesName_name (d :: u)
    rw [h.2, continuesName_of_startsName hunit] at hend
    cases hend
  rw [Bool.not_eq_true] at hunit
  have hunit' : startsName y = false := hsame.starts.trans hunit
  obtain ⟨hstarts, hread⟩ := hfront.other y (hsame.digit.trans hdigit)
    (fun hpoint => hsame.point.trans hpoint) fun _ => readExponent_of_not_startsName hunit'
  refine ⟨hstarts, ?_⟩
  rw [numberToken, hread]
  simp only [List.nil_append, hunit', Bool.false_eq_true, if_false]
  split at h
  · rename_i heq
    rw [(Prod.mk.inj h).2] at heq
    exact (not_suffix_self ⟨[], heq.symm⟩).elim
  · rename_i hpercent
    rw [Prod.mk.injEq] at h
    obtain ⟨rfl, -⟩ := h
    refine ⟨?_, by simp⟩
    split
    · have hhead := hsame.percent rfl
      rw [List.head?_cons, Option.some.injEq] at hhead
      exact absurd (by rw [hhead]) (hpercent u)
    · rfl

/-- A number with a unit is read before another text if the unit is. -/
theorem dimension_append_iff (hfront : FrontNumeral text s (d :: u) n) (hs : s ≠ [])
    (hunit : startsName (s ++ d :: u)) (h : numberToken (text ++ d :: u) = (t, d :: u))
    (hsame : SeesSame (d :: u) y) :
    Numeral.starts (text ++ y) ∧
      (numberToken (text ++ y) = (t, y) ↔ (endsOpen text → startsSpace y = false)) ∧
      ∃ v unit, t = .dimension v unit := by
  rw [numberToken, hfront.read] at h
  dsimp only at h
  rw [if_pos hunit] at h
  obtain ⟨m, hname⟩ : ∃ m, name (s ++ d :: u) = (m, d :: u) := ⟨_, Prod.ext rfl (Prod.mk.inj h).2⟩
  rw [hname, Prod.mk.injEq] at h
  have hcontinues : continuesName y = false :=
    hsame.continues.trans (continuesName_of_name hname)
  obtain ⟨k, ks, rfl⟩ := List.exists_cons_of_ne_nil hs
  have hpoint : startsPoint (k :: ks ++ y) = false := by
    have hk : k ≠ '.' := by
      rintro rfl
      rw [List.cons_append, startsName_cons_of_ne (by decide) (by decide)] at hunit
      exact absurd hunit (by decide)
    simp [startsPoint, hk]
  obtain ⟨hstarts, hread⟩ := hfront.other y hfront.startsDigit_eq (fun _ => hpoint)
    (readExponent_name hname hsame (by simp))
  have hunit' : startsName (k :: ks ++ y) := (startsName_append hname hcontinues).trans hunit
  have hf : Function.Injective fun m => Token.dimension n.value (String.ofList m) := fun a b h =>
    String.ofList_inj.1 (Token.dimension.inj h).2
  refine ⟨hstarts, ?_, ⟨_, _, h.1.symm⟩⟩
  rw [numberToken, hread]
  dsimp only
  rw [if_pos hunit', ← h.1, hfront.endsOpen_eq]
  exact named_append_iff hf hname hcontinues

/-- A percentage is read before any text. -/
theorem percentage_append (hfront : FrontNumeral text s (d :: u) n) (hs : s ≠ [])
    (hunit : startsName (s ++ d :: u) = false) (h : numberToken (text ++ d :: u) = (t, d :: u))
    (y : List Char) :
    Numeral.starts (text ++ y) ∧ numberToken (text ++ y) = (t, y) ∧
      ¬ ∃ v unit, t = .dimension v unit := by
  rw [numberToken, hfront.read] at h
  dsimp only at h
  rw [if_neg (by simp [hunit])] at h
  obtain ⟨k, ks, rfl⟩ := List.exists_cons_of_ne_nil hs
  rw [List.cons_append] at h
  by_cases hk : k = '%'
  · subst hk
    rw [Prod.mk.injEq] at h
    obtain ⟨rfl, hks⟩ := h
    obtain rfl : ks = [] := List.append_left_eq_self.1 hks
    obtain ⟨hstarts, hread⟩ := hfront.other y rfl (fun _ => rfl) (fun _ => rfl)
    refine ⟨hstarts, ?_, by simp⟩
    rw [numberToken, hread]
    rfl
  · exfalso
    split at h
    · rename_i heq
      exact hk (List.cons.inj heq).1
    · exact List.cons_ne_nil k ks (List.append_left_eq_self.1 (Prod.mk.inj h).2)

end FrontNumeral

/-- A number is read before another text in which the readers see no difference, unless the escape
that ends its unit takes white space there. -/
theorem numberToken_append_iff {q : List Char} {t : Token}
    (h : numberToken (c :: q ++ d :: u) = (t, d :: u))
    (hstarts : Numeral.starts (c :: q ++ d :: u)) (hsame : SeesSame (d :: u) y) :
    Numeral.starts (c :: q ++ y) ∧
      (numberToken (c :: q ++ y) = (t, y) ↔
        ((∃ v unit, t = .dimension v unit) → endsOpen (c :: q) → startsSpace y = false)) := by
  obtain ⟨n, s, hfront⟩ := exists_frontNumeral h hstarts
  by_cases hs : s = []
  · subst hs
    obtain ⟨hstarts', hread, hno⟩ := hfront.number_append h hsame
    exact ⟨hstarts', iff_of_true hread fun hunit => absurd hunit hno⟩
  cases hunit : startsName (s ++ d :: u) with
  | true =>
    obtain ⟨hstarts', hiff, hunit⟩ := hfront.dimension_append_iff hs hunit h hsame
    exact ⟨hstarts', hiff.trans ⟨fun h _ => h, fun h => h hunit⟩⟩
  | false =>
    obtain ⟨hstarts', hread, hno⟩ := hfront.percentage_append hs hunit h y
    exact ⟨hstarts', iff_of_true hread fun hunit => absurd hunit hno⟩

end Lexer

end Restyle.Css
