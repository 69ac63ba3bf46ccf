import Restyle.Proofs.Selector.Entries
import Restyle.Proofs.Selector.SingleCompound
import Restyle.Proofs.Text.Letters
import Restyle.Proofs.Text.Runs

/-!
# Groups of a selector

What a selector is read from closes the groups that it opens, and ends outside of strings. A
parenthesis opens one only for a negation, after the `t` of its name. `IsBalanced` says both of a
text, and a text that reads as a selector is balanced (`isBalanced_of_complex`). So a text whose
first entry goes on past a parenthesis of another kind is malformed, and one that keeps together is
read as one selector at most (`parse_of_keepsTogether`).
-/

namespace Restyle.Selector

open Text Css Css.Lexer

namespace EntryState

/-- Whether the next character is told apart from others: it stands neither in a string nor after a
backslash. -/
def isBare (st : EntryState) : Bool :=
  !st.isEscaped && st.quote.isNone

/-- The state after a text, with the last character. There is none if a parenthesis opens a group
and no `t` stands before it. -/
def opened (p : Option Char × EntryState) (cs : List Char) : Option (Option Char × EntryState) :=
  cs.foldlM
    (fun p c =>
      if c = '(' ∧ p.2.isBare ∧ p.1.all (·.toLower ≠ 't') then none
      else some (some c, p.2.next c)) p

/-- Whether a text leads from one state to another, and opens groups with parentheses after a `t`
only. -/
def Leads (st : EntryState) (cs : List Char) (st' : EntryState) : Prop :=
  ∀ before, opened (before, st) cs = some (cs.getLast?.or before, st')

variable {st st' st'' : EntryState} {c : Char} {cs as bs r : List Char} {d : Nat}

theorem opened_cons (before : Option Char) :
    opened (before, st) (c :: r) =
      if c = '(' ∧ st.isBare ∧ before.all (·.toLower ≠ 't') then none
      else opened (some c, st.next c) r := by
  rw [opened, List.foldlM_cons]
  split_ifs <;> rfl

theorem opened_append (p : Option Char × EntryState) :
    opened p (as ++ bs) = (opened p as).bind (opened · bs) :=
  List.foldlM_append

namespace Leads

theorem nil : Leads st [] st :=
  fun _ => rfl

theorem cons (hc : c ≠ '(' ∨ st.isBare = false) (h : Leads (st.next c) r st') :
    Leads st (c :: r) st' := by
  intro before
  have hnot : ¬(c = '(' ∧ st.isBare ∧ before.all (·.toLower ≠ 't')) := by
    rintro ⟨hopen, hbare, -⟩
    rcases hc with hc | hc
    · exact hc hopen
    · rw [hc] at hbare
      cases hbare
  rw [opened_cons, if_neg hnot, h, List.getLast?_cons]
  cases r.getLast? <;> rfl

theorem append (ha : Leads st as st') (hb : Leads st' bs st'') : Leads st (as ++ bs) st'' := by
  intro before
  rw [opened_append, ha, Option.bind_some, hb, List.getLast?_append, Option.or_assoc]

/-- A parenthesis after a `t` opens a group. -/
theorem paren (h : Leads st as (level d)) (hlast : as.getLast? = some c) (hc : c.toLower = 't') :
    Leads st (as ++ ['(']) (level (d + 1)) := by
  intro before
  rw [opened_append, h, hlast, Option.bind_some, opened_cons, if_neg]
  · simp [opened, next]
  · simp [hc]

end Leads

end EntryState

open EntryState

/-! ## Balanced texts -/

/-- Whether a text leaves the state as it is outside of strings, and opens groups with parentheses
after a `t` only. -/
def IsBalanced (cs : List Char) : Prop :=
  ∀ d, Leads (level d) cs (level d)

namespace IsBalanced

variable {c : Char} {as bs cs : List Char}

theorem nil : IsBalanced [] :=
  fun _ => .nil

theorem append (ha : IsBalanced as) (hb : IsBalanced bs) : IsBalanced (as ++ bs) :=
  fun d => (ha d).append (hb d)

theorem cons (hc : isNeutral c) (h : IsBalanced cs) : IsBalanced (c :: cs) := by
  have hne := ne_of_isNeutral hc
  intro d
  refine .cons (.inl hne.2.2.2.1) ?_
  rw [show (level d).next c = level d by simp [next, hne]]
  exact h d

theorem of_isNeutral (h : ∀ c ∈ cs, isNeutral c) : IsBalanced cs := by
  induction cs with
  | nil => exact .nil
  | cons c cs ih =>
    rw [List.forall_mem_cons] at h
    exact (ih h.2).cons h.1

theorem comma (h : IsBalanced cs) : IsBalanced (',' :: cs) :=
  fun d => .cons (.inl (by decide)) (h d)

theorem escape (c : Char) (h : IsBalanced cs) : IsBalanced ('\\' :: c :: cs) :=
  fun d => .cons (.inl (by decide)) (.cons (.inr rfl) (h d))

theorem bracket (h : IsBalanced cs) : IsBalanced ('[' :: (cs ++ [']'])) := by
  intro d
  have hclose : Leads (level (d + 1)) [']'] (level d) := .cons (.inl (by decide)) .nil
  exact .cons (.inl (by decide)) ((h (d + 1)).append hclose)

theorem negation (ha : IsBalanced as) (hlast : as.getLast? = some c) (hc : c.toLower = 't')
    (hb : IsBalanced bs) : IsBalanced (as ++ '(' :: (bs ++ [')'])) := by
  intro d
  have hopen := (ha d).paren hlast hc
  have hclose : Leads (level (d + 1)) (bs ++ [')']) (level d) :=
    (hb (d + 1)).append (.cons (.inl (by decide)) .nil)
  simpa using hopen.append hclose

end IsBalanced

/-- Whether a reader takes a balanced text off the front. -/
def Takes (s rest : List Char) : Prop :=
  ∃ p, s = p ++ rest ∧ IsBalanced p

namespace Takes

variable {s r rest : List Char} {c : Char}

theorem refl (s : List Char) : Takes s s :=
  ⟨[], rfl, .nil⟩

theorem trans (h : Takes s r) (h' : Takes r rest) : Takes s rest := by
  obtain ⟨p, rfl, hp⟩ := h
  obtain ⟨q, rfl, hq⟩ := h'
  exact ⟨p ++ q, (List.append_assoc _ _ _).symm, hp.append hq⟩

theorem cons (hc : isNeutral c) (h : Takes s rest) : Takes (c :: s) rest := by
  obtain ⟨p, rfl, hp⟩ := h
  exact ⟨c :: p, rfl, hp.cons hc⟩

theorem skipSpace (s : List Char) : Takes s (skipSpace s) := by
  refine ⟨s.takeWhile isSpace, List.takeWhile_append_dropWhile.symm, .of_isNeutral fun c hc => ?_⟩
  exact isNeutral_of_isSpace (List.all_eq_true.1 List.all_takeWhile c hc)

/-- A reader that takes a balanced text in brackets takes a balanced text. -/
theorem bracket (h : Takes s (']' :: rest)) : Takes ('[' :: s) rest := by
  obtain ⟨p, rfl, hp⟩ := h
  exact ⟨'[' :: (p ++ [']']), by simp, hp.bracket⟩

end Takes

/-! ## Names and strings -/

section

variable {size : Nat} {s rest : List Char}

theorem takes_nameChars {n : List Char} (h : nameChars s = .ok (n, rest)) :
    ∃ p, s = p ++ rest ∧ IsBalanced p ∧ p.getLast? = n.getLast? := by
  fun_induction nameChars s generalizing n rest with
  | case1 =>
    cases h
    exact ⟨[], rfl, .nil, rfl⟩
  | case2 => cases h
  | case3 c r ih =>
    obtain ⟨⟨n, rest⟩, hr, h⟩ := exists_of_bind_eq_ok h
    cases h
    obtain ⟨p, rfl, hp, hlast⟩ := ih hr
    exact ⟨'\\' :: c :: p, rfl, hp.escape c, by simp [List.getLast?_cons, hlast]⟩
  | case4 c r _ _ hc ih =>
    obtain ⟨⟨n, rest⟩, hr, h⟩ := exists_of_bind_eq_ok h
    cases h
    obtain ⟨p, rfl, hp, hlast⟩ := ih hr
    exact ⟨c :: p, rfl, hp.cons (isNeutral_of_isNameChar hc),
      by simp [List.getLast?_cons, hlast]⟩
  | case5 =>
    cases h
    exact ⟨[], rfl, .nil, rfl⟩

theorem takes_name {n : String} (h : name size s = .ok (n, rest)) :
    ∃ p, s = p ++ rest ∧ IsBalanced p ∧ p.getLast? = n.toList.getLast? := by
  obtain ⟨⟨cs, r⟩, hr, h⟩ := exists_of_bind_eq_ok h
  dsimp only at h
  split_ifs at h
  cases h
  rw [String.toList_ofList]
  exact takes_nameChars hr

theorem takes_ident {n : String} (h : ident size s = .ok (n, rest)) :
    ∃ p, s = p ++ rest ∧ IsBalanced p ∧ p.getLast? = n.toList.getLast? := by
  unfold ident at h
  split_ifs at h
  obtain ⟨⟨n, r⟩, hr, h⟩ := exists_of_bind_eq_ok h
  dsimp only at h
  split_ifs at h
  cases h
  exact takes_name hr

theorem Takes.name {n : String} (h : Selector.name size s = .ok (n, rest)) : Takes s rest := by
  obtain ⟨p, hs, hp, -⟩ := takes_name h
  exact ⟨p, hs, hp⟩

theorem Takes.ident {n : String} (h : Selector.ident size s = .ok (n, rest)) : Takes s rest := by
  obtain ⟨p, hs, hp, -⟩ := takes_ident h
  exact ⟨p, hs, hp⟩

/-- A string up to its closing quote ends outside of strings. -/
theorem leads_stringChars {quote : Char} (hquote : quote = '"' ∨ quote = '\'') {v : List Char}
    (h : stringChars quote s = .ok (v, rest)) :
    ∃ p, s = p ++ rest ∧ ∀ d, Leads ⟨d, some quote, false⟩ p (level d) := by
  have hslash : quote ≠ '\\' := by
    rcases hquote with rfl | rfl <;> decide
  fun_induction stringChars quote s generalizing v rest with
  | case1 => cases h
  | case2 => cases h
  | case3 c r ih =>
    obtain ⟨⟨v, rest⟩, hr, h⟩ := exists_of_bind_eq_ok h
    cases h
    obtain ⟨p, rfl, hp⟩ := ih hr
    exact ⟨'\\' :: c :: p, rfl, fun d => .cons (.inr rfl) (.cons (.inr rfl) (hp d))⟩
  | case4 =>
    cases h
    refine ⟨[quote], rfl, fun d => .cons (.inr rfl) ?_⟩
    rw [next_quote hslash]
    exact .nil
  | case5 c r hnil hescape hc ih =>
    obtain ⟨⟨v, rest⟩, hr, h⟩ := exists_of_bind_eq_ok h
    cases h
    obtain ⟨p, rfl, hp⟩ := ih hr
    refine ⟨c :: p, rfl, fun d => .cons (.inr rfl) ?_⟩
    have hback : c ≠ '\\' := by
      rintro rfl
      cases hcase : p ++ rest with
      | nil => exact hnil rfl hcase
      | cons x r => exact hescape x r rfl hcase
    rw [next_of_quoted hback hc]
    exact hp d

/-! ## Attributes -/

theorem expect_eq_ok {c : Char} (h : expect size c s = .ok rest) : s = c :: rest := by
  unfold expect at h
  split at h
  · split_ifs at h with hc
    cases h
    rw [hc]
  · cases h

theorem Takes.operator {op : AttributeOperator} (h : Selector.operator size s = .ok (op, rest)) :
    Takes s rest := by
  unfold Selector.operator at h
  split at h
  · cases h
    exact .refl _
  · cases h
    exact (Takes.refl _).cons (by decide)
  all_goals
    first
      | cases h
      | (obtain ⟨r, hr, h⟩ := exists_of_bind_eq_ok h
         cases h
         rw [expect_eq_ok hr]
         exact ((Takes.refl _).cons (by decide)).cons (by decide))

theorem Takes.attributeValue {v : String} (h : Selector.attributeValue size s = .ok (v, rest)) :
    Takes s rest := by
  unfold Selector.attributeValue at h
  split at h
  · rename_i c r
    split_ifs at h with hquote
    · obtain ⟨⟨v, rest⟩, hr, h⟩ := exists_of_bind_eq_ok h
      cases h
      obtain ⟨p, rfl, hp⟩ := leads_stringChars hquote hr
      refine ⟨c :: p, rfl, fun d => .cons (.inl ?_) ?_⟩
      · rcases hquote with rfl | rfl <;> decide
      · rw [show (level d).next c = ⟨d, some c, false⟩ by rcases hquote with rfl | rfl <;> rfl]
        exact hp d
    · exact .ident h
  · exact .ident h

theorem Takes.caseFlag {flag : Bool} (h : Selector.caseFlag size s = .ok (flag, rest)) :
    Takes s rest := by
  unfold Selector.caseFlag at h
  split at h
  case h_5 | h_6 =>
    cases h
    exact .refl _
  case h_7 => cases h
  all_goals
    cases h
    exact (Takes.skipSpace _).cons (by decide)

theorem Takes.attributeTest {test : AttributeTest}
    (h : Selector.attributeTest size s = .ok (test, rest)) : Takes s (']' :: rest) := by
  obtain ⟨⟨n, r₁⟩, h₁, h⟩ := exists_of_bind_eq_ok h
  obtain ⟨⟨op, r₂⟩, h₂, h⟩ := exists_of_bind_eq_ok h
  have hname := (Takes.skipSpace s).trans (.ident h₁)
  have hop := (Takes.skipSpace r₁).trans (.operator h₂)
  dsimp only at h
  split_ifs at h
  · obtain ⟨r₃, h₃, h⟩ := exists_of_bind_eq_ok h
    cases h
    rw [← expect_eq_ok h₃]
    exact hname.trans hop
  · obtain ⟨⟨value, r₃⟩, h₃, h⟩ := exists_of_bind_eq_ok h
    obtain ⟨⟨flag, r₄⟩, h₄, h⟩ := exists_of_bind_eq_ok h
    obtain ⟨r₅, h₅, h⟩ := exists_of_bind_eq_ok h
    cases h
    have hvalue := (Takes.skipSpace r₂).trans (.attributeValue h₃)
    have hflag := (Takes.skipSpace r₃).trans (.caseFlag h₄)
    rw [← expect_eq_ok h₅]
    exact hname.trans (hop.trans (hvalue.trans hflag))

/-! ## Conditions -/

/-- Whether a reader takes a balanced text up to a parenthesis with a `t` before it. -/
def TakesParen (s rest : List Char) : Prop :=
  ∃ p c, s = p ++ '(' :: rest ∧ IsBalanced p ∧ p.getLast? = some c ∧ c.toLower = 't'

theorem TakesParen.cons {c : Char} (hc : isNeutral c) (h : TakesParen s rest) :
    TakesParen (c :: s) rest := by
  obtain ⟨p, t, rfl, hp, hlast, ht⟩ := h
  exact ⟨c :: p, t, rfl, hp.cons hc, by simp [List.getLast?_cons, hlast], ht⟩

/-- A group that a `t` stands before and a balanced text closes is balanced. -/
theorem TakesParen.group {r : List Char} (h : TakesParen s r) (hr : Takes r (')' :: rest)) :
    Takes s rest := by
  obtain ⟨p, c, rfl, hp, hlast, hc⟩ := h
  obtain ⟨q, rfl, hq⟩ := hr
  exact ⟨p ++ '(' :: (q ++ [')']), by simp, hp.negation hlast hc hq⟩

theorem Takes.pseudo {x : Simple} (h : Selector.pseudo size s = .ok (.simple x, rest)) :
    Takes s rest := by
  obtain ⟨n, r, hr, ⟨-, -, h⟩ | ⟨rfl, -, -, -⟩⟩ := pseudo_cases h
  · cases h
  · exact .ident hr

theorem TakesParen.pseudo (h : Selector.pseudo size s = .ok (.negation, rest)) :
    TakesParen s rest := by
  obtain ⟨n, r, hr, ⟨rfl, hnot, -⟩ | ⟨-, _, -, h⟩⟩ := pseudo_cases h
  · obtain ⟨p, hs, hp, hlast⟩ := takes_ident hr
    have hletters := congrArg List.getLast? (congrArg String.toList hnot)
    rw [toList_lower, List.getLast?_map, ← hlast] at hletters
    obtain ⟨c, hc, ht⟩ := Option.map_eq_some_iff.1 hletters
    exact ⟨p, c, hs, hp, hc, ht⟩
  · cases h

theorem Takes.piece {x : Simple} (h : piece? size s = .ok (some (.simple x, rest))) :
    Takes s rest := by
  rcases piece_cases h with ⟨r, rfl, n, hn, -⟩ | ⟨r, rfl, n, hn, -⟩ | ⟨r, rfl, test, ht, -⟩ |
    ⟨r, rfl, hr⟩
  · exact (Takes.ident hn).cons (by decide)
  · exact (Takes.name hn).cons (by decide)
  · exact (Takes.attributeTest ht).bracket
  · exact (Takes.pseudo hr).cons (by decide)

theorem TakesParen.piece (h : piece? size s = .ok (some (.negation, rest))) :
    TakesParen s rest := by
  rcases piece_cases h with ⟨_, -, _, -, h⟩ | ⟨_, -, _, -, h⟩ | ⟨_, -, _, -, h⟩ | ⟨r, rfl, hr⟩
  · cases h
  · cases h
  · cases h
  · exact (TakesParen.pseudo hr).cons (by decide)

theorem Takes.tagPart {tags : List Simple} (h : Selector.tagPart size s = .ok (tags, rest)) :
    Takes s rest := by
  unfold Selector.tagPart at h
  split at h
  · cases h
    exact (Takes.refl _).cons (by decide)
  · split_ifs at h
    · obtain ⟨p, hp, h⟩ := exists_of_bind_eq_ok h
      cases h
      exact .ident hp
    · cases h
      exact .refl _

/-! ## Compounds -/

/-- What a reader leaves that takes a character at least. -/
theorem length_of_shorter {α : Type} {a : α} {x : Except Error (Shorter α s)}
    (h : x.map Subtype.val = .ok (a, rest)) : rest.length < s.length := by
  obtain ⟨p, -, hp⟩ := map_eq_ok h
  have := p.2
  rwa [hp] at this

/-- Where the compounds of a negation come from: a parenthesis ends them after the first one, or a
comma stands before the others. -/
theorem negation_cases {cs : List Compound}
    (h : (negation size s).map Subtype.val = .ok (cs, rest)) :
    ∃ c r, (compound size (skipSpace s)).map Subtype.val = .ok (c, r) ∧
      (skipSpace r = ')' :: rest ∨
        ∃ r₁ cs, skipSpace r = ',' :: r₁ ∧
          (negation size r₁).map Subtype.val = .ok (cs, rest)) := by
  obtain ⟨p, h, hp⟩ := map_eq_ok h
  rw [negation] at h
  obtain ⟨q, hq, h⟩ := exists_of_bind_eq_ok h
  refine ⟨q.1.1, q.1.2, by rw [hq]; rfl, ?_⟩
  dsimp only at h
  split at h
  · rename_i r₁ hr₁
    obtain ⟨t, ht, h⟩ := exists_of_bind_eq_ok h
    cases h
    cases hp
    exact .inr ⟨r₁, t.1.1, hr₁, by rw [ht]; rfl⟩
  · rename_i r₁ hr₁
    cases h
    cases hp
    exact .inl hr₁
  · cases h

/-- Whether the negations in texts of less than the given length are balanced, up to the parenthesis
that closes them. -/
def NegationsTake (size length : Nat) : Prop :=
  ∀ r cs rest, r.length < length → (negation size r).map Subtype.val = .ok (cs, rest) →
    Takes r (')' :: rest)

theorem NegationsTake.mono {m n : Nat} (h : NegationsTake size n) (hle : m ≤ n) :
    NegationsTake size m :=
  fun r cs rest hr => h r cs rest (hr.trans_le hle)

theorem Takes.conditions {xs : List Simple} (hnegation : NegationsTake size s.length)
    (h : (Selector.conditions size s).map Subtype.val = .ok (xs, rest)) : Takes s rest := by
  induction hn : s.length using Nat.strong_induction_on generalizing s xs with
  | _ n ih =>
    subst hn
    rcases conditions_cases h with ⟨-, -, rfl⟩ | ⟨x, r, ys, hx, hys, -⟩ |
      ⟨cs, ys, -, r, r₁, hx, hcs, hys⟩
    · exact .refl _
    · have hlt := length_of_piece? hx
      exact (Takes.piece hx).trans (ih r.length hlt (hnegation.mono hlt.le) hys rfl)
    · have hlt := length_of_piece? hx
      have hlt₁ := (length_of_shorter hcs).trans hlt
      have hgroup : Takes s r₁ := (TakesParen.piece hx).group (hnegation r cs r₁ hlt hcs)
      exact hgroup.trans (ih r₁.length hlt₁ (hnegation.mono hlt₁.le) hys rfl)

theorem Takes.compound_of_negation {c : Compound} (hnegation : NegationsTake size s.length)
    (h : (compound size s).map Subtype.val = .ok (c, rest)) : Takes s rest := by
  obtain ⟨tags, r, xs, htags, hxs, -⟩ := compound_cases h
  have hle : r.length ≤ s.length := (Nat.le_add_left _ _).trans (length_of_tagPart htags)
  exact (Takes.tagPart htags).trans (.conditions (hnegation.mono hle) hxs)

theorem Takes.negation {cs : List Compound}
    (h : (Selector.negation size s).map Subtype.val = .ok (cs, rest)) :
    Takes s (')' :: rest) := by
  -- The negations inside of the first compound and the compounds after a comma are both shorter.
  induction hn : s.length using Nat.strong_induction_on generalizing s cs rest with
  | _ n ih =>
    subst hn
    obtain ⟨c, r, hc, hr⟩ := negation_cases h
    have hshorter : NegationsTake size s.length := fun r cs rest hlt h => ih r.length hlt h rfl
    have hcompound : Takes (Selector.skipSpace s) r :=
      .compound_of_negation (hshorter.mono (length_skipSpace_le s)) hc
    have hfirst : Takes s (Selector.skipSpace r) :=
      (Takes.skipSpace s).trans (hcompound.trans (.skipSpace r))
    rcases hr with hr | ⟨r₁, cs, hr, hcs⟩
    · rwa [hr] at hfirst
    · rw [hr] at hfirst
      obtain ⟨p, hp, hpb⟩ := hfirst
      have hlt : r₁.length < s.length := by
        rw [hp, List.length_append, List.length_cons]
        omega
      obtain ⟨q, rfl, hqb⟩ := hshorter r₁ cs rest hlt hcs
      exact ⟨p ++ ',' :: q, by simp [hp], hpb.append hqb.comma⟩

theorem Takes.compound {c : Compound}
    (h : (Selector.compound size s).map Subtype.val = .ok (c, rest)) : Takes s rest :=
  .compound_of_negation (fun _ _ _ _ h => .negation h) h

/-! ## Complex selectors -/

theorem Takes.combinator {isSpaced : Bool} {k : Combinator}
    (h : combinator? isSpaced s = some (k, rest)) : Takes s rest := by
  unfold combinator? at h
  split at h
  case h_4 =>
    split_ifs at h
    cases h
    exact .refl _
  all_goals
    cases h
    exact (Takes.skipSpace _).cons (by decide)

theorem Takes.complexRest {left whole : Complex}
    (h : Selector.complexRest size left s = .ok whole) : Takes s [] := by
  fun_induction Selector.complexRest size left s with
  | case1 left s _ hs =>
    have htakes := Takes.skipSpace s
    rwa [List.isEmpty_iff.1 hs] at htakes
  | case2 => cases h
  | case3 => cases h
  | case4 left s _ _ k r hk _ _ ih =>
    obtain ⟨p, hp, h⟩ := exists_of_bind_eq_ok h
    have hcompound : Takes r p.1.2 := .compound (by rw [hp]; rfl)
    exact (Takes.skipSpace s).trans
      ((Takes.combinator hk).trans (hcompound.trans (ih p.1.1 p.1.2 p.2 h)))

/-- A text that reads as a selector closes the groups that it opens. -/
theorem isBalanced_of_complex {c : Complex} (h : complex s = .ok c) : IsBalanced s := by
  unfold complex at h
  split_ifs at h
  obtain ⟨p, hp, h⟩ := exists_of_bind_eq_ok h
  have hcompound : Takes (Selector.skipSpace s) p.1.2 := .compound (by rw [hp]; rfl)
  obtain ⟨q, hq, hqb⟩ := (Takes.skipSpace s).trans (hcompound.trans (.complexRest h))
  rw [hq, List.append_nil]
  exact hqb

end

/-! ## Texts of one entry -/

/-- Whether a text stays inside of one entry, or a parenthesis opens a group in it where no negation
starts. The character before the text is given, too. -/
def KeepsTogether (before : Option Char) (st : EntryState) (cs : List Char) : Prop :=
  (st.within cs).isSome ∨
    ∃ front rest d, cs = front ++ '(' :: rest ∧ st.within front = some (level d) ∧
      (front.getLast?.or before).all (·.toLower ≠ 't')

namespace KeepsTogether

variable {before : Option Char} {st st' : EntryState} {d : Nat} {as bs cs : List Char}

theorem append (has : st.within as = some st') (h : KeepsTogether (as.getLast?.or before) st' bs) :
    KeepsTogether before st (as ++ bs) := by
  rcases h with h | ⟨front, rest, d, rfl, hfront, hlast⟩
  · exact .inl (by rwa [within_append_of_eq has])
  · refine .inr ⟨as ++ front, rest, d, (List.append_assoc _ _ _).symm, ?_, ?_⟩
    · rw [within_append_of_eq has, hfront]
    · rwa [List.getLast?_append, Option.or_assoc]

theorem of_append_left (has : ∀ c ∈ as, isNeutral c)
    (h : KeepsTogether before (level d) (as ++ bs)) : KeepsTogether none (level d) bs := by
  have hwithin := within_of_isNeutral (d := d) has
  rcases h with h | ⟨front, rest, d', heq, hfront, hlast⟩
  · rw [within_append_of_eq hwithin] at h
    exact .inl h
  · rcases List.append_eq_append_iff.1 heq with ⟨u, rfl, hbs⟩ | ⟨u, rfl, hbs⟩
    · rw [within_append_of_eq hwithin] at hfront
      rw [List.getLast?_append, Option.or_assoc] at hlast
      refine .inr ⟨u, rest, d', hbs, hfront, ?_⟩
      cases hu : u.getLast? with
      | none => rfl
      | some c => simpa [hu] using hlast
    · cases u with
      | nil => exact .inr ⟨[], rest, d, hbs.symm, rfl, rfl⟩
      | cons c u =>
        obtain ⟨rfl, -⟩ := List.cons.inj hbs
        exact absurd rfl (ne_of_isNeutral (has '(' (by simp))).2.2.2.1

theorem of_append_right (hbs : '(' ∉ bs) (h : KeepsTogether before st (as ++ bs)) :
    KeepsTogether before st as := by
  rcases h with h | ⟨front, rest, d, heq, hfront, hlast⟩
  · exact .inl (isSome_within_of_append h)
  · rcases List.append_eq_append_iff.1 heq with ⟨u, -, rfl⟩ | ⟨u, rfl, hrest⟩
    · exact absurd (List.mem_append_right u List.mem_cons_self) hbs
    · cases u with
      | nil =>
        obtain rfl : '(' :: rest = bs := hrest
        exact absurd List.mem_cons_self hbs
      | cons c u =>
        obtain ⟨rfl, -⟩ := List.cons.inj hrest
        exact .inr ⟨front, u, d, rfl, hfront, hlast⟩

theorem trimBlanks (h : KeepsTogether before (level d) cs) :
    KeepsTogether none (level d) (trimBlanks cs) := by
  obtain ⟨as, bs, hcs, has, hbs⟩ := exists_trim isBlank cs
  rw [hcs] at h
  refine of_append_right (fun hparen => ?_)
    (h.of_append_left fun c hc => isNeutral_of_isBlank (has c hc))
  have hblank := hbs _ hparen
  revert hblank
  decide

end KeepsTogether

theorem EntryState.opened_eq_some {before : Option Char} {st st' : EntryState} {cs : List Char}
    {p : Option Char × EntryState} (h : opened (before, st) cs = some p)
    (hwithin : st.within cs = some st') : p = (cs.getLast?.or before, st') := by
  induction cs generalizing before st with
  | nil =>
    cases h
    cases hwithin
    rfl
  | cons c cs ih =>
    rw [opened_cons] at h
    rw [within_cons] at hwithin
    split_ifs at h hwithin
    rw [ih h hwithin, List.getLast?_cons]
    cases cs.getLast? <;> rfl

/-- No selector goes on with a parenthesis after something else than a `t`. -/
theorem complex_ne_ok {front rest : List Char} {d : Nat}
    (hfront : EntryState.start.within front = some (level d))
    (hlast : front.getLast?.all (·.toLower ≠ 't')) (c : Complex) :
    complex (front ++ '(' :: rest) ≠ .ok c := by
  intro h
  have hopened := isBalanced_of_complex h 0 none
  rw [opened_append] at hopened
  cases hfront' : opened (none, level 0) front with
  | none =>
    rw [hfront'] at hopened
    cases hopened
  | some p =>
    obtain rfl := opened_eq_some hfront' hfront
    rw [hfront', Option.bind_some, opened_cons, if_pos ⟨rfl, rfl, by rwa [Option.or_none]⟩]
      at hopened
    cases hopened

/-- A text that keeps together is read as one selector, unless it is malformed as a whole. -/
theorem parse_of_keepsTogether {s : String} (h : KeepsTogether none .start s.toList) :
    (∃ e, parse s = .error e ∧ ∀ c, complex s.toList ≠ .ok c) ∨
      ∃ c, parse s = .ok [c] ∧ complex s.toList = .ok c := by
  rw [parse]
  rcases h with h | ⟨front, rest, d, hs, hfront, hlast⟩
  · rw [entriesFrom_of_within h, List.mapM_cons]
    cases complex s.toList with
    | error e => exact .inl ⟨e, rfl, by simp⟩
    | ok c => exact .inr ⟨c, rfl, rfl⟩
  · rw [Option.or_none] at hlast
    rw [hs, entriesFrom_append hfront]
    obtain ⟨e, es, hes⟩ : ∃ e es, entriesFrom (level d) ('(' :: rest) = ('(' :: e) :: es := by
      have hnot : ¬(level d).separates '(' := by simp [separates]
      rw [entriesFrom, if_neg hnot]
      cases hes : entriesFrom ((level d).next '(') rest with
      | nil => exact absurd hes (entriesFrom_ne_nil _ _)
      | cons e es => exact ⟨e, es, rfl⟩
    rw [hes, List.modifyHead_cons, List.mapM_cons]
    cases hc : complex (front ++ '(' :: e) with
    | error err => exact .inl ⟨err, rfl, complex_ne_ok hfront hlast⟩
    | ok c => exact absurd hc (complex_ne_ok hfront hlast c)

end Restyle.Selector
