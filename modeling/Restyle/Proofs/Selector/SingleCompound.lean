import Mathlib.Tactic.SplitIfs
import Restyle.Selector.Parser

/-!
# Selectors with one condition

When a text reads as a selector with one compound, and that compound as a class, an id or a tag
alone. The readers that call each other return what they read with a bound on what remains;
`conditions_cases` and `compound_cases` say where a result comes from, the other lemmas how it is
put together.
-/

namespace Restyle.Selector

open Text Css Css.Lexer

variable {size : Nat} {s r rest : List Char} {x : Simple} {xs tags : List Simple} {c : Compound}

theorem map_eq_ok {ε α β : Type} {f : α → β} {x : Except ε α} {b : β} (h : x.map f = .ok b) :
    ∃ a, x = .ok a ∧ f a = b := by
  cases x with
  | error e => cases h
  | ok a => exact ⟨a, rfl, Except.ok.inj h⟩

/-! ## Conditions and compounds -/

/-- What follows a colon is a name: that of a condition, or that of a negation with a parenthesis
behind it. -/
theorem pseudo_cases {p : Piece} (h : pseudo size s = .ok (p, rest)) :
    ∃ n r, ident size s = .ok (n, r) ∧
      (r = '(' :: rest ∧ lower n = "not" ∧ p = .negation ∨
        r = rest ∧ ∃ c, PseudoClass.ofName (lower n) = .ok c ∧ p = .simple (.pseudo c)) := by
  unfold pseudo at h
  split at h
  · obtain ⟨_, -, h⟩ := exists_of_bind_eq_ok h
    cases h
  · obtain ⟨⟨n, r⟩, hr, h⟩ := exists_of_bind_eq_ok h
    dsimp only at h
    split at h
    · split_ifs at h with hnot
      cases h
      exact ⟨n, _, hr, .inl ⟨rfl, hnot, rfl⟩⟩
    · obtain ⟨c, hc, h⟩ := exists_of_bind_eq_ok h
      cases h
      exact ⟨n, _, hr, .inr ⟨rfl, c, hc, rfl⟩⟩

/-- A piece is a class, an id, an attribute in brackets, or what follows a colon. -/
theorem piece_cases {p : Piece} (h : piece? size s = .ok (some (p, rest))) :
    (∃ r, s = '.' :: r ∧ ∃ n, ident size r = .ok (n, rest) ∧ p = .simple (.className n)) ∨
    (∃ r, s = '#' :: r ∧ ∃ n, name size r = .ok (n, rest) ∧ p = .simple (.id n)) ∨
    (∃ r, s = '[' :: r ∧ ∃ test, attributeTest size r = .ok (test, rest) ∧
      p = .simple (.attributeTest test)) ∨
    ∃ r, s = ':' :: r ∧ pseudo size r = .ok (p, rest) := by
  unfold piece? at h
  split at h
  · obtain ⟨q, hq, h⟩ := exists_of_bind_eq_ok h
    cases h
    exact .inl ⟨_, rfl, q.1, hq, rfl⟩
  · obtain ⟨q, hq, h⟩ := exists_of_bind_eq_ok h
    cases h
    exact .inr (.inl ⟨_, rfl, q.1, hq, rfl⟩)
  · obtain ⟨q, hq, h⟩ := exists_of_bind_eq_ok h
    cases h
    exact .inr (.inr (.inl ⟨_, rfl, q.1, hq, rfl⟩))
  · obtain ⟨q, hq, h⟩ := map_eq_ok h
    cases h
    exact .inr (.inr (.inr ⟨_, rfl, hq⟩))
  · cases h

/-- Where conditions come from: there is none, a simple one comes first, or a negation does. -/
theorem conditions_cases (h : (conditions size s).map Subtype.val = .ok (xs, rest)) :
    (piece? size s = .ok none ∧ xs = [] ∧ rest = s) ∨
    (∃ x r ys, piece? size s = .ok (some (.simple x, r)) ∧
      (conditions size r).map Subtype.val = .ok (ys, rest) ∧ xs = x :: ys) ∨
    ∃ compounds ys, xs = .not compounds :: ys ∧
      ∃ r r₁, piece? size s = .ok (some (.negation, r)) ∧
        (negation size r).map Subtype.val = .ok (compounds, r₁) ∧
        (conditions size r₁).map Subtype.val = .ok (ys, rest) := by
  obtain ⟨p, h, hp⟩ := map_eq_ok h
  rw [conditions] at h
  split at h
  · cases h
  · rename_i hnone
    cases h
    cases hp
    exact .inl ⟨hnone, rfl, rfl⟩
  · rename_i x r hx
    obtain ⟨q, hq, h⟩ := exists_of_bind_eq_ok h
    cases h
    cases hp
    refine .inr (.inl ⟨x, r, q.1.1, hx, ?_, rfl⟩)
    rw [hq]
    rfl
  · rename_i r hr
    obtain ⟨c, hc, h⟩ := exists_of_bind_eq_ok h
    obtain ⟨q, hq, h⟩ := exists_of_bind_eq_ok h
    cases h
    cases hp
    refine .inr (.inr ⟨c.1.1, q.1.1, rfl, r, c.1.2, hr, ?_, ?_⟩)
    · rw [hc]
      rfl
    · rw [hq]
      rfl

theorem conditions_of_none (h : piece? size s = .ok none) :
    (conditions size s).map Subtype.val = .ok ([], s) := by
  rw [conditions]
  split
  · simp_all
  · rfl
  · simp_all
  · simp_all

theorem conditions_of_simple (h : piece? size s = .ok (some (.simple x, r)))
    (hr : (conditions size r).map Subtype.val = .ok (xs, rest)) :
    (conditions size s).map Subtype.val = .ok (x :: xs, rest) := by
  obtain ⟨q, hq, hqr⟩ := map_eq_ok hr
  rw [conditions]
  split
  · simp_all
  · simp_all
  · rename_i x' r' h'
    rw [h] at h'
    cases h'
    obtain ⟨⟨ys, t⟩, hlt⟩ := q
    cases hqr
    rw [hq]
    rfl
  · simp_all

theorem compound_cases (h : (compound size s).map Subtype.val = .ok (c, rest)) :
    ∃ tags r xs, tagPart size s = .ok (tags, r) ∧
      (conditions size r).map Subtype.val = .ok (xs, rest) ∧ c = tags ++ xs := by
  obtain ⟨p, h, hp⟩ := map_eq_ok h
  rw [compound] at h
  split at h
  · cases h
  · rename_i tags r ht
    obtain ⟨q, hq, h⟩ := exists_of_bind_eq_ok h
    dsimp only at h
    split at h
    · cases h
    · cases h
      cases hp
      refine ⟨tags, r, q.1.1, ht, ?_, rfl⟩
      rw [hq]
      rfl

theorem compound_of_parts (ht : tagPart size s = .ok (tags, r))
    (hr : (conditions size r).map Subtype.val = .ok (xs, rest)) (hne : tags ++ xs ≠ []) :
    (compound size s).map Subtype.val = .ok (tags ++ xs, rest) := by
  obtain ⟨⟨⟨ys, t⟩, hlt⟩, hq, hqr⟩ := map_eq_ok hr
  cases hqr
  rw [compound]
  split
  · simp_all
  · rename_i tags' r' ht'
    rw [ht] at ht'
    cases ht'
    rw [hq]
    show Except.map Subtype.val (if hne : tags ++ xs = [] then _ else _) = _
    rw [dif_neg hne]
    rfl

/-! ## Complex selectors -/

theorem chain_complexRest {left whole : Complex} (h : complexRest size left s = .ok whole) :
    (skipSpace s = [] ∧ whole = left) ∨ left.chain.length < whole.chain.length := by
  fun_induction complexRest size left s with
  | case1 left s _ hs =>
    cases h
    exact .inl ⟨by simpa using hs, rfl⟩
  | case2 => cases h
  | case3 => cases h
  | case4 left s _ hs k r hc _ hr ih =>
    obtain ⟨p, hp, h⟩ := exists_of_bind_eq_ok h
    right
    have : left.chain.length < (left.extend k p.1.1).chain.length := by
      simp [Complex.extend]
    rcases ih p.1.1 p.1.2 p.2 h with ⟨-, rfl⟩ | hlt
    · exact this
    · exact Nat.lt_trans this hlt

/-- A selector with one compound is that compound with white space around it. -/
theorem complex_eq_ok_iff :
    complex s = .ok ⟨c, []⟩ ↔
      ∃ r, (compound (byteSize s) (skipSpace s)).map Subtype.val = .ok (c, r) ∧
        skipSpace r = [] := by
  unfold complex
  constructor
  · intro h
    split_ifs at h
    obtain ⟨p, hp, h⟩ := exists_of_bind_eq_ok h
    rcases chain_complexRest h with ⟨hrest, hc⟩ | hlt
    · cases hc
      refine ⟨_, ?_, hrest⟩
      rw [hp]
      rfl
    · cases hlt
  · rintro ⟨r, hc, hr⟩
    obtain ⟨⟨⟨c', r'⟩, hlt⟩, hp, hpr⟩ := map_eq_ok hc
    cases hpr
    rw [if_neg, hp]
    · show complexRest (byteSize s) ⟨c, []⟩ r = .ok ⟨c, []⟩
      rw [complexRest, if_pos (by simp [hr])]
    · intro hnil
      rw [List.isEmpty_iff.1 hnil] at hlt
      exact absurd hlt (Nat.not_lt_zero _)

/-! ## Classes, ids and tags -/

theorem piece_of_skipSpace (h : skipSpace s = []) : piece? size s = .ok none := by
  unfold piece?
  split
  all_goals
    first
      | rfl
      | simp [skipSpace, isSpace] at h

/-- A compound without a tag and with one condition is one piece of the text. -/
theorem compound_singleton_iff (ht : tagPart size s = .ok ([], s)) (hx : ∀ cs, x ≠ .not cs)
    (hr : skipSpace rest = []) :
    (compound size s).map Subtype.val = .ok ([x], rest) ↔
      piece? size s = .ok (some (.simple x, rest)) := by
  constructor
  · intro h
    obtain ⟨tags, r, xs, ht', hxs, hc⟩ := compound_cases h
    rw [ht] at ht'
    cases ht'
    rw [List.nil_append] at hc
    rcases conditions_cases hxs with ⟨-, rfl, -⟩ | ⟨y, r, ys, hy, hys, rfl⟩ | ⟨cs, ys, rfl, -⟩
    · cases hc
    · cases hc
      rcases conditions_cases hys with ⟨-, -, rfl⟩ | ⟨_, _, _, -, -, h⟩ | ⟨_, _, h, -⟩
      · exact hy
      · cases h
      · cases h
    · cases hc
      exact absurd rfl (hx cs)
  · intro h
    exact compound_of_parts ht
      (conditions_of_simple h (conditions_of_none (piece_of_skipSpace hr))) (by simp)


theorem skipSpace_cons {d : Char} (hd : isSpace d = false) : skipSpace (d :: r) = d :: r :=
  List.dropWhile_cons_of_neg (by simp [hd])

theorem complex_id_iff {v : String} :
    complex ('#' :: s) = .ok ⟨[.id v], []⟩ ↔
      ∃ rest, name (byteSize ('#' :: s)) s = .ok (v, rest) ∧ skipSpace rest = [] := by
  rw [complex_eq_ok_iff, skipSpace_cons rfl]
  refine exists_congr fun rest => and_congr_left fun hr => ?_
  rw [compound_singleton_iff rfl (by simp) hr]
  show (name _ s >>= fun p => pure (some (Piece.simple (Simple.id p.1), p.2))) = _ ↔ _
  cases name (byteSize ('#' :: s)) s with
  | error e => simp [bind, Except.bind]
  | ok p => simp [bind, Except.bind, pure, Except.pure, Prod.ext_iff]

theorem complex_className_iff {v : String} :
    complex ('.' :: s) = .ok ⟨[.className v], []⟩ ↔
      ∃ rest, ident (byteSize ('.' :: s)) s = .ok (v, rest) ∧ skipSpace rest = [] := by
  rw [complex_eq_ok_iff, skipSpace_cons rfl]
  refine exists_congr fun rest => and_congr_left fun hr => ?_
  rw [compound_singleton_iff rfl (by simp) hr]
  show (ident _ s >>= fun p => pure (some (Piece.simple (Simple.className p.1), p.2))) = _ ↔ _
  cases ident (byteSize ('.' :: s)) s with
  | error e => simp [bind, Except.bind]
  | ok p => simp [bind, Except.bind, pure, Except.pure, Prod.ext_iff]

theorem piece_ne_type {tag : String} : piece? size s ≠ .ok (some (.simple (.type tag), rest)) := by
  intro h
  rcases piece_cases h with ⟨_, -, _, -, h⟩ | ⟨_, -, _, -, h⟩ | ⟨_, -, _, -, h⟩ | ⟨_, -, h⟩
  · cases h
  · cases h
  · cases h
  · obtain ⟨_, _, -, ⟨-, -, h⟩ | ⟨-, _, -, h⟩⟩ := pseudo_cases h <;> cases h

theorem tagPart_of_ident {n : String} (h : ident size s = .ok (n, rest)) :
    tagPart size s = .ok ([.type (lower n)], rest) := by
  have hs : startsIdent s := by
    unfold ident at h
    split_ifs at h with hs
    exact hs
  unfold tagPart
  split
  · exact absurd hs (by simp [startsIdent, isNameStart])
  · rw [if_pos hs, h]
    rfl

theorem complex_type_iff {tag : String} (hs : skipSpace s = s) :
    complex s = .ok ⟨[.type tag], []⟩ ↔
      ∃ n rest, ident (byteSize s) s = .ok (n, rest) ∧ lower n = tag ∧ skipSpace rest = [] := by
  rw [complex_eq_ok_iff, hs]
  constructor
  · rintro ⟨rest, h, hr⟩
    obtain ⟨tags, r, xs, ht, hxs, hc⟩ := compound_cases h
    unfold tagPart at ht
    split at ht
    · cases ht
      cases hc
    · split_ifs at ht with hstart
      · obtain ⟨p, hp, ht⟩ := exists_of_bind_eq_ok ht
        cases ht
        cases hc
        rcases conditions_cases hxs with ⟨-, -, rfl⟩ | ⟨_, _, _, -, -, h⟩ | ⟨_, _, h, -⟩
        · exact ⟨_, _, hp, rfl, hr⟩
        · cases h
        · cases h
      · cases ht
        cases hc
        rcases conditions_cases hxs with ⟨-, h, -⟩ | ⟨_, _, _, hpiece, -, h⟩ | ⟨_, _, h, -⟩
        · cases h
        · cases h
          exact absurd hpiece piece_ne_type
        · cases h
  · rintro ⟨n, rest, h, rfl, hr⟩
    refine ⟨rest, ?_, hr⟩
    exact compound_of_parts (tagPart_of_ident h) (conditions_of_none (piece_of_skipSpace hr))
      (by simp)

end Restyle.Selector
