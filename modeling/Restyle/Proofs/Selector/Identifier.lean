import Mathlib.Data.List.TakeWhile
import Restyle.Proofs.Css.Scan
import Restyle.Proofs.Selector.SingleCompound

/-!
# Names in selectors and in style sheets

Selectors reach their parser as source text, and names are read there by `nameChars`, not by
`Lexer.name`. The two agree on the texts that `isPlainName` describes and on no others: a backslash
in a selector stands for the next character, even if that is a hexadecimal digit. Main statement:
which identifiers of a style sheet a selector reads as they are (`selector_reads_ident_iff`).
-/

namespace Restyle.Selector

open Text Css Css.Lexer

/-! ## Plain names -/

/-- Whether a text consists of name characters and of escapes that stand for the character after
the backslash. -/
def isPlainName : List Char → Bool
  | [] => true
  | '\\' :: c :: r => !isHexDigit c && c != '\n' && isPlainName r
  | c :: r => isNameChar c && isPlainName r

theorem isPlainName_cons {c : Char} {r : List Char} (hc : c ≠ '\\') :
    isPlainName (c :: r) = (isNameChar c && isPlainName r) := by
  rw [isPlainName.eq_3]
  intro c' r' h
  exact absurd h hc

theorem nameChars_cons {c : Char} {r : List Char} (hc : c ≠ '\\') :
    nameChars (c :: r) =
      if isNameChar c then (nameChars r).map fun p => (c :: p.1, p.2) else .ok ([], c :: r) := by
  rw [nameChars.eq_4]
  · split_ifs
    · cases nameChars r <;> rfl
    · rfl
  · intro h _
    exact absurd h hc
  · intro c' r' h
    exact absurd h hc

theorem nameChars_escape {c : Char} {r : List Char} :
    nameChars ('\\' :: c :: r) = (nameChars r).map fun p => (c :: p.1, p.2) := by
  rw [nameChars.eq_3]
  cases nameChars r <;> rfl

theorem name_of_isPlainName {s : List Char} (h : isPlainName s) :
    ∃ n, Lexer.name s = (n, []) ∧ nameChars s = .ok (n, []) ∧ (n = [] → s = []) := by
  fun_induction isPlainName s with
  | case1 => exact ⟨[], by rw [Lexer.name], rfl, fun _ => rfl⟩
  | case2 c r ih =>
    simp only [Bool.and_eq_true, Bool.not_eq_true', bne_iff_ne, ne_eq] at h
    obtain ⟨⟨hhex, hfeed⟩, hr⟩ := h
    obtain ⟨n, hname, hchars, -⟩ := ih hr
    have hescapes : escapes (c :: r) := by simp [escapes, hfeed]
    have hescape : Lexer.escape (c :: r) = (c, r) := by
      simp [Lexer.escape, hhex]
    refine ⟨c :: n, ?_, ?_, by simp⟩
    · rw [Lexer.name, if_neg (by decide), if_pos ⟨rfl, hescapes⟩, hescape, hname]
    · rw [nameChars_escape, hchars]
      rfl
  | case3 c r hne ih =>
    simp only [Bool.and_eq_true] at h
    obtain ⟨hc, hr⟩ := h
    have hslash : c ≠ '\\' := by
      rintro rfl
      exact absurd hc (by decide)
    obtain ⟨n, hname, hchars, -⟩ := ih hr
    refine ⟨c :: n, ?_, ?_, by simp⟩
    · rw [Lexer.name, if_pos hc, hname]
    · rw [nameChars_cons hslash, if_pos hc, hchars]
      rfl

/-- A hexadecimal digit is not the character that it stands for as an escape. -/
theorem toLower_scalar_ne {c : Char} (h : isHexDigit c) :
    (scalar (numberOf 16 [c])).toLower ≠ c.toLower := by
  refine forall_hexDigit (p := fun c => (scalar (numberOf 16 [c])).toLower ≠ c.toLower) ?_ h
  decide

theorem ne_backslash_of_isNameChar {c : Char} (h : isNameChar c) : c ≠ '\\' := by
  rintro rfl
  exact absurd h (by decide)

theorem exists_of_nameChars_append {a : List Char} (ha : a.all isHexDigit) {t b r : List Char}
    (h : nameChars (a ++ t) = .ok (b, r)) : ∃ b', b = a ++ b' ∧ nameChars t = .ok (b', r) := by
  induction a generalizing b with
  | nil => exact ⟨b, rfl, h⟩
  | cons c a ih =>
    simp only [List.all_cons, Bool.and_eq_true] at ha
    have hc := isNameChar_of_isHexDigit ha.1
    rw [List.cons_append, nameChars_cons (ne_backslash_of_isNameChar hc), if_pos hc] at h
    cases hr : nameChars (a ++ t) with
    | error e => simp [hr, Except.map] at h
    | ok p =>
      rw [hr] at h
      cases h
      obtain ⟨b', hb, ht⟩ := ih ha.2 hr
      exact ⟨b', by simp [hb], ht⟩

theorem nameChars_of_isSpace {c : Char} (h : isSpace c) (r : List Char) :
    nameChars (c :: r) = .ok ([], c :: r) := by
  simp only [isSpace, Bool.or_eq_true, beq_iff_eq] at h
  rcases h with (((rfl | rfl) | rfl) | rfl) | rfl <;>
    rw [nameChars_cons (by decide), if_neg (by decide)]

theorem nameChars_dropSpace {s n rest : List Char} (h : nameChars s = .ok (n, rest))
    (hrest : rest.all isSpace) :
    ∃ rest', nameChars (dropSpace s) = .ok (n, rest') ∧ rest'.all isSpace := by
  cases s with
  | nil => exact ⟨rest, h, hrest⟩
  | cons c r =>
    rw [dropSpace]
    by_cases hc : isSpace c
    · rw [if_pos hc]
      rw [nameChars_of_isSpace hc] at h
      cases h
      simp only [List.all_cons, Bool.and_eq_true] at hrest
      cases r with
      | nil => exact ⟨[], rfl, rfl⟩
      | cons d r =>
        have hd := hrest.2
        simp only [List.all_cons, Bool.and_eq_true] at hd
        exact ⟨d :: r, nameChars_of_isSpace hd.1 r, hrest.2⟩
    · rw [if_neg hc]
      exact ⟨rest, h, hrest⟩

theorem isPlainName_of_name {s a rest b ws : List Char} (hname : Lexer.name s = (a, rest))
    (hrest : skipComments rest = []) (hchars : nameChars s = .ok (b, ws)) (hws : ws.all isSpace) :
    a.length ≤ b.length ∧ (a.map Char.toLower = b.map Char.toLower → isPlainName s) := by
  fun_induction Lexer.name s generalizing a rest b ws with
  | case1 =>
    cases hname
    exact ⟨Nat.zero_le _, fun _ => rfl⟩
  | case2 c r hc n rest' hr ih =>
    cases hname
    rw [nameChars_cons (ne_backslash_of_isNameChar hc), if_pos hc] at hchars
    cases hb : nameChars r with
    | error e => simp [hb, Except.map] at hchars
    | ok p =>
      rw [hb] at hchars
      cases hchars
      obtain ⟨hlen, hplain⟩ := ih hr hrest hb hws
      refine ⟨by simpa using hlen, fun heq => ?_⟩
      rw [isPlainName_cons (ne_backslash_of_isNameChar hc), hc]
      simp only [List.map_cons, List.cons.injEq] at heq
      simpa using hplain heq.2
  | case3 c r hc hesc _ n rest' hr ih =>
    cases hname
    obtain ⟨rfl, hesc⟩ := hesc
    cases r with
    | nil => cases hchars
    | cons d r =>
      rw [nameChars_escape] at hchars
      cases hb : nameChars r with
      | error e => simp [hb, Except.map] at hchars
      | ok p =>
        obtain ⟨b', ws'⟩ := p
        rw [hb] at hchars
        cases hchars
        by_cases hd : isHexDigit d
        · -- Such an escape stands for one character, and is read as its digits here.
          obtain ⟨more, t, hmore, hall, hescape⟩ := escape_of_isHexDigit hd r
          rw [hescape] at hr ih ⊢
          rw [hmore] at hb
          obtain ⟨b'', rfl, ht⟩ := exists_of_nameChars_append hall hb
          obtain ⟨ws', ht, hws'⟩ := nameChars_dropSpace ht hws
          obtain ⟨hlen, -⟩ := ih hr hrest ht hws'
          refine ⟨by simp; omega, fun heq => ?_⟩
          have hl := congrArg List.length heq
          simp only [List.length_map, List.length_cons, List.length_append] at hl
          have : more = [] := List.length_eq_zero_iff.1 (by omega)
          subst this
          simp only [List.map_cons, List.cons.injEq] at heq
          exact absurd heq.1 (toLower_scalar_ne hd)
        · have hescape : Lexer.escape (d :: r) = (d, r) := by simp [Lexer.escape, hd]
          rw [hescape] at hr ih ⊢
          obtain ⟨hlen, hplain⟩ := ih hr hrest hb hws
          refine ⟨by simpa using hlen, fun heq => ?_⟩
          have hfeed : d ≠ '\n' := by
            rintro rfl
            simp [escapes] at hesc
          simp only [List.map_cons, List.cons.injEq] at heq
          simp [isPlainName, hd, hfeed, hplain heq.2]
  | case4 c r hc hesc =>
    cases hname
    by_cases hslash : c = '/'
    · -- A name does not go on at the mark of a comment.
      subst hslash
      rw [nameChars_cons (by decide), if_neg (by decide)] at hchars
      cases hchars
      simp [isSpace] at hws
    · rw [skipComments_cons hslash] at hrest
      cases hrest

theorem name_eq_ok_iff {size : Nat} {s rest : List Char} {n : String} :
    name size s = .ok (n, rest) ↔ nameChars s = .ok (n.toList, rest) ∧ n ≠ "" := by
  unfold name
  cases hs : nameChars s with
  | error e => simp [bind, Except.bind]
  | ok p =>
    obtain ⟨cs, r⟩ := p
    show (if cs.isEmpty then Except.error (unexpected size s) else pure (String.ofList cs, r)) =
      Except.ok (n, rest) ↔ _
    by_cases hcs : cs = []
    · subst hcs
      simp only [List.isEmpty_nil, if_true, Except.ok.injEq, Prod.mk.injEq, reduceCtorEq, false_iff,
        not_and, Decidable.not_not]
      rintro ⟨h, -⟩
      exact String.toList_eq_nil_iff.1 h.symm
    · rw [if_neg (by simpa using hcs)]
      constructor
      · rintro ⟨⟩
        exact ⟨by rw [String.toList_ofList], by simpa using hcs⟩
      · rintro ⟨h, -⟩
        cases h
        rw [String.ofList_toList]
        rfl

theorem ident_eq_ok_iff {size : Nat} {s rest : List Char} {n : String} :
    ident size s = .ok (n, rest) ↔
      startsIdent s ∧ name size s = .ok (n, rest) ∧ ¬isBareHyphen n := by
  unfold ident
  by_cases hs : startsIdent s
  · rw [if_pos hs]
    cases hn : name size s with
    | error e => simp [bind, Except.bind]
    | ok p =>
      obtain ⟨m, r⟩ := p
      show (if isBareHyphen m then Except.error (Error.invalidIdentifier m) else pure (m, r)) =
        Except.ok (n, rest) ↔ _
      split_ifs with hm
      · simp only [Except.ok.injEq, Prod.mk.injEq, false_iff, not_and,
          Decidable.not_not]
        rintro - ⟨rfl, -⟩
        exact hm
      · constructor
        · rintro ⟨⟩
          exact ⟨hs, rfl, hm⟩
        · rintro ⟨-, h, -⟩
          exact h
  · simp [hs]

/-! ## Lists of one selector -/

theorem entriesFrom_ne_nil (st : EntryState) (s : List Char) : entriesFrom st s ≠ [] := by
  cases s with
  | nil => simp [entriesFrom]
  | cons c r =>
    rw [entriesFrom]
    split
    · simp
    · unfold consFirst
      split <;> simp

theorem eq_of_entriesFrom_eq_singleton {st : EntryState} {s e : List Char}
    (h : entriesFrom st s = [e]) : e = s := by
  induction s generalizing st e with
  | nil => simpa [entriesFrom] using h.symm
  | cons c r ih =>
    rw [entriesFrom] at h
    split at h
    · simp [entriesFrom_ne_nil] at h
    · cases hr : entriesFrom (st.next c) r with
      | nil => exact absurd hr (entriesFrom_ne_nil _ _)
      | cons e' es =>
        rw [hr] at h
        simp only [consFirst, List.cons.injEq] at h
        obtain ⟨rfl, rfl⟩ := h
        rw [ih hr]

theorem parse_eq_singleton {s : String} {c : Complex} (h : parse s = .ok [c]) :
    complex s.toList = .ok c := by
  unfold parse at h
  cases he : entriesFrom .start s.toList with
  | nil => exact absurd he (entriesFrom_ne_nil _ _)
  | cons e es =>
    rw [he, List.mapM_cons] at h
    obtain ⟨c', hc, h⟩ := exists_of_bind_eq_ok h
    obtain ⟨cs, hcs, h⟩ := exists_of_bind_eq_ok h
    cases h
    cases es with
    | nil => rwa [← eq_of_entriesFrom_eq_singleton he]
    | cons e' es =>
      rw [List.mapM_cons] at hcs
      obtain ⟨_, _, hcs⟩ := exists_of_bind_eq_ok hcs
      obtain ⟨_, _, hcs⟩ := exists_of_bind_eq_ok hcs
      cases hcs

theorem parse_of_entriesFrom {s : String} {c : Complex}
    (he : entriesFrom .start s.toList = [s.toList]) (hc : complex s.toList = .ok c) :
    parse s = .ok [c] := by
  unfold parse
  rw [he, List.mapM_cons, hc]
  rfl

/-! ## Plain names are one entry -/

theorem next_start_of_isNameChar {c : Char} (h : isNameChar c) :
    EntryState.start.next c = .start := by
  have hne : ∀ d, isNameChar d = false → c ≠ d := by
    rintro d hd rfl
    simp [hd] at h
  simp [EntryState.next, EntryState.start, hne '\\' rfl, hne '"' rfl, hne '\'' rfl, hne '(' rfl,
    hne '[' rfl, hne ')' rfl, hne ']' rfl]

theorem entriesFrom_of_isPlainName {s : List Char} (h : isPlainName s) :
    entriesFrom .start s = [s] := by
  fun_induction isPlainName s with
  | case1 => rfl
  | case2 c r ih =>
    simp only [Bool.and_eq_true] at h
    have hnext : (EntryState.start.next '\\').next c = .start := rfl
    rw [entriesFrom, entriesFrom, hnext, ih h.2]
    rfl
  | case3 c r _ ih =>
    simp only [Bool.and_eq_true] at h
    have hcomma : EntryState.start.separates c = false := by
      have : c ≠ ',' := by
        rintro rfl
        exact absurd h.1 (by decide)
      simp [EntryState.separates, this]
    rw [entriesFrom, hcomma, next_start_of_isNameChar h.1, ih h.2]
    rfl

/-! ## Identifiers of a style sheet -/

theorem startsIdent_of_startsName {s : List Char} (h : startsName s) : startsIdent s := by
  unfold startsName at h
  unfold startsIdent
  split at h <;> simp_all


section

variable {n v : String}

theorem skipSpace_of_ofText (h : (Lexeme.ofText n).map (·.token) = [.ident v, .eof]) :
    skipSpace n.toList = n.toList := by
  obtain ⟨after, hstarts, -, -⟩ := Lexeme.name_of_ofText_eq_ident h
  cases hn : n.toList with
  | nil => rfl
  | cons c r =>
    apply skipSpace_cons
    by_contra hc
    simp only [Bool.not_eq_false, isSpace, Bool.or_eq_true, beq_iff_eq] at hc
    rw [hn] at hstarts
    rcases hc with (((rfl | rfl) | rfl) | rfl) | rfl <;>
      rw [skipComments_cons (by decide)] at hstarts <;> cases hstarts

/-- A name that reads as an identifier of a style sheet is plain if a selector reads the same
letters from it. -/
theorem isPlainName_of_ofText (h : (Lexeme.ofText n).map (·.token) = [.ident v, .eof]) {b : String}
    {rest : List Char} (hb : nameChars n.toList = .ok (b.toList, rest)) (hne : b ≠ "")
    (hrest : skipSpace rest = []) (hlower : lower b = lower v) : isPlainName n.toList := by
  obtain ⟨after, -, hname, hafter⟩ := Lexeme.name_of_ofText_eq_ident h
  have hskip : skipComments n.toList = n.toList := by
    refine skipComments_eq_self fun t ht => ?_
    rw [ht, nameChars_cons (by decide), if_neg (by decide)] at hb
    simp only [Except.ok.injEq, Prod.mk.injEq] at hb
    exact hne (String.toList_eq_nil_iff.1 hb.1.symm)
  rw [hskip] at hname
  have hspace : rest.all isSpace := by
    rw [List.all_eq_true]
    exact List.dropWhile_eq_nil_iff.1 hrest
  apply (isPlainName_of_name hname hafter hb hspace).2
  exact (String.ofList_injective hlower).symm

theorem nameChars_of_ofText (h : (Lexeme.ofText n).map (·.token) = [.ident v, .eof])
    (hplain : isPlainName n.toList) :
    nameChars n.toList = .ok (v.toList, []) ∧ v ≠ "" ∧ startsIdent n.toList := by
  obtain ⟨after, hstarts, hname, -⟩ := Lexeme.name_of_ofText_eq_ident h
  obtain ⟨u, hu, hchars, hnil⟩ := name_of_isPlainName hplain
  have hskip : skipComments n.toList = n.toList := by
    refine skipComments_eq_self fun t ht => ?_
    rw [ht, isPlainName_cons (by decide)] at hplain
    exact absurd hplain (by simp [isNameChar, isNameStart])
  rw [hskip] at hstarts hname
  rw [hu] at hname
  cases hname
  refine ⟨hchars, ?_, startsIdent_of_startsName hstarts⟩
  rintro rfl
  rw [hnil rfl] at hstarts
  cases hstarts

/-- **Agreement of the two readers of names.** Of an identifier of a style sheet a selector reads
the same name exactly if it is written plainly; a class or a tag may not look like a number with a
hyphen, either. -/
theorem selector_reads_ident_iff (h : (Lexeme.ofText n).map (·.token) = [.ident v, .eof]) :
    (parse ("." ++ n) = .ok [⟨[.className v], []⟩] ↔ isPlainName n.toList ∧ ¬isBareHyphen v) ∧
    (parse ("#" ++ n) = .ok [⟨[.id v], []⟩] ↔ isPlainName n.toList) ∧
    (parse n = .ok [⟨[.type (lower v)], []⟩] ↔ isPlainName n.toList ∧ ¬isBareHyphen v) := by
  refine ⟨⟨fun hp => ?_, fun ⟨hplain, hv⟩ => ?_⟩, ⟨fun hp => ?_, fun hplain => ?_⟩,
    fun hp => ?_, fun ⟨hplain, hv⟩ => ?_⟩
  · have hc := parse_eq_singleton hp
    rw [String.toList_append] at hc
    obtain ⟨rest, hident, hrest⟩ := complex_className_iff.1 hc
    obtain ⟨-, hname, hv⟩ := ident_eq_ok_iff.1 hident
    obtain ⟨hchars, hne⟩ := name_eq_ok_iff.1 hname
    exact ⟨isPlainName_of_ofText h hchars hne hrest rfl, hv⟩
  · obtain ⟨hchars, hne, hstarts⟩ := nameChars_of_ofText h hplain
    refine parse_of_entriesFrom ?_ ?_ <;> rw [String.toList_append]
    · exact congrArg (consFirst '.') (entriesFrom_of_isPlainName hplain)
    · refine complex_className_iff.2 ⟨[], ident_eq_ok_iff.2 ⟨hstarts, ?_, hv⟩, rfl⟩
      exact name_eq_ok_iff.2 ⟨hchars, hne⟩
  · have hc := parse_eq_singleton hp
    rw [String.toList_append] at hc
    obtain ⟨rest, hname, hrest⟩ := complex_id_iff.1 hc
    obtain ⟨hchars, hne⟩ := name_eq_ok_iff.1 hname
    exact isPlainName_of_ofText h hchars hne hrest rfl
  · obtain ⟨hchars, hne, -⟩ := nameChars_of_ofText h hplain
    refine parse_of_entriesFrom ?_ ?_ <;> rw [String.toList_append]
    · exact congrArg (consFirst '#') (entriesFrom_of_isPlainName hplain)
    · exact complex_id_iff.2 ⟨[], name_eq_ok_iff.2 ⟨hchars, hne⟩, rfl⟩
  · have hc := parse_eq_singleton hp
    obtain ⟨m, rest, hident, hlower, hrest⟩ := (complex_type_iff (skipSpace_of_ofText h)).1 hc
    obtain ⟨-, hname, hm⟩ := ident_eq_ok_iff.1 hident
    obtain ⟨hchars, hne⟩ := name_eq_ok_iff.1 hname
    have hplain := isPlainName_of_ofText h hchars hne hrest hlower
    obtain ⟨hchars', -⟩ := nameChars_of_ofText h hplain
    rw [hchars'] at hchars
    simp only [Except.ok.injEq, Prod.mk.injEq, String.toList_inj] at hchars
    exact ⟨hplain, hchars.1 ▸ hm⟩
  · obtain ⟨hchars, hne, hstarts⟩ := nameChars_of_ofText h hplain
    apply parse_of_entriesFrom (entriesFrom_of_isPlainName hplain)
    refine (complex_type_iff (skipSpace_of_ofText h)).2
      ⟨v, [], ident_eq_ok_iff.2 ⟨hstarts, ?_, hv⟩, rfl, rfl⟩
    exact name_eq_ok_iff.2 ⟨hchars, hne⟩

theorem selector_reads_escaped_point :
    (Lexeme.ofText "a\\.b").map (·.token) = [.ident "a.b", .eof] ∧
      parse ".a\\.b" = .ok [⟨[.className "a.b"], []⟩] := by
  have h : (Lexeme.ofText "a\\.b").map (·.token) = [.ident "a.b", .eof] := by decide +kernel
  exact ⟨h, (selector_reads_ident_iff h).1.2 ⟨by decide, by decide⟩⟩

/-- The digits of a hexadecimal escape are read as they are. -/
theorem selector_misreads_hex_escape :
    ¬∀ n v : String, (Lexeme.ofText n).map (·.token) = [.ident v, .eof] →
      parse ("." ++ n) = .ok [⟨[.className v], []⟩] ∧ parse ("#" ++ n) = .ok [⟨[.id v], []⟩] ∧
        parse n = .ok [⟨[.type (lower v)], []⟩] := by
  intro h
  have hid := parse_eq_singleton (h "\\61" "a" (by decide +kernel)).2.1
  rw [String.toList_append] at hid
  obtain ⟨rest, hname, -⟩ := complex_id_iff.1 hid
  have hchars := (name_eq_ok_iff.1 hname).1
  cases hchars

end

end Restyle.Selector
