import Restyle.Proofs.Selector.Balance
import Restyle.Proofs.Selector.Matching

/-!
# Lists of selectors put side by side

A text that is cut into entries which can all be read ends outside of strings and groups, since each
entry is balanced. A comma after it starts a new entry, and so two lists with a comma between them
are one list. Main statement: the selectors of two texts that can be read, one after the other, are
those of the joined text, and that selects what one of the two selects (`parse_append_comma`).
-/

namespace Restyle.Selector

open EntryState

variable {st st' : EntryState} {s e : List Char} {es : List (List Char)} {d : Nat}

/-! ## The state after a text -/

/-- The state after a text, whatever entries it goes through. -/
def EntryState.after (st : EntryState) (s : List Char) : EntryState :=
  s.foldl next st

theorem EntryState.after_append (as bs : List Char) :
    st.after (as ++ bs) = (st.after as).after bs :=
  List.foldl_append

theorem EntryState.after_of_opened {before after : Option Char}
    (h : opened (before, st) s = some (after, st')) : st.after s = st' := by
  induction s generalizing before st with
  | nil =>
    cases h
    rfl
  | cons c s ih =>
    rw [opened_cons] at h
    split_ifs at h
    exact ih h

theorem IsBalanced.after_eq (h : IsBalanced s) : (level d).after s = level d :=
  after_of_opened (h d none)

/-- Balanced entries with commas between them end where they start. -/
theorem after_intercalate (h : ∀ e ∈ es, IsBalanced e) :
    (level d).after ([','].intercalate es) = level d := by
  induction es with
  | nil => rfl
  | cons e es ih =>
    rw [List.forall_mem_cons] at h
    have hcomma : (level d).after [','] = level d := rfl
    cases es with
    | nil => simpa using h.1.after_eq
    | cons e' es => rw [List.intercalate_cons_cons, after_append, after_append, h.1.after_eq,
        hcomma, ih h.2]

/-! ## Entries -/

theorem intercalate_consFirst (c : Char) (h : es ≠ []) :
    [','].intercalate (consFirst c es) = c :: [','].intercalate es := by
  cases es with
  | nil => exact absurd rfl h
  | cons e es => cases es <;> simp [consFirst]

/-- The entries with commas between them are the text. -/
theorem intercalate_entriesFrom (st : EntryState) (s : List Char) :
    [','].intercalate (entriesFrom st s) = s := by
  induction s generalizing st with
  | nil => rfl
  | cons c s ih =>
    have hne := entriesFrom_ne_nil (st.next c) s
    rw [entriesFrom]
    split_ifs with hcomma
    · obtain rfl : c = ',' := by
        simp only [separates, Bool.and_eq_true, beq_iff_eq] at hcomma
        exact hcomma.2
      rw [List.intercalate_cons_of_ne_nil hne, ih]
      rfl
    · rw [intercalate_consFirst c hne, ih]

theorem consFirst_append (c : Char) (h : es ≠ []) (fs : List (List Char)) :
    consFirst c (es ++ fs) = consFirst c es ++ fs := by
  cases es with
  | nil => exact absurd rfl h
  | cons e es => rfl

/-- A comma outside of strings and groups starts a new entry. -/
theorem entriesFrom_append_comma (h : st.after s = .start) (r : List Char) :
    entriesFrom st (s ++ ',' :: r) = entriesFrom st s ++ entriesFrom .start r := by
  induction s generalizing st with
  | nil =>
    obtain rfl : st = .start := h
    rfl
  | cons c s ih =>
    have hrest : entriesFrom (st.next c) (s ++ ',' :: r) = _ := ih h
    rw [List.cons_append, entriesFrom, entriesFrom, hrest]
    split_ifs
    · rfl
    · exact consFirst_append c (entriesFrom_ne_nil _ _) _

/-! ## Lists that can be read -/

theorem exists_complex_of_mapM {cs : List Complex} (h : es.mapM complex = .ok cs) (he : e ∈ es) :
    ∃ c, complex e = .ok c := by
  induction es generalizing cs with
  | nil => cases he
  | cons e' es ih =>
    rw [List.mapM_cons] at h
    obtain ⟨c, hc, h⟩ := exists_of_bind_eq_ok h
    obtain ⟨cs', hcs', -⟩ := exists_of_bind_eq_ok h
    rcases List.mem_cons.1 he with rfl | he
    · exact ⟨c, hc⟩
    · exact ih hcs' he

/-- A list that can be read ends where it starts. -/
theorem after_of_parse {a : String} {cs : List Complex} (h : parse a = .ok cs) :
    EntryState.start.after a.toList = .start := by
  have hbalanced : ∀ e ∈ entriesFrom .start a.toList, IsBalanced e := fun e he =>
    (exists_complex_of_mapM h he).elim fun _ hc => isBalanced_of_complex hc
  have hafter := after_intercalate (d := 0) hbalanced
  rwa [intercalate_entriesFrom] at hafter

/-- What follows a list that can be read is read on its own, with its errors. -/
theorem parse_append_comma_of_ok {a : String} {cs : List Complex} (h : parse a = .ok cs)
    (b : String) : parse (a ++ "," ++ b) = (parse b).map (cs ++ ·) := by
  have hlist : (a ++ "," ++ b).toList = a.toList ++ ',' :: b.toList := by simp
  rw [parse, hlist, entriesFrom_append_comma (after_of_parse h), List.mapM_append]
  change (do let cs ← parse a; let cs' ← parse b; pure (cs ++ cs')) = _
  rw [h]
  rfl

/-- What one of two lists selects is what they select together. -/
theorem mem_select_append_iff {d : Dom} {cs cs' : List Complex} {id : NodeId} :
    id ∈ select d (cs ++ cs') ↔ id ∈ select d cs ∨ id ∈ select d cs' := by
  simp only [select, List.mem_filter, List.any_append, Bool.or_eq_true, and_or_left]

/-- Two lists that can be read are one list with a comma between them. It has the selectors of the
first and then those of the second, and it selects the elements that one of them selects, each once
and in tree order. -/
theorem parse_append_comma {a b : String} {cs cs' : List Complex} (ha : parse a = .ok cs)
    (hb : parse b = .ok cs') :
    parse (a ++ "," ++ b) = .ok (cs ++ cs') ∧
      ∀ d : Dom, d.WellFormed → ∃ ids ids' joined : List NodeId,
        d.selectAll a = .ok ids ∧ d.selectAll b = .ok ids' ∧
          d.selectAll (a ++ "," ++ b) = .ok joined ∧
          (∀ id, id ∈ joined ↔ id ∈ ids ∨ id ∈ ids') ∧ joined.Nodup ∧
          joined.Pairwise d.Before := by
  have hjoined : parse (a ++ "," ++ b) = .ok (cs ++ cs') := by
    rw [parse_append_comma_of_ok ha, hb]
    rfl
  refine ⟨hjoined, fun d hd => ⟨select d cs, select d cs', select d (cs ++ cs'), ?_, ?_, ?_,
    fun _ => mem_select_append_iff, nodup_select hd _, pairwise_before_select hd _⟩⟩
  · rw [Dom.selectAll, ha]
    rfl
  · rw [Dom.selectAll, hb]
    rfl
  · rw [Dom.selectAll, hjoined]
    rfl

/-- A comma in a negation and a comma in a string separate nothing, in a list of two entries
either. -/
theorem parse_append_comma_nested :
    let d := (Dom.empty.addChild 0 (.element ⟨"p", []⟩)).addChild 1 (.element ⟨"b", [⟨"t", ","⟩]⟩)
    let cs : List Complex := [⟨[.type "p", .not [[.type "b"], [.className "x"]]], []⟩]
    let cs' : List Complex :=
      [⟨[.attributeTest ⟨"t", .equals, ",", false⟩], []⟩, ⟨[.type "p"], []⟩]
    parse "p:not(b,.x)" = .ok cs ∧ parse "[t=','],p" = .ok cs' ∧ d.WellFormed ∧
      parse ("p:not(b,.x)" ++ "," ++ "[t=','],p") = .ok (cs ++ cs') ∧
      ∃ joined : List NodeId, d.selectAll ("p:not(b,.x)" ++ "," ++ "[t=','],p") = .ok joined ∧
        1 ∈ joined ∧ 2 ∈ joined ∧ joined.Nodup := by
  intro d cs cs'
  have hd : d.WellFormed := (Dom.WellFormed.empty.addChild (by decide) _).addChild (by decide) _
  have ha : parse "p:not(b,.x)" = .ok cs := by with_unfolding_all rfl
  have hb : parse "[t=','],p" = .ok cs' := by with_unfolding_all rfl
  obtain ⟨hjoined, hselect⟩ := parse_append_comma ha hb
  obtain ⟨ids, ids', joined, hids, hids', hall, hmem, hnodup, -⟩ := hselect d hd
  rw [Dom.selectAll, ha] at hids
  rw [Dom.selectAll, hb] at hids'
  cases hids
  cases hids'
  exact ⟨ha, hb, hd, hjoined, joined, hall, (hmem 1).2 (.inl (by decide)),
    (hmem 2).2 (.inr (by decide)), hnodup⟩

end Restyle.Selector
