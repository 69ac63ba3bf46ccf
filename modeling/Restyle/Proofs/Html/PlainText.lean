import Restyle.Proofs.Html.Lexed
import Restyle.Proofs.Text.Runs

/-!
# Text that is written as it stands

The text of a `plaintext` element is written as it stands, but read as markup. `startsMarkup` says
where that goes wrong: at a reference, or at a `<` that starts a tag or a comment. Elsewhere a
character is read as itself (`run_plain_cons`). A text before a tag that starts that way is read as
fewer characters than it has (`leading_run`).
-/

namespace Restyle.Html

open Text

/-! ## References before a tag -/

namespace Reference

theorem dropSemicolon_append_lt (s t : List Char) :
    dropSemicolon (s ++ '<' :: t) = dropSemicolon s ++ '<' :: t := by
  cases s with
  | nil => rfl
  | cons c s =>
    by_cases hc : c = ';'
    · subst hc
      rfl
    · rw [List.cons_append, dropSemicolon.eq_2, dropSemicolon.eq_2, List.cons_append]
      all_goals
        intro r hr
        exact hc (List.cons.inj hr).1

/-- What is found comes with the text after it, to which the rest is added. -/
def extend (t : List Char) (p : Char × List Char) : Char × List Char :=
  (p.1, p.2 ++ '<' :: t)

theorem ofDigits?_append_lt {base : Nat} {isDigit : Char → Bool} (hlt : isDigit '<' = false)
    (s t : List Char) :
    ofDigits? base isDigit (s ++ '<' :: t) = (ofDigits? base isDigit s).map (extend t) := by
  unfold ofDigits?
  rw [takeWhile_append_stop hlt, dropWhile_append_stop hlt, dropSemicolon_append_lt]
  dsimp only
  split_ifs <;> rfl

theorem ofNumber?_append_lt (s t : List Char) :
    ofNumber? (s ++ '<' :: t) = (ofNumber? s).map (extend t) := by
  cases s with
  | nil => rfl
  | cons c s =>
    by_cases hx : c = 'x' ∨ c = 'X'
    · rcases hx with rfl | rfl
      · exact ofDigits?_append_lt rfl s t
      · exact ofDigits?_append_lt rfl s t
    · rw [not_or] at hx
      rw [List.cons_append, ofNumber?.eq_3, ofNumber?.eq_3]
      · exact ofDigits?_append_lt rfl (c :: s) t
      all_goals
        intro r hr
        first | exact hx.1 (List.cons.inj hr).1 | exact hx.2 (List.cons.inj hr).1

theorem ofNamed?_append_lt (inAttribute : Bool) (s t : List Char) :
    ofNamed? inAttribute (s ++ '<' :: t) = (ofNamed? inAttribute s).map (extend t) := by
  have hname := takeWhile_take_append_stop (p := Char.isAlphanum) (d := '<') rfl 32 s t
  have hle := length_takeWhile_take_le (p := Char.isAlphanum) 32 s
  unfold ofNamed?
  rw [hname]
  dsimp only
  rw [List.drop_append_of_le_length hle]
  generalize (s.take 32).takeWhile Char.isAlphanum = name
  cases ofName? (String.ofList name) with
  | none => rfl
  | some c =>
    simp only [Option.bind_eq_bind, Option.bind_some]
    cases s.drop name.length with
    | nil => cases h : inAttribute || !unterminated.contains (String.ofList name) <;> rfl
    | cons d r =>
      by_cases hd : d = ';'
      · subst hd
        rfl
      · cases h : inAttribute || !unterminated.contains (String.ofList name) <;>
          simp [hd, extend]

theorem length_ofNamed? {inAttribute : Bool} {s : List Char} {p : Char × List Char}
    (h : ofNamed? inAttribute s = some p) : p.2.length < s.length := by
  have hname : (s.take 32).takeWhile Char.isAlphanum ≠ [] := by
    intro hnil
    have hnone : ofName? (String.ofList []) = none := rfl
    simp [ofNamed?, hnil, hnone] at h
  have hdrop : (s.drop ((s.take 32).takeWhile Char.isAlphanum).length).length < s.length := by
    have hpos := List.length_pos_iff.2 hname
    have hle := length_takeWhile_take_le (p := Char.isAlphanum) 32 s
    rw [List.length_drop]
    omega
  refine Nat.lt_of_le_of_lt ?_ hdrop
  unfold ofNamed? at h
  cases hc : ofName? (String.ofList ((s.take 32).takeWhile Char.isAlphanum)) with
  | none => simp [hc] at h
  | some c =>
    simp only [hc, Option.bind_eq_bind, Option.bind_some] at h
    split at h
    · rename_i r hr
      cases h
      rw [hr]
      exact Nat.le_succ _
    · split at h
      · cases h
      · cases h
        exact Nat.le_refl _

/-- Reading a reference takes a character at least, unless there is none. -/
theorem read_cases (inAttribute : Bool) (s : List Char) :
    read inAttribute s = ('&', s) ∨ (read inAttribute s).2.length < s.length := by
  unfold read
  dsimp only
  split
  · rename_i r
    cases h : ofNumber? r with
    | none => exact .inl rfl
    | some p => exact .inr (Nat.lt_succ_of_le (ofNumber?_suffix h).length_le)
  · cases h : ofNamed? inAttribute s with
    | none => exact .inl rfl
    | some p => exact .inr (length_ofNamed? h)

/-- A reference is read before a `<` as at the end of a text. -/
theorem read_append_lt (inAttribute : Bool) (s t : List Char) :
    read inAttribute (s ++ '<' :: t) = extend t (read inAttribute s) := by
  have hgetD : ∀ o : Option (Char × List Char),
      (o.map (extend t)).getD ('&', s ++ '<' :: t) = extend t (o.getD ('&', s)) := by
    intro o
    cases o <;> rfl
  unfold read
  dsimp only
  rw [← hgetD]
  congr 1
  split
  · rename_i r hr
    cases s with
    | nil => cases hr
    | cons c s =>
      cases hr
      exact ofNumber?_append_lt s t
  · rename_i hne
    rw [ofNamed?_append_lt]
    split
    · exact absurd rfl (hne _)
    · rfl

end Reference

/-! ## Text before a tag -/

/-- Whether a text that comes before a tag would be read as something else from its front on: a
reference, a tag or a comment. -/
def startsMarkup : List Char → Bool
  | '&' :: r => Reference.read false r != ('&', r)
  | '<' :: c :: _ => c.isAlpha || c == '!' || c == '/' || c == '?'
  | _ => false

theorem run_plain_cons {c : Char} {cs : List Char} (h : startsMarkup (c :: cs) = false)
    (u : List Char) :
    run .data (c :: (cs ++ '<' :: u)) = .character c :: run .data (cs ++ '<' :: u) := by
  by_cases hamp : c = '&'
  · subst hamp
    have hread : Reference.read false cs = ('&', cs) := by simpa [startsMarkup] using h
    rw [run_data_reference, Reference.read_append_lt, hread]
    rfl
  · by_cases hlt : c = '<'
    · subst hlt
      have hnext : ∃ d r, cs ++ '<' :: u = d :: r ∧
          (d.isAlpha || d == '!' || d == '/' || d == '?') = false := by
        cases cs with
        | nil => exact ⟨'<', u, rfl, rfl⟩
        | cons d cs => exact ⟨d, _, rfl, h⟩
      obtain ⟨d, r, hcons, hd⟩ := hnext
      simp only [Bool.or_eq_false_iff, beq_eq_false_iff_ne, ne_eq] at hd
      obtain ⟨⟨⟨halpha, hbang⟩, hslash⟩, hquestion⟩ := hd
      rw [hcons, run_cons (by simp)]
      show run .tagOpen (d :: r) = _
      rw [run_cons (by simp)]
      simp [Mode.step, halpha, hbang, hslash, hquestion]
    · exact run_data_of_ne hamp hlt _

/-- How many characters some tokens start with. -/
def leading : List Token → Nat
  | .character _ :: ts => leading ts + 1
  | _ => 0

/-- A mode inside a tag. -/
def Mode.InTag : Mode → Prop
  | data | rawText _ _ | tagOpen | endTagOpen => False
  | _ => True

theorem leading_emit (d : Draft) (r : List Char) (ts : List Token) :
    leading ((d.emit r).tokens ++ ts) = 0 := by
  unfold Draft.emit Draft.token
  cases d.isEnd <;> rfl

theorem Mode.inTag_iff {m : Mode} : m.InTag ↔ ∃ d, m.draft? = some d := by
  cases m <;> simp [Mode.InTag, Mode.draft?]

theorem step_inTag {m : Mode} (h : m.InTag) (c : Char) (r : List Char) :
    (m.step c r).tokens = [] ∧ (m.step c r).mode.InTag ∨
      ∀ ts, leading ((m.step c r).tokens ++ ts) = 0 := by
  obtain ⟨d, hm⟩ := Mode.inTag_iff.1 h
  rcases step_draft hm c r with ⟨htokens, d', hd', -⟩ | ⟨-, closes, hstep⟩
  · exact .inl ⟨htokens, Mode.inTag_iff.2 ⟨d', hd'⟩⟩
  · rw [hstep]
    exact .inr (leading_emit _ r)

theorem leading_inTag {m : Mode} (h : m.InTag) (s : List Char) : leading (run m s) = 0 := by
  fun_induction run m s with
  | case1 => cases h
  | case2 m hm => cases m <;> first | rfl | cases h
  | case3 m c r hm hlt ih =>
    rcases step_inTag h c r with ⟨htokens, hinTag⟩ | htokens
    · rw [htokens]
      exact ih hinTag
    · exact htokens _

theorem leading_declaration (s : List Char) :
    leading (run .data ('<' :: '!' :: s)) = 0 := by
  rw [run_declaration]
  unfold declaration
  split
  · rfl
  · split <;> rfl

theorem leading_tagOpen {c : Char} (h : c.isAlpha || c == '?') (s : List Char) :
    leading (run .data ('<' :: c :: s)) = 0 := by
  have hbang : c ≠ '!' := by
    rintro rfl
    exact absurd h (by decide)
  have hslash : c ≠ '/' := by
    rintro rfl
    exact absurd h (by decide)
  rw [run_cons (by simp)]
  show leading (run .tagOpen (c :: s)) = 0
  rw [run_cons (by simp)]
  simp only [Mode.step, hbang, hslash, if_false]
  split
  · exact leading_inTag (m := .tagName _) trivial _
  · rename_i halpha
    rw [if_pos (by simpa [halpha] using h)]
    rfl

theorem leading_endTagOpen (c : Char) (s : List Char) :
    leading (run .data ('<' :: '/' :: c :: s)) = if c = '>' then leading (run .data s) else 0 := by
  rw [run_cons (by simp)]
  show leading (run .tagOpen ('/' :: c :: s)) = _
  rw [run_cons (by simp)]
  show leading (run .endTagOpen (c :: s)) = _
  rw [run_cons (by simp)]
  simp only [Mode.step]
  split
  · rename_i halpha
    rw [if_neg]
    · exact leading_inTag (m := .tagName _) trivial _
    · rintro rfl
      exact absurd halpha (by decide)
  · split
    · rfl
    · rfl

/-- A text in which markup starts gives fewer characters than it has, before a tag. -/
theorem leading_run {u : List Char} (hu : leading (run .data ('<' :: u)) = 0) (cs : List Char) :
    leading (run .data (cs ++ '<' :: u)) ≤ cs.length ∧
      (startsMarkup cs → leading (run .data (cs ++ '<' :: u)) < cs.length) := by
  induction hn : cs.length using Nat.strongRecOn generalizing cs with
  | ind n ih =>
    subst hn
    cases cs with
    | nil => exact ⟨Nat.le_of_eq hu, fun h => by cases h⟩
    | cons c cs =>
      rw [List.cons_append]
      by_cases hstart : startsMarkup (c :: cs)
      · suffices hlt : leading (run .data (c :: (cs ++ '<' :: u))) < (c :: cs).length from
          ⟨Nat.le_of_lt hlt, fun _ => hlt⟩
        by_cases hamp : c = '&'
        · subst hamp
          have hread : (Reference.read false cs).2.length < cs.length := by
            apply (Reference.read_cases false cs).resolve_left
            intro heq
            simp [startsMarkup, heq] at hstart
          have := (ih _ (Nat.lt_succ_of_lt hread) (Reference.read false cs).2 rfl).1
          rw [run_data_reference, Reference.read_append_lt]
          show leading (run .data ((Reference.read false cs).2 ++ '<' :: u)) + 1 < cs.length + 1
          omega
        · unfold startsMarkup at hstart
          split at hstart
          · rename_i heq
            exact (hamp (List.cons.inj heq).1).elim
          · rename_i d ds heq
            simp only [Bool.or_eq_true, beq_iff_eq] at hstart
            obtain ⟨rfl, rfl⟩ := List.cons.inj heq
            rw [List.cons_append]
            rcases hstart with ((halpha | rfl) | rfl) | rfl
            · rw [leading_tagOpen (by rw [halpha]; rfl)]
              exact Nat.succ_pos _
            · rw [leading_declaration]
              exact Nat.succ_pos _
            · cases ds with
              | nil =>
                rw [List.nil_append, leading_endTagOpen]
                exact Nat.succ_pos _
              | cons e es =>
                rw [List.cons_append, leading_endTagOpen]
                split
                · have := (ih _ (by simp only [List.length_cons]; omega) es rfl).1
                  simp only [List.length_cons]
                  omega
                · exact Nat.succ_pos _
            · rw [leading_tagOpen rfl]
              exact Nat.succ_pos _
          · cases hstart
      · have hplain := Bool.eq_false_iff.2 hstart
        have hle := (ih _ (Nat.lt_succ_self _) cs rfl).1
        rw [run_plain_cons hplain]
        exact ⟨Nat.succ_le_succ hle, fun h => absurd h hstart⟩

end Restyle.Html
