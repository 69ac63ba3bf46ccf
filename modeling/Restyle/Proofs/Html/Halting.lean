import Restyle.Proofs.Html.Reading

/-!
# The machine halts

The machine works in turns. Text that is taken as it stands is read in one turn; any other turn is a
step, which looks at the next character and takes it or leaves it to the turn after it. What a turn
can do to the text that remains is said once (`rest_of_turn?`), and both bounds follow from it: a
measure gets less with each turn, and so does the number of turns that may still handle a character
(`Turn.allowance_add_le`). Main statement: the machine halts on every text, after at most three
turns for each character, and no character is handled in more than three of them (`turns_halt`).
-/

namespace Restyle.Html

/-! ## Turns -/

/-- Where the machine stands: its mode and the text that remains. -/
structure State where
  /-- The mode. -/
  mode : Mode
  /-- The text that remains. -/
  rest : List Char

/-- Where a step leaves the machine. -/
def Step.next (st : Step) : State :=
  ⟨st.mode, st.rest⟩

namespace State

/-- Where the machine starts. -/
def start (h : String) : State :=
  ⟨.data, h.toList⟩

/-- One turn. Text that is taken as it stands is read up to its end tag; in any other mode the next
character is looked at, and there is no turn when none is left. -/
def turn? (q : State) : Option Step :=
  match q.mode, q.rest with
  | .rawText tag decodes, s =>
    some ⟨(rawText tag.toList decodes s).1, .data, (rawText tag.toList decodes s).2⟩
  | _, [] => none
  | m, c :: r => some (m.step c r)

/-- Three times the length of the text that remains, and how often its first character can still be
left to the next turn. -/
def measure (q : State) : Nat :=
  3 * q.rest.length + q.mode.wait q.rest

end State

/-- A turn with the place where it was taken. -/
structure Turn where
  /-- Where the machine stood. -/
  before : State
  /-- What the turn gave. -/
  step : Step

/-- Whether a turn handles the character with `k` characters after it: it looks at that character,
or takes it along with others. -/
def Turn.handles (k : Nat) (t : Turn) : Bool :=
  t.before.rest.length = k + 1 || (t.step.rest.length ≤ k && k < t.before.rest.length)

/-- The turns that lead from one place to another. -/
inductive Turns : State → List Turn → State → Prop where
  /-- No turn at all. -/
  | nil {q : State} : Turns q [] q
  /-- A turn, and the turns after it. -/
  | cons {q last : State} {st : Step} {ts : List Turn} (first : q.turn? = some st)
      (rest : Turns st.next ts last) : Turns q (⟨q, st⟩ :: ts) last

section

variable {q : State} {st : Step}

/-- A turn reads text as it stands, or it is a step at the next character. -/
theorem turn_cases (h : q.turn? = some st) :
    (∃ tag decodes, q.mode = .rawText tag decodes ∧
        st = ⟨(rawText tag.toList decodes q.rest).1, .data,
          (rawText tag.toList decodes q.rest).2⟩) ∨
      (∀ tag decodes, q.mode ≠ .rawText tag decodes) ∧
        ∃ c r, q.rest = c :: r ∧ st = q.mode.step c r := by
  obtain ⟨m, s⟩ := q
  unfold State.turn? at h
  dsimp only at h
  split at h
  · exact .inl ⟨_, _, rfl, (Option.some.inj h).symm⟩
  · cases h
  · rename_i c r hmode
    exact .inr ⟨hmode, c, r, rfl, (Option.some.inj h).symm⟩

/-- A turn takes something off the text, or leaves all of it to a mode that waits less. -/
theorem rest_of_turn? (h : q.turn? = some st) :
    st.rest.length < q.rest.length ∨
      st.rest = q.rest ∧ st.mode.wait st.rest < q.mode.wait q.rest := by
  rcases turn_cases h with ⟨tag, decodes, hmode, rfl⟩ | ⟨-, c, r, hrest, rfl⟩
  · have hsuffix := rawText_suffix tag.toList decodes q.rest
    rcases hsuffix.length_le.lt_or_eq with hlt | heq
    · exact .inl hlt
    · refine .inr ⟨hsuffix.eq_of_length heq, ?_⟩
      rw [hmode]
      exact Nat.zero_lt_one
  · rw [hrest]
    rcases q.mode.step_rest c r with hsuffix | ⟨heq, hlt⟩
    · exact .inl (Nat.lt_succ_of_le hsuffix.length_le)
    · rw [heq]
      exact .inr ⟨rfl, hlt⟩

theorem measure_lt_of_turn? (h : q.turn? = some st) : st.next.measure < q.measure := by
  have hwait := st.mode.wait_le_two st.rest
  show 3 * st.rest.length + st.mode.wait st.rest < 3 * q.rest.length + q.mode.wait q.rest
  rcases rest_of_turn? h with hlt | ⟨heq, hlt⟩
  · omega
  · rw [heq] at hlt ⊢
    omega

/-! ## The tokens of a text are what the turns give -/

theorem run_of_turn? (h : q.turn? = some st) :
    run q.mode q.rest = st.tokens ++ run st.next.mode st.next.rest := by
  rcases turn_cases h with ⟨tag, decodes, hmode, rfl⟩ | ⟨hmode, c, r, hrest, rfl⟩
  · rw [hmode, run_rawText]
    rfl
  · rw [hrest, run_cons hmode]
    rfl

theorem run_of_turn?_eq_none (h : q.turn? = none) : run q.mode q.rest = q.mode.finish := by
  obtain ⟨m, s⟩ := q
  unfold State.turn? at h
  dsimp only at h ⊢
  split at h
  · cases h
  · rename_i hmode
    rw [run.eq_2 _ hmode]
  · cases h

end

variable {q last : State} {ts : List Turn}

theorem Turns.length_add_measure_le (h : Turns q ts last) :
    ts.length + last.measure ≤ q.measure := by
  induction h with
  | nil => simp
  | cons first rest ih =>
    have hlt := measure_lt_of_turn? first
    rw [List.length_cons]
    omega

/-- From everywhere the machine comes to a place without a turn. -/
theorem exists_turns (q : State) :
    ∃ ts last, Turns q ts last ∧ last.turn? = none ∧
      run q.mode q.rest = ts.flatMap (·.step.tokens) ++ last.mode.finish := by
  induction hn : q.measure using Nat.strongRecOn generalizing q with
  | ind n ih =>
    subst hn
    cases hturn : q.turn? with
    | none => exact ⟨[], q, .nil, hturn, run_of_turn?_eq_none hturn⟩
    | some st =>
      obtain ⟨ts, last, hturns, hlast, hrun⟩ := ih _ (measure_lt_of_turn? hturn) st.next rfl
      refine ⟨_, last, .cons hturn hturns, hlast, ?_⟩
      rw [run_of_turn? hturn, hrun, List.flatMap_cons, List.append_assoc]

/-! ## How often a character is handled -/

/-- How many turns from here on may handle the character with `k` characters after it. -/
def State.allowance (k : Nat) (q : State) : Nat :=
  if q.rest.length ≤ k then 0
  else if q.rest.length = k + 1 then q.mode.wait q.rest + 1
  else 3

theorem State.allowance_le_three (k : Nat) (q : State) : q.allowance k ≤ 3 := by
  have hwait := q.mode.wait_le_two q.rest
  unfold allowance
  split_ifs <;> omega

/-- A turn that handles a character uses up one of the turns that may. -/
theorem Turn.allowance_add_le {st : Step} (h : q.turn? = some st) (k : Nat) :
    (if (⟨q, st⟩ : Turn).handles k then 1 else 0) + st.next.allowance k ≤ q.allowance k := by
  have hwait := st.mode.wait_le_two st.rest
  have hturn := rest_of_turn? h
  have hallowance : st.next.allowance k =
      if st.rest.length ≤ k then 0
      else if st.rest.length = k + 1 then st.mode.wait st.rest + 1
      else 3 := rfl
  rw [hallowance, State.allowance]
  simp only [handles, Bool.or_eq_true, Bool.and_eq_true, decide_eq_true_eq]
  rcases hturn with hlt | ⟨heq, hlt⟩
  · split_ifs <;> omega
  · simp only [heq] at hlt ⊢
    split_ifs <;> omega

theorem Turns.countP_handles_add_le (h : Turns q ts last) (k : Nat) :
    ts.countP (Turn.handles k) + last.allowance k ≤ q.allowance k := by
  induction h with
  | nil => simp
  | cons first rest ih =>
    have hfirst := Turn.allowance_add_le first k
    rw [List.countP_cons]
    omega

/-- Every turn lowers the measure, so the machine halts on every text, with the tokens of the text;
no turns are more than three for each character, and no character is handled in more than three. -/
theorem turns_halt (h : String) :
    (∀ q st, State.turn? q = some st → st.next.measure < q.measure) ∧
      (∃ ts last, Turns (.start h) ts last ∧ last.turn? = none ∧
        tokens h = ts.flatMap (·.step.tokens) ++ last.mode.finish) ∧
      ∀ ts last, Turns (.start h) ts last →
        ts.length ≤ 3 * h.length ∧ ∀ k, ts.countP (Turn.handles k) ≤ 3 := by
  refine ⟨fun q st => measure_lt_of_turn?, exists_turns (.start h), fun ts last hturns => ⟨?_, ?_⟩⟩
  · have hle := hturns.length_add_measure_le
    have hstart : (State.start h).measure = 3 * h.length := rfl
    omega
  · intro k
    have hle := hturns.countP_handles_add_le k
    have hthree := (State.start h).allowance_le_three k
    omega

/-- Three turns on one character: after a `/` in a tag, an `=` is the name of an attribute. -/
example (d : Draft) : ∃ ts last, Turns ⟨.selfClosing d, ['=']⟩ ts last ∧
    ts.countP (Turn.handles 0) = 3 :=
  ⟨_, _, .cons rfl (.cons rfl (.cons rfl .nil)), rfl⟩

end Restyle.Html
