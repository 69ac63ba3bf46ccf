import Restyle.Proofs.Html.Reading
import Restyle.Proofs.Text.Letters

/-!
# Steps inside a tag

What one character makes of a tag that is being read, said once for all modes of the machine: in the
name of the tag (`step_tagName`), after its name (`step_named`) and for its attributes
(`step_draft`). An invariant of tags needs no look at the branches of a step beyond these.
-/

namespace Restyle.Html

open Text

/-! ## Letters -/

theorem isTagChar_toLower {c : Char} (hspace : isSpace c = false) (hslash : c ≠ '/')
    (hclose : c ≠ '>') : isTagChar c.toLower := by
  revert hspace hslash hclose
  refine forall_char (p := fun c => isSpace c = false → c ≠ '/' → c ≠ '>' → isTagChar c.toLower)
    (by decide) (fun c hc hspace hslash hclose => ?_) c
  rw [toLower_of_le_toNat hc]
  simp [isTagChar, hspace, hslash, hclose, toLower_of_le_toNat hc]

theorem isAttributeChar_toLower {c : Char} (hspace : isSpace c = false) (hslash : c ≠ '/')
    (hclose : c ≠ '>') (hequals : c ≠ '=') : isAttributeChar c.toLower := by
  have hne : c.toLower ≠ '=' := by
    revert hequals
    refine forall_char (p := fun c => c ≠ '=' → c.toLower ≠ '=') (by decide) (fun c hc h => ?_) c
    rwa [toLower_of_le_toNat hc]
  simp [isAttributeChar, isTagChar_toLower hspace hslash hclose, hne]

/-! ## The tag of a mode -/

/-- The tag that is being read. -/
def Mode.draft? : Mode → Option Draft
  | data | rawText _ _ | tagOpen | endTagOpen => none
  | tagName d | beforeAttributeName d | attributeName d | afterAttributeName d
  | beforeAttributeValue d | quotedValue d _ | unquotedValue d | afterQuotedValue d
  | selfClosing d => some d

/-- The tag that is being read, once its name is read. -/
def Mode.named? : Mode → Option Draft
  | tagName _ => none
  | m => m.draft?

theorem Mode.draft?_of_named? {m : Mode} {d : Draft} (h : m.named? = some d) :
    m.draft? = some d := by
  cases m
  case tagName => cases h
  all_goals exact h

/-- A tag that is being read is in its name or after it. -/
theorem Mode.eq_tagName_or_named? {m : Mode} {d : Draft} (h : m.draft? = some d) :
    m = .tagName d ∨ m.named? = some d := by
  cases m
  case tagName =>
    cases h
    exact .inl rfl
  all_goals exact .inr h

/-! ## Steps -/

/-- What a character makes of a tag whose name is read. -/
inductive Draft.Next (d : Draft) : Draft → Prop where
  /-- Nothing new. -/
  | same : d.Next d
  /-- An attribute starts. -/
  | start : d.Next d.startAttribute
  /-- The name of the attribute goes on. -/
  | name {c : Char} (hc : isAttributeChar c.toLower) : d.Next (d.pushAttributeName c)
  /-- The value of the attribute goes on. -/
  | value (c : Char) : d.Next (d.pushAttributeValue c)

/-- A step in the name of a tag ends the name, ends the tag at a `>`, or goes on with the name. -/
theorem step_tagName (d : Draft) (c : Char) (r : List Char) :
    ((isSpace c ∨ c = '/') ∧
        ∃ m : Mode, m.named? = some d ∧ (Mode.tagName d).step c r = ⟨[], m, r⟩) ∨
      (c = '>' ∧ (Mode.tagName d).step c r = d.emit r) ∨
      (isTagChar c.toLower ∧ (Mode.tagName d).step c r = ⟨[], .tagName (d.pushName c), r⟩) := by
  simp only [Mode.step]
  split
  · rename_i hspace
    exact .inl ⟨.inl hspace, _, rfl, rfl⟩
  · rename_i hspace
    split
    · rename_i hslash
      exact .inl ⟨.inr hslash, _, rfl, rfl⟩
    · rename_i hslash
      split
      · rename_i hclose
        exact .inr (.inl ⟨hclose, rfl⟩)
      · rename_i hclose
        exact .inr (.inr ⟨isTagChar_toLower (by simpa using hspace) hslash hclose, rfl⟩)

/-- A step after the name of a tag goes on with the tag, or gives it out at a `>`. -/
theorem step_named {m : Mode} {d : Draft} (h : m.named? = some d) (c : Char) (r : List Char) :
    (∃ m' d' s, m.step c r = ⟨[], m', s⟩ ∧ m'.named? = some d' ∧ d.Next d') ∨
      c = '>' ∧ ∃ closes, m.step c r = { d with selfClosing := closes }.emit r := by
  cases m <;> simp only [Mode.named?, Mode.draft?, Option.some.injEq, reduceCtorEq] at h <;>
    subst h <;> simp only [Mode.step]
  case attributeName d =>
    split
    · exact .inl ⟨_, _, _, rfl, rfl, .same⟩
    · rename_i hspace
      split
      · exact .inl ⟨_, _, _, rfl, rfl, .same⟩
      · rename_i hdelimiter
        split
        · exact .inl ⟨_, _, _, rfl, rfl, .same⟩
        · rename_i hequals
          rw [not_or] at hdelimiter
          exact .inl ⟨_, _, _, rfl, rfl, .name (isAttributeChar_toLower (by simpa using hspace)
            hdelimiter.1 hdelimiter.2 hequals)⟩
  all_goals
    repeat' split
  -- A branch leaves the tag, starts an attribute, goes on with a value, or ends the tag.
  all_goals
    first
      | exact .inl ⟨_, _, _, rfl, rfl, .same⟩
      | exact .inl ⟨_, _, _, rfl, rfl, .start⟩
      | exact .inl ⟨_, _, _, rfl, rfl, .value _⟩
      | exact .inr ⟨‹_›, _, rfl⟩

theorem Draft.Next.attributes {d d' : Draft} (h : d.Next d') :
    d'.attributes = d.attributes ∨ d'.attributes = d.finishAttribute.attributes := by
  cases h with
  | start => exact .inr rfl
  | same | name _ | value _ => exact .inl rfl

/-- A tag keeps its name and its kind. -/
theorem Draft.Next.keeps {d d' : Draft} (h : d.Next d') :
    d'.isEnd = d.isEnd ∧ d'.name = d.name := by
  cases h with
  | start =>
    obtain ⟨hend, hname, -⟩ := finishAttribute_same d
    exact ⟨hend, hname⟩
  | same | name _ | value _ => exact ⟨rfl, rfl⟩

/-- A step in a tag goes on with the tag, of which at most an attribute is finished, or gives the
tag out at a `>`. -/
theorem step_draft {m : Mode} {d : Draft} (h : m.draft? = some d) (c : Char) (r : List Char) :
    ((m.step c r).tokens = [] ∧ ∃ d', (m.step c r).mode.draft? = some d' ∧
        (d'.attributes = d.attributes ∨ d'.attributes = d.finishAttribute.attributes)) ∨
      c = '>' ∧ ∃ closes, m.step c r = { d with selfClosing := closes }.emit r := by
  rcases Mode.eq_tagName_or_named? h with rfl | hnamed
  · rcases step_tagName d c r with ⟨-, m', hm', hstep⟩ | ⟨hclose, hstep⟩ | ⟨-, hstep⟩
    · rw [hstep]
      exact .inl ⟨rfl, d, Mode.draft?_of_named? hm', .inl rfl⟩
    · exact .inr ⟨hclose, d.selfClosing, hstep⟩
    · rw [hstep]
      exact .inl ⟨rfl, _, rfl, .inl rfl⟩
  · rcases step_named hnamed c r with ⟨m', d', s, hstep, hm', hnext⟩ | hend
    · rw [hstep]
      exact .inl ⟨rfl, d', Mode.draft?_of_named? hm', hnext.attributes⟩
    · exact .inr hend

end Restyle.Html
