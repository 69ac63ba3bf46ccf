import Restyle.Proofs.Html.Nesting
import Restyle.Proofs.Text.Search

/-!
# Streams of tokens

`Regular` says how the tokens of a text look: they end with the one end of the text, the names and
the data in each of them can be written as they are, and an element such as `style` is followed by
its characters alone up to its end tag. Main statement: the tokens of every text are of that kind
(`regular_tokens`). What the names are made of and what follows an element such as `style` is known
of lexed tokens; what carries the induction here is that a tag that is being read keeps its
attributes apart (`step_draft`) and that only the end of the text gives out the last token
(`step_complete`).
-/

namespace Restyle.Html

open Text

/-! ## Tokens that are regular -/

/-- Whether a character can stand in a name: it is no capital, no white space, no `/` and no `>`. -/
def IsNameChar (c : Char) : Prop :=
  c.isUpper = false ∧ isSpace c = false ∧ c ≠ '/' ∧ c ≠ '>'

/-- Whether a text is the name of a tag: it starts with a small letter. -/
def IsTag (name : String) : Prop :=
  (∃ c r, name.toList = c :: r ∧ c.isLower) ∧ ∀ c ∈ name.toList, IsNameChar c

/-- Whether the names and the data of a token can be written as they are. A comment ends at the
first `-->` after its data. -/
def Token.Regular : Token → Prop
  | .startTag name _ attributes =>
    IsTag name ∧ (attributes.Pairwise fun a b => a.name ≠ b.name) ∧
      ∀ a ∈ attributes, ∀ c ∈ a.name.toList, IsNameChar c ∧ c ≠ '='
  | .endTag name => IsTag name
  | .comment data => IsFirst ['-', '-', '>'] data.toList []
  | .doctype (some name) => name ≠ "" ∧ ∀ c ∈ name.toList, isBlank c = false ∧ c ≠ '>'
  | .doctype none | .character _ | .endOfFile => True

/-- Tokens as a text gives them. -/
structure Regular (ts : List Token) : Prop where
  /-- The end of the text comes once, at the end. -/
  finish : ∃ front, ts = front ++ [.endOfFile] ∧ .endOfFile ∉ front
  /-- Each token can be written as it is. -/
  tokens : ∀ t ∈ ts, t.Regular
  /-- Between the start tag of an element such as `style` and the next end tag, which has the same
  name, or the end of the text there are characters alone. -/
  texts : ∀ name selfClosing attributes rest,
    .startTag name selfClosing attributes :: rest <:+ ts →
      name ∈ ["style", "script", "xmp", "iframe", "noembed", "noframes", "title", "textarea"] →
        ∃ cs : List Char, rest = cs.map .character ++ [.endOfFile] ∨
          ∃ after, rest = cs.map .character ++ .endTag name :: after

/-! ## Names and data -/

theorem isUpper_eq_false_of_toLower {c : Char} (h : c.toLower = c) : c.isUpper = false := by
  revert h
  refine forall_char (p := fun c => c.toLower = c → c.isUpper = false) (by decide)
    (fun c hc _ => ?_) c
  refine decide_eq_false_iff_not.2 ?_
  rintro ⟨-, hle⟩
  have : c.toNat ≤ 90 := hle
  omega

theorem isNameChar_of_isTagChar {c : Char} (h : isTagChar c) : IsNameChar c := by
  simp only [isTagChar, Bool.and_eq_true, Bool.not_eq_true', bne_iff_ne, ne_eq, beq_iff_eq] at h
  exact ⟨isUpper_eq_false_of_toLower h.2, h.1.1.1, h.1.1.2, h.1.2⟩

theorem isTag_of_isTagName {name : String} (h : isTagName name.toList) : IsTag name := by
  obtain ⟨c, r, hname, halpha⟩ := exists_cons_of_isTagName h
  rw [hname, isTagName, Bool.and_eq_true, List.all_eq_true] at h
  rw [IsTag, hname]
  have hchars : ∀ d ∈ c :: r, IsNameChar d := fun d hd => isNameChar_of_isTagChar (h.2 d hd)
  refine ⟨⟨c, r, rfl, ?_⟩, hchars⟩
  have hcases : c.isUpper ∨ c.isLower := Bool.or_eq_true_iff.1 halpha
  rwa [(hchars c List.mem_cons_self).1, or_iff_right Bool.false_ne_true] at hcases

theorem isNameChar_of_isAttributeChar {c : Char} (h : isAttributeChar c) :
    IsNameChar c ∧ c ≠ '=' := by
  rw [isAttributeChar, Bool.and_eq_true, bne_iff_ne] at h
  exact ⟨isNameChar_of_isTagChar h.1, h.2⟩

/-- A text that holds no end of a comment does not start one either. -/
theorem isFirst_of_endsComment {cs : List Char} (h : endsComment cs = false) :
    IsFirst ['-', '-', '>'] cs [] := by
  induction cs with
  | nil => exact isFirst_nil
  | cons c cs ih =>
    rw [endsComment, occursIn, Bool.or_eq_false_iff] at h
    refine (isFirst_cons_iff fun hmark => ?_).2 (ih h.2)
    -- A mark that starts here would end inside the text, or at a hyphen.
    obtain ⟨t, ht⟩ := hmark
    rcases cs with _ | ⟨x, _ | ⟨y, cs⟩⟩
    · simp at ht
    · simp at ht
    · simp only [List.cons_append, List.nil_append, List.cons.injEq] at ht
      obtain ⟨rfl, rfl, rfl, -⟩ := ht
      simp at h

theorem ne_empty_of_mem_wordsBy {sep : Char → Bool} {s name : String} (h : name ∈ wordsBy sep s) :
    name ≠ "" := by
  rw [wordsBy] at h
  obtain ⟨p, hp, rfl⟩ := List.mem_map.1 h
  have hne := (List.mem_filter.1 hp).2
  rintro hempty
  rw [← String.toList_eq_nil_iff, String.toList_ofList] at hempty
  simp [hempty] at hne

/-! ## Tokens that are complete -/

/-- What a sound token is regular by, and that it is not the end of the text: its attributes are
told apart by their names, an end tag has the name of a tag, and a document type has no empty
name. -/
def Token.Complete : Token → Prop
  | .startTag _ _ attributes => Attribute.Distinct attributes
  | .endTag name => isTagName name.toList
  | .doctype name => name ≠ some ""
  | .comment _ | .character _ => True
  | .endOfFile => False

theorem Token.Complete.regular {t : Token} (h : t.Complete) (hsound : t.Sound) : t.Regular := by
  cases t with
  | startTag name selfClosing attributes =>
    refine ⟨isTag_of_isTagName hsound.1, h, fun a ha c hc => ?_⟩
    exact isNameChar_of_isAttributeChar (List.all_eq_true.1 (hsound.2 a ha) c hc)
  | endTag name => exact isTag_of_isTagName h
  | comment data => exact isFirst_of_endsComment hsound
  | doctype name =>
    cases name with
    | none => trivial
    | some name =>
      refine ⟨fun hempty => h (congrArg some hempty), fun c hc => ?_⟩
      have hchar := List.all_eq_true.1 hsound c hc
      simpa using hchar
  | character c => trivial
  | endOfFile => trivial

theorem complete_bogusComment (s : List Char) : ∀ t ∈ (bogusComment s).tokens, t.Complete := by
  rintro t ht
  rw [List.mem_singleton.1 ht]
  trivial

theorem complete_declaration (s : List Char) : ∀ t ∈ (declaration s).tokens, t.Complete := by
  unfold declaration
  split
  · rintro t ht
    rw [List.mem_singleton.1 ht]
    trivial
  · split
    · rintro t ht
      rw [List.mem_singleton.1 ht]
      intro hname
      exact ne_empty_of_mem_wordsBy (List.mem_of_head? hname) rfl
    · exact complete_bogusComment s

/-! ## Tags that are being read -/

/-- Whether the attributes of a tag that is being read are told apart by their names. -/
def Mode.Distinct (m : Mode) : Prop :=
  ∀ d, m.draft? = some d → Attribute.Distinct d.attributes

theorem Draft.distinct_finishAttribute {d : Draft} (h : Attribute.Distinct d.attributes) :
    Attribute.Distinct d.finishAttribute.attributes := by
  unfold finishAttribute
  split
  · exact h
  · rename_i a ha
    dsimp only
    split_ifs with hmem
    · exact h
    · simp only [List.any_eq_true, beq_iff_eq, not_exists, not_and] at hmem
      refine List.pairwise_append.2 ⟨h, List.pairwise_singleton _ _, fun b hb c hc => ?_⟩
      rw [List.mem_singleton.1 hc]
      exact hmem b hb

/-- A tag that ends at a `>` is sound. -/
theorem sound_of_draft {m : Mode} {d : Draft} (h : m.draft? = some d) {r : List Char}
    (hm : m.Sound ('>' :: r)) : d.Sound := by
  cases m <;> simp only [Mode.draft?, Option.some.injEq, reduceCtorEq] at h <;> subst h
  case tagName => exact sound_of_tagName hm (.inr (.inr rfl))
  all_goals exact hm

theorem distinct_of_draft?_eq_none {m : Mode} (h : m.draft? = none) : m.Distinct := by
  intro d hd
  rw [h] at hd
  cases hd

theorem draft?_emit (d : Draft) (r : List Char) : (d.emit r).mode.draft? = none := by
  unfold Draft.emit Mode.afterStartTag
  dsimp only
  split_ifs <;> rfl

theorem complete_emit {d : Draft} (h : d.Sound) (hdistinct : Attribute.Distinct d.attributes)
    (r : List Char) : ∀ t ∈ (d.emit r).tokens, t.Complete := by
  rintro t ht
  rw [List.mem_singleton.1 ht, Draft.token]
  split_ifs
  · exact h.name
  · exact Draft.distinct_finishAttribute hdistinct

/-- A step gives out complete tokens. -/
theorem step_complete {m : Mode} {c : Char} {r : List Char} (h : m.Sound (c :: r))
    (hdistinct : m.Distinct) :
    (∀ t ∈ (m.step c r).tokens, t.Complete) ∧ (m.step c r).mode.Distinct := by
  cases hm : m.draft? with
  | some d =>
    have hd := hdistinct d hm
    rcases step_draft hm c r with ⟨htokens, d', hd', hattributes⟩ | ⟨rfl, closes, hstep⟩
    · refine ⟨by simp [htokens], fun d'' hd'' => ?_⟩
      obtain rfl : d' = d'' := Option.some.inj (hd'.symm.trans hd'')
      rcases hattributes with heq | heq <;> rw [heq]
      · exact hd
      · exact Draft.distinct_finishAttribute hd
    · obtain ⟨hname, hnames, hcurrent⟩ := sound_of_draft hm h
      have hsound : ({ d with selfClosing := closes } : Draft).Sound := ⟨hname, hnames, hcurrent⟩
      rw [hstep]
      exact ⟨complete_emit hsound hd r, distinct_of_draft?_eq_none (draft?_emit _ r)⟩
  | none =>
    have hchar : ∀ c : Char, ∀ t ∈ [Token.character c], t.Complete := by
      simp [Token.Complete]
    have hempty : ∀ isEnd, (Mode.tagName (.empty isEnd)).Distinct := by
      rintro isEnd d hd
      obtain rfl : Draft.empty isEnd = d := Option.some.inj hd
      exact .nil
    cases m <;> simp only [Mode.draft?, reduceCtorEq] at hm <;> simp only [Mode.step]
    case data =>
      split
      · exact ⟨hchar _, distinct_of_draft?_eq_none rfl⟩
      · split
        · exact ⟨by simp, distinct_of_draft?_eq_none rfl⟩
        · exact ⟨hchar _, distinct_of_draft?_eq_none rfl⟩
    case rawText => exact ⟨hchar _, distinct_of_draft?_eq_none rfl⟩
    case tagOpen =>
      split
      · obtain ⟨t, rest, heq, -⟩ := sound_declaration r
        have htokens := complete_declaration r
        rw [heq] at htokens ⊢
        exact ⟨htokens, distinct_of_draft?_eq_none rfl⟩
      · split
        · exact ⟨by simp, distinct_of_draft?_eq_none rfl⟩
        · split
          · exact ⟨by simp, hempty _⟩
          · split
            · exact ⟨complete_bogusComment _, distinct_of_draft?_eq_none rfl⟩
            · exact ⟨hchar _, distinct_of_draft?_eq_none rfl⟩
    case endTagOpen =>
      split
      · exact ⟨by simp, hempty _⟩
      · split
        · exact ⟨by simp, distinct_of_draft?_eq_none rfl⟩
        · exact ⟨complete_bogusComment _, distinct_of_draft?_eq_none rfl⟩

/-! ## Runs -/

theorem Step.Sound.mode {st : Step} (h : st.Sound) : st.mode.Sound st.rest := by
  cases h with
  | silent next plain => exact next
  | token sound plain => trivial
  | text sound isText => exact ⟨isText, rfl⟩

/-- The machine gives out complete tokens, and the end of the text after them. -/
theorem run_complete {m : Mode} {s : List Char} (h : m.Sound s) (hdistinct : m.Distinct) :
    ∃ front, run m s = front ++ [.endOfFile] ∧ ∀ t ∈ front, t.Complete := by
  have hchars : ∀ cs : List Char, ∀ t ∈ cs.map Token.character, t.Complete := by
    simp [Token.Complete]
  fun_induction run m s with
  | case1 tag decodes s hlt ih =>
    obtain ⟨cs, hcs, -⟩ := rawText_spec tag.toList decodes s
    obtain ⟨front, hfront, hcomplete⟩ := ih trivial (distinct_of_draft?_eq_none rfl)
    refine ⟨cs.map .character ++ front, by rw [hcs, hfront, List.append_assoc], fun t ht => ?_⟩
    exact (List.mem_append.1 ht).elim (hchars cs t) (hcomplete t)
  | case2 m hm =>
    cases m
    case tagOpen => exact ⟨[.character '<'], rfl, hchars ['<']⟩
    case endTagOpen => exact ⟨[.character '<', .character '/'], rfl, hchars ['<', '/']⟩
    case rawText tag decodes => exact absurd rfl (hm tag decodes)
    all_goals exact ⟨[], rfl, by simp⟩
  | case3 m c r hm hlt ih =>
    obtain ⟨htokens, hmode⟩ := step_complete h hdistinct
    obtain ⟨front, hfront, hcomplete⟩ := ih (step_sound h hm).mode hmode
    refine ⟨(m.step c r).tokens ++ front, by rw [hfront, List.append_assoc], fun t ht => ?_⟩
    exact (List.mem_append.1 ht).elim (htokens t) (hcomplete t)

theorem Lexed.sound {ts : List Token} (h : Lexed ts) : ∀ t ∈ ts, t.Sound := by
  have hchars : ∀ cs : List Char, ∀ t ∈ cs.map Token.character, t.Sound := by
    simp [Token.Sound]
  induction h with
  | finish => simp [Token.Sound]
  | token sound plain rest ih => exact List.forall_mem_cons.2 ⟨sound, ih⟩
  | text sound isText lacks rest ih =>
    refine List.forall_mem_cons.2 ⟨sound, List.forall_mem_append.2 ⟨hchars _, ?_⟩⟩
    exact List.forall_mem_cons.2 ⟨trivial, ih⟩
  | unclosed sound isText lacks =>
    refine List.forall_mem_cons.2 ⟨sound, List.forall_mem_append.2 ⟨hchars _, ?_⟩⟩
    simp [Token.Sound]

/-- A token that is no character comes after the characters before it. -/
theorem suffix_of_characters {t : Token} (ht : ∀ c, t ≠ .character c) {cs : List Char}
    {ts rest : List Token} (h : t :: rest <:+ cs.map .character ++ ts) : t :: rest <:+ ts := by
  induction cs with
  | nil => exact h
  | cons c cs ih =>
    rcases List.suffix_cons_iff.1 h with heq | h
    · exact absurd (List.cons.inj heq).1 (ht c)
    · exact ih h

theorem not_startTag_suffix {name : String} {selfClosing : Bool} {attributes : List Attribute}
    {rest : List Token} : ¬ .startTag name selfClosing attributes :: rest <:+ [.endOfFile] := by
  rw [List.suffix_cons_iff]
  simp

/-- After an element such as `style` its characters come up to its end tag or the end of the
text. -/
theorem Lexed.exists_text {ts : List Token} (h : Lexed ts) {name : String} {selfClosing : Bool}
    {attributes : List Attribute} {rest : List Token}
    (hrest : .startTag name selfClosing attributes :: rest <:+ ts) (isText : isTextTag name) :
    ∃ cs : List Char, rest = cs.map .character ++ [.endOfFile] ∨
      ∃ after, rest = cs.map .character ++ .endTag name :: after := by
  induction h with
  | finish => exact absurd hrest not_startTag_suffix
  | token sound plain _ ih =>
    rcases List.suffix_cons_iff.1 hrest with heq | hrest
    · rw [plain _ _ _ (List.cons.inj heq).1.symm] at isText
      cases isText
    · exact ih hrest
  | @text name' selfClosing' attributes' cs ts' sound isText' lacks _ ih =>
    rcases List.suffix_cons_iff.1 hrest with heq | hrest
    · cases heq
      exact ⟨cs, .inr ⟨ts', rfl⟩⟩
    · rcases List.suffix_cons_iff.1 (suffix_of_characters (by simp) hrest) with heq | hrest
      · cases heq
      · exact ih hrest
  | @unclosed name' selfClosing' attributes' cs sound isText' lacks =>
    rcases List.suffix_cons_iff.1 hrest with heq | hrest
    · cases heq
      exact ⟨cs, .inl rfl⟩
    · exact absurd (suffix_of_characters (by simp) hrest) not_startTag_suffix

/-- The tokens of a text end with its one end, each of them can be written as it is, and an element
such as `style` is followed by its characters up to its end tag. -/
theorem regular_tokens (s : String) : Regular (tokens s) where
  finish := by
    obtain ⟨front, hfront, hcomplete⟩ := run_complete (m := .data) (s := s.toList) trivial
      (distinct_of_draft?_eq_none rfl)
    exact ⟨front, hfront, fun hmem => hcomplete _ hmem⟩
  tokens := by
    obtain ⟨front, hfront, hcomplete⟩ := run_complete (m := .data) (s := s.toList) trivial
      (distinct_of_draft?_eq_none rfl)
    intro t ht
    have hsound := (lexed_tokens s).sound t ht
    rw [tokens, hfront] at ht
    rcases List.mem_append.1 ht with ht | ht
    · exact (hcomplete t ht).regular hsound
    · rw [List.mem_singleton.1 ht]
      trivial
  texts name selfClosing attributes rest hrest hname := by
    refine (lexed_tokens s).exists_text hrest ?_
    have hall : ∀ t ∈ ["style", "script", "xmp", "iframe", "noembed", "noframes", "title",
        "textarea"], isTextTag t := by decide
    exact hall name hname

end Restyle.Html
