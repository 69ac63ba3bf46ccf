import Restyle.Proofs.Html.TagSteps

/-!
# What the tokens of a text look like

The names that come out of a text hold no character that would end them, comments hold no end of a
comment, and the start tag of an element such as `style` is followed by characters alone up to its
end tag or the end of the text. `Lexed` collects these facts (`lexed_tokens`).
-/

namespace Restyle.Html

open Text

/-! ## Tokens that are sound -/

/-- Whether the names and the data of a token can be written as they are. -/
def Token.Sound : Token → Prop
  | .startTag name _ attributes =>
    isTagName name.toList ∧ ∀ a ∈ attributes, a.name.toList.all isAttributeChar
  | .comment data => endsComment data.toList = false
  | .doctype name => isDoctypeName (name.getD "").toList
  | _ => True

/-- Elements whose text runs up to their end tag. -/
def isTextTag (tag : String) : Bool :=
  rawTextTags.contains tag || escapableTextTags.contains tag

/-- Tokens as they come out of a text. -/
inductive Lexed : List Token → Prop where
  /-- The end of the text. -/
  | finish : Lexed [.endOfFile]
  /-- A token that is no start tag of an element such as `style`. -/
  | token {t : Token} {ts : List Token} (sound : t.Sound)
      (plain : ∀ name selfClosing attributes,
        t = .startTag name selfClosing attributes → isTextTag name = false)
      (rest : Lexed ts) : Lexed (t :: ts)
  /-- An element such as `style` with its text and its end tag. -/
  | text {name : String} {selfClosing : Bool} {attributes : List Attribute} {cs : List Char}
      {ts : List Token} (sound : (Token.startTag name selfClosing attributes).Sound)
      (isText : isTextTag name) (lacks : rawTextTags.contains name → LacksEndTag name.toList cs)
      (rest : Lexed ts) :
      Lexed (.startTag name selfClosing attributes :: (cs.map .character ++ .endTag name :: ts))
  /-- An element such as `style` that is never closed. -/
  | unclosed {name : String} {selfClosing : Bool} {attributes : List Attribute} {cs : List Char}
      (sound : (Token.startTag name selfClosing attributes).Sound) (isText : isTextTag name)
      (lacks : rawTextTags.contains name → LacksEndTag name.toList cs) :
      Lexed (.startTag name selfClosing attributes :: (cs.map .character ++ [.endOfFile]))

theorem Lexed.of_endTag {name : String} {ts : List Token} (h : Lexed (.endTag name :: ts)) :
    Lexed ts := by
  cases h with
  | token sound plain rest => exact rest

/-! ## Comments and document types -/

theorem commentData_prefix (s : List Char) : (commentData s).1 <+: s := by
  fun_induction commentData s with
  | case1 r => exact List.nil_prefix
  | case2 c r _ data rest hr ih =>
    rw [hr] at ih
    exact List.cons_prefix_cons.2 ⟨rfl, ih⟩
  | case3 => exact List.nil_prefix

theorem endsComment_commentData (s : List Char) : endsComment (commentData s).1 = false := by
  fun_induction commentData s with
  | case1 => rfl
  | case2 c r h data rest hr ih =>
    have hprefix := commentData_prefix r
    rw [hr] at ih hprefix
    rw [endsComment, occursIn, Bool.or_eq_false_iff]
    refine ⟨?_, ih⟩
    -- The mark would have been found where it starts.
    by_contra hmark
    rw [Bool.not_eq_false, List.isPrefixOf_iff_prefix, List.cons_prefix_cons] at hmark
    obtain ⟨t, ht⟩ := hmark.2.trans hprefix
    exact h t hmark.1.symm ht.symm
  | case3 => rfl

theorem not_mem_upToClose (s : List Char) : '>' ∉ (upToClose s).1 := by
  induction s with
  | nil => simp [upToClose]
  | cons c r ih =>
    rw [upToClose]
    split_ifs with h
    · simp
    · simp [ih, Ne.symm h]

theorem endsComment_of_not_mem {s : List Char} (h : '>' ∉ s) : endsComment s = false := by
  induction s with
  | nil => rfl
  | cons c r ih =>
    rw [endsComment, occursIn, Bool.or_eq_false_iff]
    refine ⟨?_, ih fun hr => h (by simp [hr])⟩
    by_contra hmark
    rw [Bool.not_eq_false, List.isPrefixOf_iff_prefix] at hmark
    exact h (hmark.subset (by simp))

theorem sound_bogusComment (s : List Char) :
    ∃ t : Token, bogusComment s = ⟨[t], .data, (upToClose s).2⟩ ∧ t.Sound ∧
      ∀ name selfClosing attributes, t ≠ .startTag name selfClosing attributes := by
  refine ⟨_, rfl, ?_, by simp⟩
  show endsComment (String.ofList (upToClose s).1).toList = false
  rw [String.toList_ofList]
  exact endsComment_of_not_mem (not_mem_upToClose s)

theorem mem_of_mem_pieces {sep : Char → Bool} {s p : List Char} (hp : p ∈ pieces sep s) :
    ∀ c ∈ p, c ∈ s ∧ sep c = false := by
  induction s generalizing p with
  | nil => simp_all [pieces]
  | cons d s ih =>
    rw [pieces] at hp
    split_ifs at hp with hd
    · rcases List.mem_cons.1 hp with rfl | hp
      · simp
      · intro c hc
        exact ⟨List.mem_cons_of_mem _ (ih hp c hc).1, (ih hp c hc).2⟩
    · cases hpieces : pieces sep s with
      | nil =>
        rw [hpieces] at hp
        rw [List.mem_singleton.1 hp]
        simp [hd]
      | cons q qs =>
        rw [hpieces] at hp ih
        intro c hc
        rcases List.mem_cons.1 hp with rfl | hp
        · rcases List.mem_cons.1 hc with rfl | hc
          · exact ⟨by simp, by simpa using hd⟩
          · have := ih (List.mem_cons_self) c hc
            exact ⟨List.mem_cons_of_mem _ this.1, this.2⟩
        · have := ih (List.mem_cons_of_mem _ hp) c hc
          exact ⟨List.mem_cons_of_mem _ this.1, this.2⟩

theorem isDoctypeName_wordsBy {cs : List Char} (h : '>' ∉ cs) :
    isDoctypeName (((wordsBy isBlank (String.ofList cs)).head?).getD "").toList := by
  cases hhead : (wordsBy isBlank (String.ofList cs)).head? with
  | none => rfl
  | some name =>
    have hmem := List.mem_of_head? hhead
    rw [wordsBy, String.toList_ofList] at hmem
    obtain ⟨p, hp, rfl⟩ := List.mem_map.1 hmem
    have hpieces := mem_of_mem_pieces (List.mem_filter.1 hp).1
    rw [Option.getD_some, String.toList_ofList, isDoctypeName, List.all_eq_true]
    intro c hc
    have hclose : c ≠ '>' := by
      rintro rfl
      exact h (hpieces _ hc).1
    simp [(hpieces c hc).2, hclose]

theorem sound_doctype (s : List Char) :
    ∃ t : Token, doctype s = ⟨[t], .data, (upToClose s).2⟩ ∧ t.Sound ∧
      ∀ name selfClosing attributes, t ≠ .startTag name selfClosing attributes :=
  ⟨_, rfl, isDoctypeName_wordsBy (not_mem_upToClose s), by simp⟩

theorem sound_declaration (s : List Char) :
    ∃ (t : Token) (rest : List Char), declaration s = ⟨[t], .data, rest⟩ ∧ t.Sound ∧
      ∀ name selfClosing attributes, t ≠ .startTag name selfClosing attributes := by
  unfold declaration
  split
  · rename_i r
    refine ⟨_, _, rfl, ?_, by simp⟩
    show endsComment (String.ofList (commentData r).1).toList = false
    rw [String.toList_ofList]
    exact endsComment_commentData r
  · split
    · obtain ⟨t, ht, hsound⟩ := sound_doctype (s.drop 7)
      exact ⟨t, _, ht, hsound⟩
    · obtain ⟨t, ht, hsound⟩ := sound_bogusComment s
      exact ⟨t, _, ht, hsound⟩

/-! ## Tags that are being read -/

/-- Whether the names in a tag that is being read can be written as they are. -/
structure Draft.Sound (d : Draft) : Prop where
  /-- The name of the tag. -/
  name : isTagName d.name.toList
  /-- The names of the finished attributes. -/
  attributes : ∀ a ∈ d.attributes, a.name.toList.all isAttributeChar
  /-- The name of the current attribute. -/
  current : ∀ a, d.current = some a → a.name.toList.all isAttributeChar

namespace Draft.Sound

variable {d : Draft}

theorem finishAttribute (h : d.Sound) : d.finishAttribute.Sound := by
  unfold Draft.finishAttribute
  split
  · exact h
  · rename_i a ha
    refine ⟨h.name, ?_, by simp⟩
    dsimp only
    split_ifs
    · exact h.attributes
    · intro b hb
      rcases List.mem_append.1 hb with hb | hb
      · exact h.attributes b hb
      · rw [List.mem_singleton.1 hb]
        exact h.current a ha

theorem startAttribute (h : d.Sound) : d.startAttribute.Sound := by
  refine ⟨h.finishAttribute.name, h.finishAttribute.attributes, ?_⟩
  rintro a ha
  cases ha
  rfl

theorem pushAttributeName (h : d.Sound) {c : Char} (hc : isAttributeChar c.toLower) :
    (d.pushAttributeName c).Sound := by
  refine ⟨h.name, h.attributes, ?_⟩
  intro a ha
  simp only [Draft.pushAttributeName, Option.map_eq_some_iff] at ha
  obtain ⟨b, hb, rfl⟩ := ha
  simp [h.current b hb, hc]

theorem pushAttributeValue (h : d.Sound) (c : Char) : (d.pushAttributeValue c).Sound := by
  refine ⟨h.name, h.attributes, ?_⟩
  intro a ha
  simp only [Draft.pushAttributeValue, Option.map_eq_some_iff] at ha
  obtain ⟨b, hb, rfl⟩ := ha
  exact h.current b hb

theorem next (h : d.Sound) {d' : Draft} (hnext : d.Next d') : d'.Sound := by
  cases hnext with
  | same => exact h
  | start => exact h.startAttribute
  | name hc => exact h.pushAttributeName hc
  | value c => exact h.pushAttributeValue c

theorem token (h : d.Sound) : d.token.Sound := by
  unfold Draft.token
  split_ifs
  · trivial
  · exact ⟨h.name, h.finishAttribute.attributes⟩

end Draft.Sound

/-! ## Steps -/

/-- Whether what a mode has read of a tag can be written as it is. The name of a tag is empty only
before its first letter. -/
def Mode.Sound : Mode → List Char → Prop
  | data, _ | tagOpen, _ | endTagOpen, _ => True
  | rawText tag decodes, _ => isTextTag tag ∧ decodes = !rawTextTags.contains tag
  | tagName d, s =>
    (isTagName d.name.toList ∨ d.name = "" ∧ ∃ c r, s = c :: r ∧ c.isAlpha) ∧
      d.attributes = [] ∧ d.current = none
  | beforeAttributeName d, _ | attributeName d, _ | afterAttributeName d, _
  | beforeAttributeValue d, _ | quotedValue d _, _ | unquotedValue d, _ | afterQuotedValue d, _
  | selfClosing d, _ => d.Sound

theorem isTagName_append {cs : List Char} {c : Char} (h : isTagName cs) (hc : isTagChar c) :
    isTagName (cs ++ [c]) := by
  cases cs with
  | nil => cases h
  | cons d cs =>
    simp only [isTagName, Bool.and_eq_true] at h
    simp only [List.cons_append, isTagName, Bool.and_eq_true]
    refine ⟨h.1, ?_⟩
    rw [← List.cons_append, List.all_append, h.2]
    simp [hc]

theorem not_delimiter_of_isAlpha {c : Char} (h : c.isAlpha) :
    isSpace c = false ∧ c ≠ '/' ∧ c ≠ '>' := by
  refine ⟨?_, ?_, ?_⟩
  · by_contra hspace
    simp only [Bool.not_eq_false, isSpace, Bool.or_eq_true, beq_iff_eq] at hspace
    rcases hspace with (((rfl | rfl) | rfl) | rfl) | rfl <;> exact absurd h (by decide)
  · rintro rfl
    exact absurd h (by decide)
  · rintro rfl
    exact absurd h (by decide)

theorem sound_of_tagName {d : Draft} {c : Char} {r : List Char}
    (h : (Mode.tagName d).Sound (c :: r)) (hc : isSpace c ∨ c = '/' ∨ c = '>') : d.Sound := by
  obtain ⟨hname, hattributes, hcurrent⟩ := h
  refine ⟨?_, by simp [hattributes], by simp [hcurrent]⟩
  rcases hname with hname | ⟨-, c', r', hcons, halpha⟩
  · exact hname
  · cases hcons
    obtain ⟨hspace, hslash, hclose⟩ := not_delimiter_of_isAlpha halpha
    simp [hspace, hslash, hclose] at hc

theorem sound_pushName {d : Draft} {c : Char} {r : List Char}
    (h : (Mode.tagName d).Sound (c :: r)) (hchar : isTagChar c.toLower) (s : List Char) :
    (Mode.tagName (d.pushName c)).Sound s := by
  obtain ⟨hname, hattributes, hcurrent⟩ := h
  refine ⟨.inl ?_, hattributes, hcurrent⟩
  show isTagName (d.name.push c.toLower).toList
  rw [String.toList_push]
  rcases hname with hname | ⟨hempty, c', r', hcons, halpha⟩
  · exact isTagName_append hname hchar
  · cases hcons
    have hlower : c.toLower.isAlpha := (isAlpha_toLower c).trans halpha
    simp [hempty, isTagName, hlower, hchar]

theorem sound_iff_of_named? {m : Mode} {d : Draft} (h : m.named? = some d) (s : List Char) :
    m.Sound s ↔ d.Sound := by
  cases m <;> cases h <;> exact Iff.rfl

theorem ne_rawText_of_named? {m : Mode} {d : Draft} (h : m.named? = some d) :
    ∀ tag decodes, m ≠ .rawText tag decodes := by
  rintro tag decodes rfl
  cases h

/-- What a step gives: nothing yet, a token, or the start tag of an element such as `style`. -/
inductive Step.Sound : Step → Prop where
  /-- Nothing yet. -/
  | silent {m : Mode} {s : List Char} (next : m.Sound s)
      (plain : ∀ tag decodes, m ≠ .rawText tag decodes) : Step.Sound ⟨[], m, s⟩
  /-- A token. -/
  | token {t : Token} {s : List Char} (sound : t.Sound)
      (plain : ∀ name selfClosing attributes,
        t = .startTag name selfClosing attributes → isTextTag name = false) :
      Step.Sound ⟨[t], .data, s⟩
  /-- The start tag of an element such as `style`. -/
  | text {name : String} {selfClosing : Bool} {attributes : List Attribute} {s : List Char}
      (sound : (Token.startTag name selfClosing attributes).Sound) (isText : isTextTag name) :
      Step.Sound ⟨[.startTag name selfClosing attributes],
        .rawText name (!rawTextTags.contains name), s⟩

theorem sound_emit {d : Draft} (h : d.Sound) (r : List Char) : (d.emit r).Sound := by
  have htoken := h.token
  unfold Draft.emit
  cases hend : d.isEnd with
  | true =>
    rw [if_pos rfl]
    apply Step.Sound.token htoken
    simp [Draft.token, hend]
  | false =>
    rw [if_neg Bool.false_ne_true]
    simp only [Draft.token, hend, Bool.false_eq_true, if_false] at htoken ⊢
    unfold Mode.afterStartTag
    split_ifs with hraw hescapable
    · have := Step.Sound.text (s := r) htoken (by rw [isTextTag, hraw, Bool.true_or])
      rwa [hraw] at this
    · have := Step.Sound.text (s := r) htoken (by rw [isTextTag, hescapable, Bool.or_true])
      rwa [Bool.eq_false_iff.2 hraw] at this
    · apply Step.Sound.token htoken
      intro name selfClosing attributes heq
      cases heq
      rw [isTextTag, Bool.eq_false_iff.2 hraw, Bool.eq_false_iff.2 hescapable]
      rfl

theorem step_sound_tagName {d : Draft} {c : Char} {r : List Char}
    (h : (Mode.tagName d).Sound (c :: r)) : ((Mode.tagName d).step c r).Sound := by
  rcases step_tagName d c r with ⟨hc, m, hm, hstep⟩ | ⟨hc, hstep⟩ | ⟨hchar, hstep⟩ <;> rw [hstep]
  · have hd : d.Sound := sound_of_tagName h (hc.imp_right .inl)
    exact .silent ((sound_iff_of_named? hm r).2 hd) (ne_rawText_of_named? hm)
  · exact sound_emit (sound_of_tagName h (.inr (.inr hc))) r
  · exact .silent (sound_pushName h hchar r) (by simp)

theorem step_sound_named {m : Mode} {d : Draft} (hm : m.named? = some d) (h : d.Sound) (c : Char)
    (r : List Char) : (m.step c r).Sound := by
  rcases step_named hm c r with ⟨m', d', s, hstep, hm', hnext⟩ | ⟨-, closes, hstep⟩ <;> rw [hstep]
  · exact .silent ((sound_iff_of_named? hm' s).2 (h.next hnext)) (ne_rawText_of_named? hm')
  · have hd : ({ d with selfClosing := closes } : Draft).Sound := ⟨h.name, h.attributes, h.current⟩
    exact sound_emit hd r

theorem step_sound {m : Mode} {c : Char} {r : List Char} (h : m.Sound (c :: r))
    (hm : ∀ tag decodes, m ≠ .rawText tag decodes) : (m.step c r).Sound := by
  cases m
  case tagName d => exact step_sound_tagName h
  case data =>
    simp only [Mode.step]
    split
    · exact .token (t := .character _) trivial (by simp)
    · split
      · exact .silent trivial (by simp)
      · exact .token (t := .character _) trivial (by simp)
  case rawText tag decodes => exact absurd rfl (hm tag decodes)
  case tagOpen =>
    simp only [Mode.step]
    split
    · obtain ⟨t, rest, heq, hsound, hplain⟩ := sound_declaration r
      rw [heq]
      exact .token hsound fun name selfClosing attributes ht => absurd ht (hplain _ _ _)
    · split
      · exact .silent trivial (by simp)
      · split
        · rename_i halpha
          exact .silent ⟨.inr ⟨rfl, c, r, rfl, halpha⟩, rfl, rfl⟩ (by simp)
        · split
          · obtain ⟨t, heq, hsound, hplain⟩ := sound_bogusComment (c :: r)
            rw [heq]
            exact .token hsound fun name selfClosing attributes ht => absurd ht (hplain _ _ _)
          · exact .token (t := .character _) trivial (by simp)
  case endTagOpen =>
    simp only [Mode.step]
    split
    · rename_i halpha
      exact .silent ⟨.inr ⟨rfl, c, r, rfl, halpha⟩, rfl, rfl⟩ (by simp)
    · split
      · exact .silent trivial (by simp)
      · obtain ⟨t, heq, hsound, hplain⟩ := sound_bogusComment (c :: r)
        rw [heq]
        exact .token hsound fun name selfClosing attributes ht => absurd ht (hplain _ _ _)
  all_goals exact step_sound_named rfl h c r

/-! ## Texts up to an end tag -/

/-- The text of an element is characters up to the end of the text or to an end tag of its name. -/
theorem rawText_spec (name : List Char) (decodes : Bool) (s : List Char) :
    ∃ cs, (rawText name decodes s).1 = cs.map .character ∧
      ((rawText name decodes s).2 = [] ∨ startsEndTag name (rawText name decodes s).2) ∧
      (decodes = false → s = cs ++ (rawText name decodes s).2 ∧
        ∀ t, t <:+ cs → t ≠ [] → startsEndTag name (t ++ (rawText name decodes s).2) = false) := by
  fun_induction rawText name decodes s with
  | case1 =>
    refine ⟨[], rfl, .inl rfl, fun _ => ⟨rfl, fun t ht hne => ?_⟩⟩
    exact absurd (List.suffix_nil.1 ht) hne
  | case2 c r h =>
    refine ⟨[], rfl, .inr h, fun _ => ⟨rfl, fun t ht hne => ?_⟩⟩
    exact absurd (List.suffix_nil.1 ht) hne
  | case3 c r _ hdecodes _ tokens rest heq ih =>
    obtain ⟨cs, hcs, hrest, -⟩ := ih
    rw [heq] at hcs hrest
    refine ⟨(Reference.read false r).1 :: cs, congrArg (_ :: ·) hcs, hrest, ?_⟩
    rintro rfl
    simp at hdecodes
  | case4 c r hstart _ tokens rest heq ih =>
    obtain ⟨cs, hcs, hrest, hlacks⟩ := ih
    rw [heq] at hcs hrest hlacks
    refine ⟨c :: cs, congrArg (_ :: ·) hcs, hrest, fun hd => ?_⟩
    obtain ⟨hr, hlacks⟩ := hlacks hd
    refine ⟨congrArg (c :: ·) hr, fun t ht hne => ?_⟩
    rcases List.suffix_cons_iff.1 ht with rfl | ht
    · have hall : c :: cs ++ rest = c :: r := congrArg (c :: ·) hr.symm
      rw [hall]
      simpa using hstart
    · exact hlacks t ht hne

/-- A mode after the name of an end tag. -/
def Mode.Ends (name : String) : Mode → Prop
  | beforeAttributeName d | attributeName d | afterAttributeName d | beforeAttributeValue d
  | quotedValue d _ | unquotedValue d | afterQuotedValue d | selfClosing d =>
    d.isEnd = true ∧ d.name = name
  | _ => False

theorem Mode.ends_iff {name : String} {m : Mode} :
    m.Ends name ↔ ∃ d, m.named? = some d ∧ d.isEnd = true ∧ d.name = name := by
  cases m <;> simp [Mode.Ends, Mode.named?, Mode.draft?]

/-- A step in an end tag stays in it or gives it out. -/
theorem step_ends {name : String} {m : Mode} (h : m.Ends name) (c : Char) (r : List Char) :
    (m.step c r).tokens = [] ∧ (m.step c r).mode.Ends name ∨
      (m.step c r).tokens = [.endTag name] := by
  obtain ⟨d, hm, hend, rfl⟩ := Mode.ends_iff.1 h
  rcases step_named hm c r with ⟨m', d', s, hstep, hm', hnext⟩ | ⟨-, closes, hstep⟩ <;> rw [hstep]
  · obtain ⟨hkind, hname⟩ := hnext.keeps
    exact .inl ⟨rfl, Mode.ends_iff.2 ⟨d', hm', hkind.trans hend, hname⟩⟩
  · exact .inr (by simp [Draft.emit, Draft.token, hend])

/-- An end tag whose name is read is given out, unless the text ends in it. -/
theorem run_of_ends {name : String} {m : Mode} (h : m.Ends name) (s : List Char) :
    run m s = [.endOfFile] ∨ ∃ ts, run m s = .endTag name :: ts := by
  fun_induction run m s with
  | case1 => cases h
  | case2 m hm =>
    left
    cases m <;> first | rfl | cases h
  | case3 m c r hm hlt ih =>
    rcases step_ends h c r with ⟨htokens, hends⟩ | htokens
    · rw [htokens]
      exact ih hends
    · rw [htokens]
      exact .inr ⟨_, rfl⟩

theorem forall_textTag {p : String → Prop} (h : ∀ tag ∈ rawTextTags ++ escapableTextTags, p tag)
    {tag : String} (htag : isTextTag tag) : p tag := by
  apply h tag
  simpa [isTextTag] using htag

theorem letters_of_isTextTag {tag : String} (h : isTextTag tag) :
    tag.toList ≠ [] ∧ tag.toList.all Char.isAlpha ∧ tag.toList.map Char.toLower = tag.toList := by
  refine forall_textTag (p := fun tag => tag.toList ≠ [] ∧ tag.toList.all Char.isAlpha ∧
    tag.toList.map Char.toLower = tag.toList) ?_ h
  decide

theorem run_tagName_letters {d : Draft} {cs : List Char} (h : cs.all Char.isAlpha) (r : List Char) :
    run (.tagName d) (cs ++ r) =
      run (.tagName { d with name := d.name ++ String.ofList (cs.map Char.toLower) }) r := by
  induction cs generalizing d with
  | nil =>
    rw [List.map_nil, show d.name ++ String.ofList [] = d.name by simp]
    rfl
  | cons c cs ih =>
    simp only [List.all_cons, Bool.and_eq_true] at h
    obtain ⟨hspace, hslash, hclose⟩ := not_delimiter_of_isAlpha h.1
    rw [List.cons_append, run_cons (by simp)]
    simp only [Mode.step, hspace, hslash, hclose, Bool.false_eq_true, if_false, List.nil_append]
    rw [ih h.2, List.map_cons, ← push_append_ofList]
    rfl

theorem run_tagName_ends {d : Draft} (hend : d.isEnd) {r : List Char}
    (h : ∀ c t, r = c :: t → isSpace c || c == '/' || c == '>') :
    run (.tagName d) r = [.endOfFile] ∨ ∃ ts, run (.tagName d) r = .endTag d.name :: ts := by
  cases r with
  | nil => exact .inl (by rw [run]; rfl; simp)
  | cons c t =>
    have hc := h c t rfl
    simp only [Bool.or_eq_true, beq_iff_eq] at hc
    rw [run_cons (by simp)]
    simp only [Mode.step]
    split
    · exact run_of_ends (m := .beforeAttributeName d) ⟨hend, rfl⟩ t
    · split
      · exact run_of_ends (m := .selfClosing d) ⟨hend, rfl⟩ t
      · rename_i hspace hslash
        rw [if_pos ((hc.resolve_left (not_or.2 ⟨hspace, hslash⟩)))]
        exact .inr ⟨_, by simp [Draft.emit, Draft.token, hend]; rfl⟩

/-- The end tag of an element such as `style` is given out, unless the text ends in it. -/
theorem run_of_startsEndTag {tag : String} (htag : isTextTag tag) {s : List Char}
    (h : startsEndTag tag.toList s) :
    run .data s = [.endOfFile] ∨ ∃ ts, run .data s = .endTag tag :: ts := by
  obtain ⟨hne, halpha, hlower⟩ := letters_of_isTextTag htag
  obtain ⟨t, rfl, hletters, hdelimiter⟩ := startsEndTag_eq_true h
  rw [hlower] at hletters
  have hletter : (t.take tag.toList.length).all Char.isAlpha := by
    rw [← hletters, List.all_map] at halpha
    rw [List.all_eq_true] at halpha ⊢
    intro c hc
    rw [← isAlpha_toLower]
    exact halpha c hc
  have hopen : run .data ('<' :: '/' :: t) = run (.tagName (.empty true)) t := by
    rw [run_cons (by simp)]
    show run .tagOpen ('/' :: t) = _
    rw [run_cons (by simp)]
    show run .endTagOpen t = _
    cases t with
    | nil => simp [hne.symm] at hletters
    | cons c t =>
      have hc : c.isAlpha := by
        cases hlist : tag.toList with
        | nil => exact absurd hlist hne
        | cons d ds =>
          rw [hlist] at hletter
          simp only [List.length_cons, List.take_succ_cons, List.all_cons,
            Bool.and_eq_true] at hletter
          exact hletter.1
      rw [run_cons (by simp)]
      simp only [Mode.step, hc, if_true, List.nil_append]
  have hname := run_tagName_letters (d := .empty true) hletter (t.drop tag.toList.length)
  rw [List.take_append_drop, hletters, String.ofList_toList] at hname
  rw [hopen, hname]
  have := run_tagName_ends (d := { Draft.empty true with name := tag }) rfl hdelimiter
  simpa [Draft.empty] using this

/-- What a mode reads: tokens that are sound, and the rest of the text of an element first. -/
def Mode.Reads : Mode → List Token → Prop
  | rawText tag _, ts =>
    ∃ cs ts', ts = cs.map .character ++ ts' ∧
      (rawTextTags.contains tag → LacksEndTag tag.toList cs) ∧
      (ts' = [.endOfFile] ∨ ∃ ts'', ts' = .endTag tag :: ts'' ∧ Lexed ts'')
  | _, ts => Lexed ts

theorem Mode.reads_iff {m : Mode} (hm : ∀ tag decodes, m ≠ .rawText tag decodes)
    (ts : List Token) : m.Reads ts ↔ Lexed ts := by
  cases m
  case rawText tag decodes => exact absurd rfl (hm tag decodes)
  all_goals exact Iff.rfl

theorem reads_run {m : Mode} {s : List Char} (h : m.Sound s) : m.Reads (run m s) := by
  fun_induction run m s with
  | case1 tag decodes s hlt ih =>
    obtain ⟨htag, hdecodes⟩ := h
    obtain ⟨cs, hcs, hrest, hlacks⟩ := rawText_spec tag.toList decodes s
    refine ⟨cs, _, by rw [hcs], fun hraw => ?_, ?_⟩
    · obtain ⟨-, hlacks⟩ := hlacks (by rw [hdecodes, hraw]; rfl)
      have hletters : '<' ∉ tag.toList.map Char.toLower := by
        obtain ⟨-, halpha, hlower⟩ := letters_of_isTextTag htag
        rw [hlower]
        intro hmem
        exact absurd (List.all_eq_true.1 halpha _ hmem) (by decide)
      intro t ht hne r
      by_contra hstart
      rw [Bool.not_eq_false] at hstart
      have := startsEndTag_append hletters hne hstart (rawText tag.toList decodes s).2
      rw [hlacks t ht hne] at this
      cases this
    · rcases hrest with hrest | hrest
      · rw [hrest]
        exact .inl (by rw [run]; rfl; simp)
      · apply (run_of_startsEndTag htag hrest).imp_right
        rintro ⟨ts, hts⟩
        have hlexed : Lexed (run .data (rawText tag.toList decodes s).2) := ih trivial
        rw [hts] at hlexed
        exact ⟨ts, hts, hlexed.of_endTag⟩
  | case2 m hm =>
    have hchar : ∀ c ts, Lexed ts → Lexed (.character c :: ts) := fun c ts hts =>
      .token (t := .character c) trivial (by simp) hts
    cases m
    case tagOpen => exact hchar _ _ .finish
    case endTagOpen => exact hchar _ _ (hchar _ _ .finish)
    case rawText tag decodes => exact absurd rfl (hm tag decodes)
    all_goals exact Lexed.finish
  | case3 m c r hm hlt ih =>
    rw [Mode.reads_iff hm]
    have hstep := step_sound h hm
    generalize m.step c r = st at hstep ih
    cases hstep with
    | silent next plain =>
      exact (Mode.reads_iff plain _).1 (ih next)
    | token sound plain => exact .token sound plain (ih trivial)
    | text sound isText =>
      obtain ⟨cs, ts', hts, hlacks, hends⟩ := ih ⟨isText, rfl⟩
      rw [hts]
      rcases hends with rfl | ⟨ts'', rfl, hlexed⟩
      · exact .unclosed sound isText hlacks
      · exact .text sound isText hlacks hlexed

/-- The tokens of a text are sound. -/
theorem lexed_tokens (s : String) : Lexed (tokens s) :=
  reads_run (m := .data) trivial

end Restyle.Html
