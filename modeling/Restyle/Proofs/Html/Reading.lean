import Restyle.Proofs.Html.Replay
import Restyle.Text.Search

/-!
# Reading written markup

One lemma for each kind of mark: the machine that reads markup takes what the mark is written as off
the front of the text, gives the token of the mark and goes on with the rest.
-/

namespace Restyle.Html

open Text

variable {r : List Char} {c : Char}

theorem run_cons {m : Mode} (hm : ∀ tag decodes, m ≠ .rawText tag decodes) (c : Char)
    (r : List Char) :
    run m (c :: r) = (m.step c r).tokens ++ run (m.step c r).mode (m.step c r).rest := by
  rw [run.eq_3 _ _ _ hm]

theorem run_rawText (tag : String) (decodes : Bool) (s : List Char) :
    run (.rawText tag decodes) s =
      (rawText tag.toList decodes s).1 ++ run .data (rawText tag.toList decodes s).2 := by
  rw [run]

/-! ## Text -/

theorem run_data_reference (r : List Char) :
    run .data ('&' :: r) =
      .character (Reference.read false r).1 :: run .data (Reference.read false r).2 := by
  rw [run_cons (by simp)]
  rfl

theorem run_data_of_ne (hamp : c ≠ '&') (hlt : c ≠ '<') (r : List Char) :
    run .data (c :: r) = .character c :: run .data r := by
  rw [run_cons (by simp)]
  simp [Mode.step, hamp, hlt]

/-- An escaped character is a reference that stands for it, or it is the character itself. -/
theorem escapeChar_cases (c : Char) :
    (∃ e, (escapeChar c).toList = '&' :: e ∧ ∀ r, Reference.read false (e ++ r) = (c, r)) ∨
      (escapeChar c).toList = [c] ∧ c ≠ '&' ∧ c ≠ '<' := by
  unfold escapeChar
  split
  · exact .inl ⟨['a', 'm', 'p', ';'], rfl, fun _ => rfl⟩
  · exact .inl ⟨['n', 'b', 's', 'p', ';'], rfl, fun _ => rfl⟩
  · exact .inl ⟨['l', 't', ';'], rfl, fun _ => rfl⟩
  · exact .inl ⟨['g', 't', ';'], rfl, fun _ => rfl⟩
  · rename_i hamp _ hlt _
    rw [Char.toString_eq_singleton, String.toList_singleton]
    exact .inr ⟨rfl, hamp, hlt⟩

/-- An escaped character is read as the character. -/
theorem run_escapeChar (c : Char) (r : List Char) :
    run .data ((escapeChar c).toList ++ r) = .character c :: run .data r := by
  rcases escapeChar_cases c with ⟨e, he, hread⟩ | ⟨he, hamp, hlt⟩ <;> rw [he]
  · rw [List.cons_append, run_data_reference, hread]
  · exact run_data_of_ne hamp hlt r

/-! ## Names of tags -/

/-- Characters of a tag name as it is written: no capitals, and none that ends the name. -/
def isTagChar (c : Char) : Bool :=
  !isSpace c && c != '/' && c != '>' && c.toLower == c

/-- Whether a text is the name of a tag as it is written. -/
def isTagName : List Char → Bool
  | c :: r => c.isAlpha && (c :: r).all isTagChar
  | [] => false

theorem push_append_ofList (s : String) (c : Char) (cs : List Char) :
    s.push c ++ String.ofList cs = s ++ String.ofList (c :: cs) := by
  rw [← String.toList_inj]
  simp

theorem run_tagName {d : Draft} {cs : List Char} (h : cs.all isTagChar) (r : List Char) :
    run (.tagName d) (cs ++ r) =
      run (.tagName { d with name := d.name ++ String.ofList cs }) r := by
  induction cs generalizing d with
  | nil =>
    rw [show d.name ++ String.ofList [] = d.name by simp]
    rfl
  | cons c cs ih =>
    simp only [List.all_cons, Bool.and_eq_true, isTagChar, Bool.not_eq_true', bne_iff_ne, ne_eq,
      beq_iff_eq] at h
    obtain ⟨⟨⟨⟨hspace, hslash⟩, hclose⟩, hlower⟩, hcs⟩ := h
    rw [List.cons_append, run_cons (by simp)]
    simp only [Mode.step, hspace, hslash, hclose, Bool.false_eq_true, if_false, List.nil_append]
    rw [ih (by simpa [isTagChar] using hcs), Draft.pushName, hlower, push_append_ofList]

theorem run_tagName_empty (isEnd : Bool) {tag : String} (h : isTagName tag.toList) (r : List Char) :
    run (.tagName (.empty isEnd)) (tag.toList ++ r) =
      run (.tagName { Draft.empty isEnd with name := tag }) r := by
  cases htag : tag.toList with
  | nil => rw [htag] at h; cases h
  | cons c cs =>
    rw [htag] at h
    simp only [isTagName, Bool.and_eq_true] at h
    rw [run_tagName h.2, ← htag, String.ofList_toList]
    simp [Draft.empty]

theorem exists_cons_of_isTagName {tag : String} (h : isTagName tag.toList) :
    ∃ c cs, tag.toList = c :: cs ∧ c.isAlpha := by
  cases htag : tag.toList with
  | nil => rw [htag] at h; cases h
  | cons c cs =>
    rw [htag] at h
    simp only [isTagName, Bool.and_eq_true] at h
    exact ⟨c, cs, rfl, h.1⟩

theorem run_tagOpen {tag : String} (h : isTagName tag.toList) (r : List Char) :
    run .data ('<' :: (tag.toList ++ r)) =
      run (.tagName { Draft.empty false with name := tag }) r := by
  obtain ⟨c, cs, htag, halpha⟩ := exists_cons_of_isTagName h
  have hbang : c ≠ '!' := by
    rintro rfl
    exact absurd halpha (by decide)
  have hslash : c ≠ '/' := by
    rintro rfl
    exact absurd halpha (by decide)
  rw [← run_tagName_empty _ h, run_cons (by simp)]
  show run .tagOpen (tag.toList ++ r) = _
  rw [htag, List.cons_append, run_cons (by simp)]
  simp [Mode.step, hbang, hslash, halpha]

theorem toList_close (tag : String) (r : List Char) :
    (Mark.close tag).markup ++ r = '<' :: '/' :: (tag.toList ++ '>' :: r) := by
  simp [Mark.markup]

/-- An end tag is read as it is written. -/
theorem run_close {tag : String} (h : isTagName tag.toList) (r : List Char) :
    run .data ((Mark.close tag).markup ++ r) = .endTag tag :: run .data r := by
  obtain ⟨c, cs, htag, halpha⟩ := exists_cons_of_isTagName h
  have hname := run_tagName_empty true h ('>' :: r)
  rw [toList_close, run_cons (by simp)]
  show run .tagOpen ('/' :: (tag.toList ++ '>' :: r)) = _
  rw [run_cons (by simp)]
  show run .endTagOpen (tag.toList ++ '>' :: r) = _
  rw [htag, List.cons_append] at hname ⊢
  rw [run_cons (by simp)]
  simp only [Mode.step, halpha, if_true, List.nil_append]
  rw [hname, run_cons (by simp)]
  simp [Mode.step, Draft.emit, Draft.token, Draft.empty, isSpace]

/-! ## Attributes -/

/-- Characters of the name of an attribute as it is written. -/
def isAttributeChar (c : Char) : Bool :=
  isTagChar c && c != '='

theorem run_attributeName {d : Draft} {a : Attribute} {cs : List Char} (h : cs.all isAttributeChar)
    (r : List Char) :
    run (.attributeName { d with current := some a }) (cs ++ '=' :: r) =
      run (.beforeAttributeValue
        { d with current := some { a with name := a.name ++ String.ofList cs } }) r := by
  induction cs generalizing a with
  | nil =>
    rw [List.nil_append, run_cons (by simp)]
    simp [Mode.step, isSpace]
  | cons c cs ih =>
    simp only [List.all_cons, Bool.and_eq_true, isAttributeChar, isTagChar, Bool.not_eq_true',
      bne_iff_ne, ne_eq, beq_iff_eq] at h
    obtain ⟨⟨⟨⟨⟨hspace, hslash⟩, hclose⟩, hlower⟩, hequals⟩, hcs⟩ := h
    rw [List.cons_append, run_cons (by simp)]
    simp only [Mode.step, hspace, hslash, hclose, hequals, Bool.false_eq_true, if_false, or_self,
      List.nil_append]
    rw [← push_append_ofList]
    have := ih (a := { a with name := a.name.push c })
      (by simpa [isAttributeChar, isTagChar] using hcs)
    rw [← this, Draft.pushAttributeName, hlower]
    rfl

theorem run_beforeAttributeName {d : Draft} {cs : List Char} (h : cs.all isAttributeChar)
    (r : List Char) :
    run (.beforeAttributeName d) (cs ++ '=' :: r) =
      run (.attributeName d.startAttribute) (cs ++ '=' :: r) := by
  cases cs with
  | nil =>
    rw [List.nil_append, run_cons (by simp)]
    simp [Mode.step, isSpace]
  | cons c cs =>
    simp only [List.all_cons, Bool.and_eq_true, isAttributeChar, isTagChar, Bool.not_eq_true',
      bne_iff_ne, ne_eq, beq_iff_eq] at h
    rw [List.cons_append, run_cons (by simp)]
    simp [Mode.step, h.1.1.1.1.1, h.1.1.1.1.2, h.1.1.1.2]

/-- In a value, too, an escaped character is a reference that stands for it, or it is the character
itself. -/
theorem escapeAttributeChar_cases (c : Char) :
    (∃ e, (escapeAttributeChar c).toList = '&' :: e ∧
        ∀ r, Reference.read true (e ++ r) = (c, r)) ∨
      (escapeAttributeChar c).toList = [c] ∧ c ≠ '&' ∧ c ≠ '"' := by
  unfold escapeAttributeChar
  split
  · exact .inl ⟨['a', 'm', 'p', ';'], rfl, fun _ => rfl⟩
  · exact .inl ⟨['n', 'b', 's', 'p', ';'], rfl, fun _ => rfl⟩
  · exact .inl ⟨['q', 'u', 'o', 't', ';'], rfl, fun _ => rfl⟩
  · rename_i hamp _ hquote
    rw [Char.toString_eq_singleton, String.toList_singleton]
    exact .inr ⟨rfl, hamp, hquote⟩

/-- An escaped character of a value is read as the character. -/
theorem run_escapeAttributeChar (d : Draft) (c : Char) (r : List Char) :
    run (.quotedValue d '"') ((escapeAttributeChar c).toList ++ r) =
      run (.quotedValue (d.pushAttributeValue c) '"') r := by
  rcases escapeAttributeChar_cases c with ⟨e, he, hread⟩ | ⟨he, hamp, hquote⟩ <;>
    rw [he, List.cons_append, run_cons (by simp)]
  · simp [Mode.step, hread]
  · simp [Mode.step, hamp, hquote]

theorem run_quotedValue (d : Draft) (a : Attribute) (cs r : List Char) :
    run (.quotedValue { d with current := some a } '"')
        (cs.flatMap (fun c => (escapeAttributeChar c).toList) ++ '"' :: r) =
      run (.afterQuotedValue
        { d with current := some { a with value := a.value ++ String.ofList cs } }) r := by
  induction cs generalizing a with
  | nil =>
    rw [List.flatMap_nil, List.nil_append, run_cons (by simp)]
    simp [Mode.step]
  | cons c cs ih =>
    rw [List.flatMap_cons, List.append_assoc, run_escapeAttributeChar, ← push_append_ofList]
    exact ih { a with value := a.value.push c }

theorem toList_attribute (a : Attribute) (r : List Char) :
    a.markup.toList ++ r =
      ' ' :: (a.name.toList ++ '=' :: '"' ::
        (a.value.toList.flatMap (fun c => (escapeAttributeChar c).toList) ++ '"' :: r)) := by
  simp [Attribute.markup, escapeAttribute, List.flatMap_map]

/-- An attribute is read as it is written, after the attributes before it are finished. -/
theorem run_attribute {d : Draft} {a : Attribute} (h : a.name.toList.all isAttributeChar)
    (r : List Char) :
    run (.beforeAttributeName d)
        (a.name.toList ++ '=' :: '"' ::
          (a.value.toList.flatMap (fun c => (escapeAttributeChar c).toList) ++ '"' :: r)) =
      run (.afterQuotedValue { d.finishAttribute with current := some a }) r := by
  rw [run_beforeAttributeName h, Draft.startAttribute, run_attributeName h, run_cons (by simp)]
  simp only [Mode.step, isSpace]
  have := run_quotedValue d.finishAttribute { name := a.name, value := "" } a.value.toList r
  simpa using this

/-- A mode that goes on with attributes, or gives the tag out at its end. -/
def Follows (m : Mode) (d : Draft) : Prop :=
  (∀ r, run m (' ' :: r) = run (.beforeAttributeName d) r) ∧
    ∀ r, run m ('>' :: r) = d.token :: run (.afterStartTag d.name) r

theorem follows_tagName {d : Draft} (hd : d.isEnd = false) : Follows (.tagName d) d := by
  refine ⟨fun r => ?_, fun r => ?_⟩
  · rw [run_cons (by simp)]
    rfl
  · rw [run_cons (by simp)]
    simp [Mode.step, isSpace, Draft.emit, hd]

theorem follows_afterQuotedValue {d : Draft} (hd : d.isEnd = false) :
    Follows (.afterQuotedValue d) d := by
  refine ⟨fun r => ?_, fun r => ?_⟩
  · rw [run_cons (by simp)]
    rfl
  · rw [run_cons (by simp)]
    simp [Mode.step, isSpace, Draft.emit, hd]

theorem finishAttribute_same (d : Draft) :
    d.finishAttribute.isEnd = d.isEnd ∧ d.finishAttribute.name = d.name ∧
      d.finishAttribute.selfClosing = d.selfClosing := by
  unfold Draft.finishAttribute
  split <;> exact ⟨rfl, rfl, rfl⟩

theorem attributes_finishAttribute {d : Draft} {a : Attribute}
    (h : d.attributes.any (·.name == a.name) = false) :
    ({ d with current := some a } : Draft).finishAttribute.attributes = d.attributes ++ [a] := by
  show (if d.attributes.any (·.name == a.name) then d.attributes else d.attributes ++ [a]) = _
  rw [h]
  rfl

theorem run_attributes {m : Mode} {d : Draft} {as : List Attribute} (hm : Follows m d)
    (hd : d.isEnd = false) (hnames : ∀ a ∈ as, a.name.toList.all isAttributeChar)
    (hdistinct : Attribute.Distinct (d.finishAttribute.attributes ++ as)) (r : List Char) :
    run m (as.flatMap (fun a => a.markup.toList) ++ '>' :: r) =
      .startTag d.name d.selfClosing (d.finishAttribute.attributes ++ as) ::
        run (.afterStartTag d.name) r := by
  induction as generalizing m d with
  | nil =>
    rw [List.flatMap_nil, List.nil_append, hm.2, Draft.token, hd, List.append_nil]
    rfl
  | cons a as ih =>
    rw [List.flatMap_cons, List.append_assoc, toList_attribute, hm.1,
      run_attribute (hnames a (by simp))]
    have hnew : d.finishAttribute.attributes.any (·.name == a.name) = false := by
      have := (List.pairwise_append.1 hdistinct).2.2
      simp only [List.any_eq_false, beq_iff_eq]
      exact fun b hb => this b hb a (by simp)
    have hfinish := attributes_finishAttribute hnew
    obtain ⟨hend, hname, hself⟩ := finishAttribute_same d
    have hisEnd : ({ d.finishAttribute with current := some a } : Draft).isEnd = false :=
      hend.trans hd
    rw [ih (follows_afterQuotedValue hisEnd) hisEnd fun b hb => hnames b (by simp [hb])]
    · rw [hfinish, List.append_assoc]
      simp only [hname, hself]
      rfl
    · rw [hfinish, List.append_assoc]
      exact hdistinct

theorem toList_start (e : Element) (r : List Char) :
    (Mark.start e).markup ++ r =
      '<' :: (e.tag.toList ++ (e.attributes.flatMap (fun a => a.markup.toList) ++ '>' :: r)) := by
  simp [Mark.markup, Element.startTag, List.flatMap_map]

/-- A start tag is read as it is written. -/
theorem run_start {e : Element} (h : isTagName e.tag.toList)
    (hnames : ∀ a ∈ e.attributes, a.name.toList.all isAttributeChar)
    (hdistinct : Attribute.Distinct e.attributes) (r : List Char) :
    run .data ((Mark.start e).markup ++ r) =
      (Mark.start e).token :: run (.afterStartTag e.tag) r := by
  have hattributes := run_attributes (d := { Draft.empty false with name := e.tag })
    (follows_tagName rfl) rfl hnames hdistinct r
  rw [toList_start, run_tagOpen h, hattributes]
  rfl

/-! ## Comments and document types -/

/-- Whether a text holds the end of a comment. -/
def endsComment (s : List Char) : Bool :=
  occursIn ['-', '-', '>'] s

theorem commentData_append {cs : List Char} (h : endsComment cs = false) (r : List Char) :
    commentData (cs ++ '-' :: '-' :: '>' :: r) = (cs, r) := by
  induction cs with
  | nil => rfl
  | cons c cs ih =>
    simp only [endsComment, occursIn, Bool.or_eq_false_iff] at h
    rw [List.cons_append, commentData.eq_2, ih h.2]
    rintro t rfl ht
    -- A mark that starts here would end inside the text, or at a hyphen.
    cases cs with
    | nil => cases ht
    | cons x cs =>
      cases cs with
      | nil => cases ht
      | cons y cs =>
        cases ht
        simp at h

theorem run_declaration (s : List Char) :
    run .data ('<' :: '!' :: s) =
      (declaration s).tokens ++ run (declaration s).mode (declaration s).rest := by
  rw [run_cons (by simp)]
  show run .tagOpen ('!' :: s) = _
  rw [run_cons (by simp)]
  rfl

/-- A comment is read as it is written. -/
theorem run_comment {data : String} (h : endsComment data.toList = false) (r : List Char) :
    run .data ((Mark.comment data).markup ++ r) = .comment data :: run .data r := by
  have hmarkup : (Mark.comment data).markup ++ r =
      '<' :: '!' :: '-' :: '-' :: (data.toList ++ '-' :: '-' :: '>' :: r) := by
    simp [Mark.markup]
  rw [hmarkup, run_declaration]
  simp only [declaration, commentData_append h, String.ofList_toList]
  rfl

theorem upToClose_append {cs : List Char} (h : '>' ∉ cs) (r : List Char) :
    upToClose (cs ++ '>' :: r) = (cs, r) := by
  induction cs with
  | nil => simp [upToClose]
  | cons c cs ih =>
    simp only [List.mem_cons, not_or] at h
    rw [List.cons_append, upToClose, if_neg (Ne.symm h.1), ih h.2]

theorem pieces_eq_singleton {sep : Char → Bool} {cs : List Char} (h : ∀ c ∈ cs, sep c = false) :
    pieces sep cs = [cs] := by
  induction cs with
  | nil => rfl
  | cons c cs ih =>
    rw [pieces, h c (by simp), ih fun d hd => h d (by simp [hd])]
    rfl

/-- Whether a text can be the name of a document type: it is empty or one word without a `>`. -/
def isDoctypeName (cs : List Char) : Bool :=
  cs.all fun c => !isBlank c && c != '>'

theorem wordsBy_space_cons {name : String} (h : isDoctypeName name.toList) :
    (wordsBy isBlank (String.ofList (' ' :: name.toList))).head? =
      if name = "" then none else some name := by
  have hblank : ∀ c ∈ name.toList, isBlank c = false := by
    intro c hc
    have := List.all_eq_true.1 h c hc
    simp only [Bool.and_eq_true, Bool.not_eq_true'] at this
    exact this.1
  rw [wordsBy, String.toList_ofList, pieces, show isBlank ' ' = true from rfl, if_pos rfl,
    pieces_eq_singleton hblank]
  by_cases hname : name = ""
  · subst hname
    rfl
  · have : name.toList ≠ [] := fun hnil => hname (String.toList_eq_nil_iff.1 hnil)
    simp [hname]

theorem declaration_doctype (s : List Char) :
    declaration ('D' :: 'O' :: 'C' :: 'T' :: 'Y' :: 'P' :: 'E' :: s) = doctype s := by
  unfold declaration
  split
  · rename_i h
    cases h
  · have hkeyword : sameLetters (String.ofList ['D', 'O', 'C', 'T', 'Y', 'P', 'E']) "doctype" := by
      decide
    exact if_pos hkeyword

/-- A document type is read as it is written. -/
theorem run_doctype {name : String} (h : isDoctypeName name.toList) (r : List Char) :
    run .data ((Mark.doctype name).markup ++ r) = (Mark.doctype name).token :: run .data r := by
  have hmarkup : (Mark.doctype name).markup ++ r =
      '<' :: '!' ::
        (['D', 'O', 'C', 'T', 'Y', 'P', 'E'] ++ ((' ' :: name.toList) ++ '>' :: r)) := by
    simp [Mark.markup]
  have hclose : '>' ∉ ' ' :: name.toList := by
    simp only [List.mem_cons, Char.reduceEq, false_or]
    intro hmem
    have := List.all_eq_true.1 h '>' hmem
    simp at this
  rw [hmarkup, run_declaration]
  simp only [List.cons_append, List.nil_append, declaration_doctype, doctype]
  rw [← List.cons_append, upToClose_append hclose]
  simp only [wordsBy_space_cons h]
  rfl

/-! ## Texts up to an end tag -/

theorem startsEndTag_of_ne {name s : List Char} (h : ∀ t, s ≠ '<' :: '/' :: t) :
    startsEndTag name s = false := by
  unfold startsEndTag
  split
  · exact absurd rfl (h _)
  · rfl

theorem startsEndTag_close (tag : String) (r : List Char) :
    startsEndTag tag.toList ((Mark.close tag).markup ++ r) = true := by
  rw [toList_close, startsEndTag]
  simp

theorem rawText_close (tag : String) (decodes : Bool) (r : List Char) :
    rawText tag.toList decodes ((Mark.close tag).markup ++ r) =
      ([], (Mark.close tag).markup ++ r) := by
  have h := startsEndTag_close tag r
  rw [toList_close] at h ⊢
  rw [rawText, if_pos h]

/-- An escaped character is read as the character up to an end tag, too. -/
theorem rawText_escapeChar (name : List Char) (c : Char) (r : List Char) :
    rawText name true ((escapeChar c).toList ++ r) =
      (.character c :: (rawText name true r).1, (rawText name true r).2) := by
  rcases escapeChar_cases c with ⟨e, he, hread⟩ | ⟨he, hamp, hlt⟩ <;>
    rw [he, List.cons_append, rawText, startsEndTag_of_ne]
  · simp [hread]
  · simp
  · simp [hamp]
  · intro t ht
    exact hlt (List.cons.inj ht).1

/-- The text of an element such as `title` is read as it is written. -/
theorem rawText_escaped (tag : String) (cs r : List Char) :
    rawText tag.toList true
        (cs.flatMap (fun c => (escapeChar c).toList) ++ ((Mark.close tag).markup ++ r)) =
      (cs.map .character, (Mark.close tag).markup ++ r) := by
  induction cs with
  | nil => exact rawText_close tag true r
  | cons c cs ih => rw [List.flatMap_cons, List.append_assoc, rawText_escapeChar, ih]; rfl

/-- Whether no end tag of the given name starts in a text, whatever tag comes after it. -/
def LacksEndTag (name cs : List Char) : Prop :=
  ∀ t, t <:+ cs → t ≠ [] → ∀ r, startsEndTag name (t ++ '<' :: r) = false

theorem rawText_verbatim {tag : String} {cs : List Char} (h : LacksEndTag tag.toList cs)
    (r : List Char) :
    rawText tag.toList false (cs ++ ((Mark.close tag).markup ++ r)) =
      (cs.map .character, (Mark.close tag).markup ++ r) := by
  induction cs with
  | nil => exact rawText_close tag false r
  | cons c cs ih =>
    have hstart := h (c :: cs) (List.suffix_refl _) (by simp) ('/' :: (tag.toList ++ '>' :: r))
    rw [← toList_close, List.cons_append] at hstart
    have hrest := ih fun t ht => h t (ht.trans (List.suffix_cons _ _))
    rw [List.cons_append, rawText, if_neg (by simp [hstart]), if_neg (by simp), hrest]
    rfl

theorem startsEndTag_eq_true {name s : List Char} (h : startsEndTag name s = true) :
    ∃ t, s = '<' :: '/' :: t ∧ (t.take name.length).map Char.toLower = name.map Char.toLower ∧
      ∀ c r, t.drop name.length = c :: r → isSpace c || c == '/' || c == '>' := by
  unfold startsEndTag at h
  split at h
  · rename_i t
    simp only [Bool.and_eq_true, beq_iff_eq] at h
    refine ⟨t, rfl, h.1, fun c r hr => ?_⟩
    simpa [hr] using h.2
  · cases h

/-- An end tag that starts in a text is there whatever comes after the text, if a `<` can. -/
theorem startsEndTag_append {name t u : List Char} (hname : '<' ∉ name.map Char.toLower)
    (ht : t ≠ []) (h : startsEndTag name (t ++ '<' :: u) = true) (w : List Char) :
    startsEndTag name (t ++ w) = true := by
  obtain ⟨x, hx, hletters, hdelimiter⟩ := startsEndTag_eq_true h
  obtain ⟨c, t, rfl⟩ := List.exists_cons_of_ne_nil ht
  cases t with
  | nil => cases hx
  | cons d t =>
    simp only [List.cons_append, List.cons.injEq] at hx
    obtain ⟨rfl, rfl, rfl⟩ := hx
    have hlength : name.length ≤ t.length := by
      by_contra hlt
      apply hname
      obtain ⟨k, hk⟩ : ∃ k, name.length - t.length = k + 1 := ⟨name.length - t.length - 1, by omega⟩
      rw [← hletters, List.take_append, hk, List.take_succ_cons]
      exact List.mem_map.2 ⟨'<', by simp, rfl⟩
    rw [List.take_append_of_le_length hlength] at hletters
    rw [List.drop_append_of_le_length hlength] at hdelimiter
    simp only [List.cons_append, startsEndTag, List.take_append_of_le_length hlength, hletters,
      List.drop_append_of_le_length hlength, beq_self_eq_true, Bool.true_and]
    cases hdrop : t.drop name.length with
    | nil =>
      rw [hdrop] at hdelimiter
      exact absurd (hdelimiter '<' u rfl) (by decide)
    | cons e r =>
      rw [hdrop] at hdelimiter
      exact hdelimiter e _ rfl

end Restyle.Html
