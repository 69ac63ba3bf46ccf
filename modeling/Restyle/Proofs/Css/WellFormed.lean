import Restyle.Proofs.Css.Keeping
import Restyle.Proofs.Css.RoundTrip

/-!
# Well-formed style sheets

`Stylesheet.WellFormed` is what may be relied on in every part of a tree that was read: selectors
are there and are trimmed, the block of an at-rule is the one for its name, names are not empty,
hex colors have as many digits as they may, and other source text is kept in pieces that are as
long as possible. Main statement: every style sheet that is read is well-formed
(`Stylesheet.wellFormed_of_parse`).
-/

namespace Restyle

namespace Text

/-- Whether a text neither starts nor ends with a blank character. -/
structure HasNoBlankEnds (s : String) : Prop where
  /-- The first character is not blank. -/
  head : ∀ c ∈ s.toList.head?, isBlank c = false
  /-- The last character is not blank. -/
  last : ∀ c ∈ s.toList.getLast?, isBlank c = false

theorem hasNoBlankEnds_trim (s : String) : HasNoBlankEnds (trim s) where
  head := Css.head?_trim_not_blank s
  last := by
    have hlast := List.head?_dropWhile_not isBlank (s.toList.dropWhile isBlank).reverse
    rw [trim, String.toList_ofList, trimBlanks, List.getLast?_reverse]
    intro c hc
    rw [Option.mem_def.1 hc] at hlast
    simpa using hlast

end Text

namespace Css

open Text Lexeme

/-! ## Well-formed trees -/

namespace Value

/-- Whether a value is other source text. -/
def isOther : Value → Bool
  | other _ => true
  | _ => false

mutual

/-- Whether the parts of a value are as they are read. -/
def WellFormed : Value → Prop
  | identifier _ => True
  | hexColor digits => isHexColor digits
  | call _ args => WellFormedAll args
  | other text => text ≠ ""

/-- Whether the parts of a list of values are as they are read, and no two pieces of other source
text stand side by side. -/
def WellFormedAll : List Value → Prop
  | [] => True
  | v :: vs => WellFormed v ∧ (v.isOther → ∀ w ∈ vs.head?, w.isOther = false) ∧ WellFormedAll vs

end

end Value

/-- Whether the parts of a declaration are as they are read. -/
structure Declaration.WellFormed (d : Declaration) : Prop where
  /-- There is a name. -/
  name : d.name ≠ ""
  /-- The values are well-formed. -/
  value : Value.WellFormedAll d.value
  /-- The value of a custom property is one piece of source text, if it is not empty. -/
  custom : d.isCustom → d.value = [] ∨ ∃ text, d.value = [.other text]

/-- Whether the parts of a style rule are as they are read. -/
structure StyleRule.WellFormed (r : StyleRule) : Prop where
  /-- There is a selector. -/
  selectors_ne_nil : r.selectors ≠ []
  /-- No selector is empty, and none has blank characters around it. -/
  selectors : ∀ s ∈ r.selectors, s ≠ "" ∧ HasNoBlankEnds s
  /-- The declarations are well-formed. -/
  declarations : ∀ d ∈ r.declarations, d.WellFormed

namespace Rule

mutual

/-- Whether the parts of a rule are as they are read. The block of an at-rule is of the kind that
belongs to its name. -/
def WellFormed : Rule → Prop
  | style r => r.WellFormed
  | statement head => head.name ≠ ""
  | group head rules => head.name ≠ "" ∧ AtHead.isGroupName head.name ∧ WellFormedAll rules
  | descriptors head ds =>
    head.name ≠ "" ∧ AtHead.isDescriptorName head.name ∧ ∀ d ∈ ds, d.WellFormed
  | keyframes head frames =>
    head.name ≠ "" ∧ AtHead.isKeyframesName head.name ∧
      ∀ k ∈ frames, ∀ d ∈ k.declarations, d.WellFormed
  | raw head _ =>
    head.name ≠ "" ∧ AtHead.isGroupName head.name = false ∧
      AtHead.isKeyframesName head.name = false

/-- Whether the parts of a list of rules are as they are read. -/
def WellFormedAll : List Rule → Prop
  | [] => True
  | r :: rs => WellFormed r ∧ WellFormedAll rs

end

mutual

/-- Whether each conditional group in a rule holds a rule. -/
def Filled : Rule → Prop
  | group _ rules => rules ≠ [] ∧ FilledAll rules
  | _ => True

/-- Whether each conditional group in a list of rules, at any depth, holds a rule. -/
def FilledAll : List Rule → Prop
  | [] => True
  | r :: rs => Filled r ∧ FilledAll rs

end

end Rule

/-- Whether the parts of a style sheet are as they are read. -/
def Stylesheet.WellFormed (s : Stylesheet) : Prop :=
  Rule.WellFormedAll s.rules

/-- Whether each conditional group of a style sheet, at any depth, holds a rule. -/
def Stylesheet.Filled (s : Stylesheet) : Prop :=
  Rule.FilledAll s.rules

/-! ## Values -/

/-- Every lexeme of a text stands for some text. -/
theorem Lexeme.raw_ne_empty {inWord : Bool} {start : Nat} {s : List Char} {l : Lexeme}
    (hl : l ∈ scanFrom inWord start s) : l.raw ≠ "" := by
  rw [raw]
  obtain ⟨htoken, hsource⟩ | ⟨c, r, -, hsource⟩ := exists_token_of_mem_scanFrom hl
  · rw [if_pos ⟨htoken, hsource⟩]
    decide
  · have hne : l.source ≠ "" := by
      intro hempty
      have hlength := (Lexer.token_suffix c r).length_le
      rw [hempty] at hsource
      rw [show (Lexer.token c r).2 = c :: r from hsource, List.length_cons] at hlength
      omega
    rw [if_neg fun h => hne h.2]
    exact hne

theorem mem_of_mem_arguments {depth : Nat} {ls : List Lexeme} {l : Lexeme}
    (h : l ∈ (arguments depth ls).1 ∨ l ∈ (arguments depth ls).2) : l ∈ ls := by
  fun_induction arguments depth ls with
  | case1 => simp at h
  | case2 => exact List.mem_cons_of_mem _ (h.resolve_left List.not_mem_nil)
  | case3 _ _ _ _ _ _ hargs ih | case4 _ _ _ _ _ _ _ hargs ih | case5 _ _ _ _ _ _ hargs ih
  | case6 _ _ _ _ _ hargs _ _ _ _ ih =>
    rw [hargs] at ih
    rcases h with h | h
    · exact (List.mem_cons.1 h).elim (fun h => h ▸ List.mem_cons_self) fun h =>
        List.mem_cons_of_mem _ (ih (.inl h))
    · exact List.mem_cons_of_mem _ (ih (.inr h))

namespace Value

theorem wellFormedAll_pushOther {text : String} (h : text ≠ "") {vs : List Value}
    (hvs : WellFormedAll vs) : WellFormedAll (pushOther text vs) := by
  unfold pushOther
  split
  · rename_i t vs
    obtain ⟨-, hnext, hvs⟩ := hvs
    exact ⟨fun hempty => h (String.append_eq_empty_iff.1 hempty).1, hnext, hvs⟩
  · rename_i hother
    refine ⟨h, fun _ w hw => ?_, hvs⟩
    obtain ⟨vs, rfl⟩ := List.head?_eq_some_iff.1 hw
    cases w with
    | other t => exact (hother t vs rfl).elim
    | _ => rfl

/-- A piece that is no source text stands in front of any well-formed values. -/
theorem WellFormedAll.cons {v : Value} (h : WellFormed v) (hother : v.isOther = false)
    {vs : List Value} (hvs : WellFormedAll vs) : WellFormedAll (v :: vs) :=
  ⟨h, fun h => absurd (hother.symm.trans h) Bool.false_ne_true, hvs⟩

theorem wellFormedAll_ofLexemes {ls : List Lexeme} (h : ∀ l ∈ ls, l.raw ≠ "") :
    WellFormedAll (ofLexemes ls) := by
  fun_induction ofLexemes ls with
  | case1 => trivial
  | case2 l rest name hname ih =>
    exact .cons (v := .identifier l.raw) trivial rfl (ih fun x hx => h x (by simp [hx]))
  | case3 l rest name kind hhash digits hdigits ih =>
    exact .cons (v := .hexColor digits) hdigits rfl (ih fun x hx => h x (by simp [hx]))
  | case4 l rest name kind hhash digits hdigits ih =>
    exact wellFormedAll_pushOther (h l (by simp)) (ih fun x hx => h x (by simp [hx]))
  | case5 l rest name hname hlength split ihArgs ih =>
    have hargs : ∀ x ∈ (arguments 0 rest).1, x.raw ≠ "" :=
      fun x hx => h x (List.mem_cons_of_mem l (mem_of_mem_arguments (.inl hx)))
    have hrest : ∀ x ∈ (arguments 0 rest).2, x.raw ≠ "" :=
      fun x hx => h x (List.mem_cons_of_mem l (mem_of_mem_arguments (.inr hx)))
    exact .cons (v := .call _ _) (ihArgs hargs) rfl (ih hrest)
  | case6 l rest _ _ _ ih =>
    exact wellFormedAll_pushOther (h l (by simp)) (ih fun x hx => h x (by simp [hx]))

end Value

/-! ## Declarations -/

theorem joined_ne_empty {ls : List Lexeme} (hne : ls ≠ []) (h : ∀ l ∈ ls, l.raw ≠ "") :
    joined ls ≠ "" := by
  cases ls with
  | nil => exact absurd rfl hne
  | cons l ls =>
    rw [joined_cons]
    exact fun hempty => h l (by simp) (String.append_eq_empty_iff.1 hempty).1

theorem mem_of_mem_dropSpaceEnd {ls : List Lexeme} {l : Lexeme} (h : l ∈ dropSpaceEnd ls) :
    l ∈ ls :=
  List.mem_reverse.1 ((List.dropWhile_suffix _).mem (List.mem_reverse.1 h))

theorem mem_of_mem_trimSpace {ls : List Lexeme} {l : Lexeme} (h : l ∈ trimSpace ls) : l ∈ ls :=
  (List.dropWhile_suffix _).mem (mem_of_mem_dropSpaceEnd h)

namespace Declaration

theorem mem_of_mem_splitImportant {ls : List Lexeme} {l : Lexeme}
    (h : l ∈ (splitImportant ls).1) : l ∈ ls := by
  rcases splitImportant_cases ls with hsplit | ⟨value, bang, spaces, word, name, hsplit, hls, -⟩
  · rwa [hsplit] at h
  · rw [hsplit] at h
    rw [hls]
    exact List.mem_append_left _ h

/-- A declaration whose name and whose lexemes stand for some text is well-formed. -/
theorem wellFormed_ofLexemes {name : String} (hname : name ≠ "") {ls : List Lexeme}
    (h : ∀ l ∈ ls, l.raw ≠ "") : (ofLexemes name ls).WellFormed := by
  obtain ⟨value, important, hsplit⟩ : ∃ value important,
      splitImportant (trimSpace ls) = (value, important) := ⟨_, _, rfl⟩
  have hkept : ∀ l ∈ dropSpaceEnd value, l.raw ≠ "" := by
    intro l hl
    have hl := mem_of_mem_dropSpaceEnd hl
    rw [show value = (splitImportant (trimSpace ls)).1 by rw [hsplit]] at hl
    exact h l (mem_of_mem_trimSpace (mem_of_mem_splitImportant hl))
  rw [ofLexemes_eq hsplit]
  by_cases hcustom : isCustomName name
  · by_cases hempty : dropSpaceEnd value = []
    · exact ⟨hname, by simp [hcustom, hempty, Value.WellFormedAll],
        fun _ => .inl (by simp [hcustom, hempty])⟩
    · refine ⟨hname, ?_, fun _ => .inr ⟨joined (dropSpaceEnd value), by simp [hcustom, hempty]⟩⟩
      have htext := joined_ne_empty hempty hkept
      simpa [hcustom, hempty, Value.WellFormedAll, Value.WellFormed] using htext
  · refine ⟨hname, ?_, fun h => absurd h hcustom⟩
    rw [if_neg hcustom]
    exact Value.wellFormedAll_ofLexemes hkept

theorem Reads.wellFormed {ls : List Lexeme} {ds : List Declaration} (h : Reads ls ds)
    (hs : ∀ l ∈ ls, l.raw ≠ "") : ∀ d ∈ ds, d.WellFormed := by
  induction h with
  | nil => simp
  | skip skipped rest ih => exact ih fun x hx => hs x (by simp [hx])
  | declaration isName areSpaces isColon isRun ends others ih =>
    rw [List.forall_mem_cons]
    exact ⟨wellFormed_ofLexemes (hs _ (by simp)) fun x hx => hs x (by simp [hx]),
      ih fun x hx => hs x (by simp [hx])⟩

end Declaration

/-! ## Rules -/

theorem Keyframe.Reads.wellFormed {ls : List Lexeme} {fs : List Keyframe} (h : Reads ls fs)
    (hs : ∀ l ∈ ls, l.raw ≠ "") : ∀ k ∈ fs, ∀ d ∈ k.declarations, d.WellFormed := by
  induction h with
  | nil => simp
  | skip isSpace rest ih => exact ih fun x hx => hs x (by simp [hx])
  | frame notSpace isRun opens isBalanced closes inside others ih =>
    rw [List.forall_mem_cons]
    exact ⟨inside.wellFormed fun x hx => hs x (by simp [hx]), ih fun x hx => hs x (by simp [hx])⟩

/-- The entries of a selector list are there, and they are trimmed. -/
theorem wellFormed_of_selectors? {ls : List Lexeme} {ss : List String}
    (h : selectors? ls = some ss) : ss ≠ [] ∧ ∀ s ∈ ss, s ≠ "" ∧ HasNoBlankEnds s := by
  have hentries := selectors?_eq_some_iff.1 h
  constructor
  · rintro rfl
    exact commaPieces_ne_nil 0 ls (List.forall₂_nil_right_iff.1 hentries)
  · generalize commaPieces 0 ls = pieces at hentries
    clear h
    induction hentries with
    | nil => simp
    | cons hentry _ ih =>
      obtain ⟨rfl, hne⟩ := hentry
      exact List.forall_mem_cons.2 ⟨⟨hne, hasNoBlankEnds_trim _⟩, ih⟩

namespace Rule

theorem BlockReads.wellFormed {head : AtHead} {body : List Lexeme} {rule : Rule}
    (h : BlockReads head body rule) (hname : head.name ≠ "")
    (hgroup : AtHead.isGroupName head.name = false) (hs : ∀ l ∈ body, l.raw ≠ "") :
    rule.WellFormed := by
  cases h with
  | keyframes isKeyframes inside => exact ⟨hname, isKeyframes, inside.wellFormed hs⟩
  | descriptors notKeyframes isDescriptor inside =>
    exact ⟨hname, isDescriptor, inside.wellFormed hs⟩
  | raw notKeyframes => exact ⟨hname, hgroup, notKeyframes⟩

/-- Rules that are read from lexemes that stand for some text are well-formed. -/
theorem Reads.wellFormed {top : Bool} {ls : List Lexeme} {rs : List Rule} (h : Reads top ls rs)
    (hs : ∀ l ∈ ls, l.raw ≠ "" ∧ ∀ name, l.token = .atKeyword name → atName l ≠ "") :
    WellFormedAll rs := by
  induction h with
  | nil => trivial
  | skip skipped rest ih => exact ih fun x hx => hs x (by simp [hx])
  | style notSkipped notAt isRun hasSelectors opens isBalanced closes inside others ih =>
    obtain ⟨hne, hselectors⟩ := wellFormed_of_selectors? hasSelectors
    exact ⟨⟨hne, hselectors, inside.wellFormed fun x hx => (hs x (by simp [hx])).1⟩,
      ih fun x hx => hs x (by simp [hx])⟩
  | last isAt isRun => exact ⟨(hs _ (by simp)).2 _ isAt, trivial⟩
  | statement isAt isRun ends others ih =>
    exact ⟨(hs _ (by simp)).2 _ isAt, ih fun x hx => hs x (by simp [hx])⟩
  | group isAt isRun opens isBalanced closes isGroup inside others ihInside ih =>
    exact ⟨⟨(hs _ (by simp)).2 _ isAt, isGroup, ihInside fun x hx => hs x (by simp [hx])⟩,
      ih fun x hx => hs x (by simp [hx])⟩
  | block isAt isRun opens isBalanced closes notGroup inside others ih =>
    exact ⟨inside.wellFormed ((hs _ (by simp)).2 _ isAt) notGroup
      fun x hx => (hs x (by simp [hx])).1, ih fun x hx => hs x (by simp [hx])⟩

end Rule

/-! ## Style sheets -/

/-- Every style sheet that is read is well-formed. -/
theorem Stylesheet.wellFormed_of_parse {source : String} {sheet : Stylesheet}
    (h : parse source = .ok sheet) : sheet.WellFormed := by
  obtain ⟨hbroken, hreads⟩ := parse_eq_ok_iff.1 h
  refine hreads.wellFormed fun l hl => ⟨Lexeme.raw_ne_empty hl, fun name isAt hempty => ?_⟩
  have hspelled := spelled_scanFrom hbroken l hl
  obtain ⟨c, n, hraw, -⟩ := exists_name_of_at hl hspelled isAt
  rw [toList_raw_of_at hl hspelled isAt, hempty] at hraw
  cases hraw

end Css

end Restyle
