import Restyle.Proofs.Css.ReadsBack
import Restyle.Proofs.Css.Weighing

/-!
# What a style sheet keeps of its text

`Rule.Keeps` says which text the lexemes of a style sheet make up: the source text of all of them
but white space, semicolons and the marks skipped between rules, with `!important` in its plain
spelling. The text of what is read has the same characters in the same order, white space and
semicolons aside, but for blank characters that are no white space of style sheets
(`Stylesheet.parse_keeps`): those are trimmed off selectors, preludes and blocks kept as text.
-/

namespace Restyle.Css

open Text Lexeme

/-! ## The text that counts -/

/-- The text of a run of lexemes without white space and semicolons. -/
def keptText (ls : List Lexeme) : List Char :=
  ls.flatMap fun l => if l.token = .whitespace ∨ l.token = .semicolon then [] else l.raw.toList

/-- The text of a declaration value, given by its lexemes. -/
inductive KeepsValue : List Lexeme → List Char → Prop where
  /-- The value ends in a mark that makes it important, whatever its spelling. -/
  | important {value spaces after : List Lexeme} {bang word : Lexeme} {name : String}
      (isBang : bang.token = .delim '!') (areSpaces : ∀ s ∈ spaces, s.isSpace)
      (isWord : word.token = .ident name) (isName : sameLetters name "important")
      (afterSpaces : ∀ s ∈ after, s.isSpace) :
      KeepsValue (value ++ bang :: (spaces ++ word :: after))
        (keptText value ++ "!important".toList)
  /-- Any other value. -/
  | plain {value : List Lexeme}
      (notImportant : ∀ (front spaces after : List Lexeme) (bang word : Lexeme) (name : String),
        value = front ++ bang :: (spaces ++ word :: after) → bang.token = .delim '!' →
          (∀ s ∈ spaces, s.isSpace) → word.token = .ident name → sameLetters name "important" →
            ¬ ∀ s ∈ after, s.isSpace) :
      KeepsValue value (keptText value)

/-- The text of the declarations that a run of lexemes is read as. -/
inductive Declaration.Keeps : List Lexeme → List Declaration → List Char → Prop where
  /-- Nothing is left. -/
  | nil : Keeps [] [] []
  /-- White space or a semicolon between declarations. -/
  | skip {l : Lexeme} {ls : List Lexeme} {ds : List Declaration} {text : List Char}
      (skipped : l.token = .whitespace ∨ l.token = .semicolon) (rest : Keeps ls ds text) :
      Keeps (l :: ls) ds text
  /-- A declaration, up to a semicolon or to the end. -/
  | declaration {l c : Lexeme} {spaces value rest : List Lexeme} {ds : List Declaration}
      {name : String} {valueText text : List Char} (isName : l.token = .ident name)
      (areSpaces : ∀ s ∈ spaces, s.isSpace) (isColon : c.token = .colon)
      (isRun : isRun endsValue [] (value.map Lexeme.token))
      (ends : ∀ e ∈ rest.head?, e.token = .semicolon) (keepsValue : KeepsValue value valueText)
      (others : Keeps rest ds text) :
      Keeps (l :: (spaces ++ c :: (value ++ rest))) (ofLexemes l.raw value :: ds)
        (l.raw.toList ++ c.raw.toList ++ valueText ++ text)

/-- The text of the steps of an animation that a run of lexemes is read as. -/
inductive Keyframe.Keeps : List Lexeme → List Keyframe → List Char → Prop where
  /-- Nothing is left. -/
  | nil : Keeps [] [] []
  /-- White space between steps. -/
  | skip {l : Lexeme} {ls : List Lexeme} {fs : List Keyframe} {text : List Char}
      (isSpace : l.isSpace) (rest : Keeps ls fs text) : Keeps (l :: ls) fs text
  /-- A step with its block. -/
  | frame {head body rest : List Lexeme} {b r : Lexeme} {ds : List Declaration}
      {fs : List Keyframe} {inner text : List Char} (notSpace : ∀ l ∈ head.head?, l.isSpace = false)
      (isRun : isRun endsSelectors [] (head.map Lexeme.token)) (opens : b.token = .leftBrace)
      (isBalanced : isBalanced 0 (body.map Lexeme.token)) (closes : r.token = .rightBrace)
      (inside : Declaration.Keeps body ds inner) (others : Keeps rest fs text) :
      Keeps (head ++ b :: (body ++ r :: rest)) (⟨collapsed head, ds⟩ :: fs)
        (keptText head ++ b.raw.toList ++ inner ++ r.raw.toList ++ text)

namespace Rule

/-- The text of the block of an at-rule that is no conditional group. -/
inductive KeepsBlock (head : AtHead) (body : List Lexeme) : Rule → List Char → Prop where
  /-- The steps of an animation. -/
  | keyframes {fs : List Keyframe} {text : List Char}
      (isKeyframes : AtHead.isKeyframesName head.name) (inside : Keyframe.Keeps body fs text) :
      KeepsBlock head body (.keyframes head fs) text
  /-- Declarations. -/
  | descriptors {ds : List Declaration} {text : List Char}
      (notKeyframes : AtHead.isKeyframesName head.name = false)
      (isDescriptor : AtHead.isDescriptorName head.name)
      (inside : Declaration.Keeps body ds text) :
      KeepsBlock head body (.descriptors head ds) text
  /-- Anything else, and what should be declarations but is not. -/
  | raw (notKeyframes : AtHead.isKeyframesName head.name = false)
      (notDescriptors : AtHead.isDescriptorName head.name → ∀ ds, ¬ Declaration.Reads body ds) :
      KeepsBlock head body (.raw head (trim (joined body))) (keptText body)

/-- The text of the rules that a run of lexemes is read as. -/
inductive Keeps : Bool → List Lexeme → List Rule → List Char → Prop where
  /-- Nothing is left. -/
  | nil {top : Bool} : Keeps top [] [] []
  /-- What is skipped between rules. -/
  | skip {top : Bool} {l : Lexeme} {ls : List Lexeme} {rs : List Rule} {text : List Char}
      (skipped : isSkipped top l) (rest : Keeps top ls rs text) : Keeps top (l :: ls) rs text
  /-- A style rule. -/
  | style {top : Bool} {l b r : Lexeme} {head body rest : List Lexeme} {selectors : List String}
      {ds : List Declaration} {rs : List Rule} {inner text : List Char}
      (notSkipped : isSkipped top l = false) (notAt : ∀ name, l.token ≠ .atKeyword name)
      (isRun : isRun endsSelectors [] ((l :: head).map Lexeme.token))
      (hasSelectors : selectors? (l :: head) = some selectors) (opens : b.token = .leftBrace)
      (isBalanced : isBalanced 0 (body.map Lexeme.token)) (closes : r.token = .rightBrace)
      (inside : Declaration.Keeps body ds inner) (others : Keeps top rest rs text) :
      Keeps top (l :: (head ++ b :: (body ++ r :: rest))) (.style ⟨selectors, ds⟩ :: rs)
        (keptText (l :: head) ++ b.raw.toList ++ inner ++ r.raw.toList ++ text)
  /-- An at-rule without a block at the end. -/
  | last {top : Bool} {l : Lexeme} {head : List Lexeme} {name : String}
      (isAt : l.token = .atKeyword name) (isRun : isRun endsAtHead [] (head.map Lexeme.token)) :
      Keeps top (l :: head) [.statement ⟨atName l, collapsed head⟩] (keptText (l :: head))
  /-- An at-rule without a block. -/
  | statement {top : Bool} {l e : Lexeme} {head rest : List Lexeme} {name : String}
      {rs : List Rule} {text : List Char} (isAt : l.token = .atKeyword name)
      (isRun : isRun endsAtHead [] (head.map Lexeme.token)) (ends : e.token = .semicolon)
      (others : Keeps top rest rs text) :
      Keeps top (l :: (head ++ e :: rest)) (.statement ⟨atName l, collapsed head⟩ :: rs)
        (keptText (l :: head) ++ text)
  /-- A conditional group. -/
  | group {top : Bool} {l b r : Lexeme} {head body rest : List Lexeme} {name : String}
      {inner rs : List Rule} {innerText text : List Char} (isAt : l.token = .atKeyword name)
      (isRun : isRun endsAtHead [] (head.map Lexeme.token)) (opens : b.token = .leftBrace)
      (isBalanced : isBalanced 0 (body.map Lexeme.token)) (closes : r.token = .rightBrace)
      (isGroup : AtHead.isGroupName (atName l)) (inside : Keeps false body inner innerText)
      (others : Keeps top rest rs text) :
      Keeps top (l :: (head ++ b :: (body ++ r :: rest)))
        (.group ⟨atName l, collapsed head⟩ inner :: rs)
        (keptText (l :: head) ++ b.raw.toList ++ innerText ++ r.raw.toList ++ text)
  /-- Another at-rule with a block. -/
  | block {top : Bool} {l b r : Lexeme} {head body rest : List Lexeme} {name : String} {rule : Rule}
      {rs : List Rule} {inner text : List Char} (isAt : l.token = .atKeyword name)
      (isRun : isRun endsAtHead [] (head.map Lexeme.token)) (opens : b.token = .leftBrace)
      (isBalanced : isBalanced 0 (body.map Lexeme.token)) (closes : r.token = .rightBrace)
      (notGroup : AtHead.isGroupName (atName l) = false)
      (inside : KeepsBlock ⟨atName l, collapsed head⟩ body rule inner)
      (others : Keeps top rest rs text) :
      Keeps top (l :: (head ++ b :: (body ++ r :: rest))) (rule :: rs)
        (keptText (l :: head) ++ b.raw.toList ++ inner ++ r.raw.toList ++ text)

end Rule

/-! ## Every reading keeps a text -/

theorem exists_keepsValue (value : List Lexeme) : ∃ text, KeepsValue value text := by
  by_cases h : ∃ (front spaces after : List Lexeme) (bang word : Lexeme) (name : String),
      value = front ++ bang :: (spaces ++ word :: after) ∧ bang.token = .delim '!' ∧
        (∀ s ∈ spaces, s.isSpace) ∧ word.token = .ident name ∧ sameLetters name "important" ∧
          ∀ s ∈ after, s.isSpace
  · obtain ⟨front, spaces, after, bang, word, name, rfl, hbang, hspaces, hword, hname, hafter⟩ := h
    exact ⟨_, .important hbang hspaces hword hname hafter⟩
  · refine ⟨_, .plain fun front spaces after bang word name hvalue hbang hspaces hword hname
      hafter => h ?_⟩
    exact ⟨front, spaces, after, bang, word, name, hvalue, hbang, hspaces, hword, hname, hafter⟩

theorem Declaration.Reads.exists_keeps {ls : List Lexeme} {ds : List Declaration}
    (h : Reads ls ds) : ∃ text, Keeps ls ds text := by
  induction h with
  | nil => exact ⟨_, .nil⟩
  | skip skipped _ ih =>
    obtain ⟨text, htext⟩ := ih
    exact ⟨_, .skip skipped htext⟩
  | @declaration l c spaces value rest ds name isName areSpaces isColon isRun ends _ ih =>
    obtain ⟨text, htext⟩ := ih
    obtain ⟨valueText, hvalue⟩ := exists_keepsValue value
    exact ⟨_, .declaration isName areSpaces isColon isRun ends hvalue htext⟩

theorem Keyframe.Reads.exists_keeps {ls : List Lexeme} {fs : List Keyframe} (h : Reads ls fs) :
    ∃ text, Keeps ls fs text := by
  induction h with
  | nil => exact ⟨_, .nil⟩
  | skip isSpace _ ih =>
    obtain ⟨text, htext⟩ := ih
    exact ⟨_, .skip isSpace htext⟩
  | frame notSpace isRun opens isBalanced closes inside _ ih =>
    obtain ⟨text, htext⟩ := ih
    obtain ⟨inner, hinner⟩ := inside.exists_keeps
    exact ⟨_, .frame notSpace isRun opens isBalanced closes hinner htext⟩

namespace Rule

theorem BlockReads.exists_keeps {head : AtHead} {body : List Lexeme} {rule : Rule}
    (h : BlockReads head body rule) : ∃ text, KeepsBlock head body rule text := by
  cases h with
  | keyframes isKeyframes inside =>
    obtain ⟨text, htext⟩ := inside.exists_keeps
    exact ⟨_, .keyframes isKeyframes htext⟩
  | descriptors notKeyframes isDescriptor inside =>
    obtain ⟨text, htext⟩ := inside.exists_keeps
    exact ⟨_, .descriptors notKeyframes isDescriptor htext⟩
  | raw notKeyframes notDescriptors => exact ⟨_, .raw notKeyframes notDescriptors⟩

theorem Reads.exists_keeps {top : Bool} {ls : List Lexeme} {rs : List Rule} (h : Reads top ls rs) :
    ∃ text, Keeps top ls rs text := by
  induction h with
  | nil => exact ⟨_, .nil⟩
  | skip skipped _ ih =>
    obtain ⟨text, htext⟩ := ih
    exact ⟨_, .skip skipped htext⟩
  | style notSkipped notAt isRun hasSelectors opens isBalanced closes inside _ ih =>
    obtain ⟨text, htext⟩ := ih
    obtain ⟨inner, hinner⟩ := inside.exists_keeps
    exact ⟨_, .style notSkipped notAt isRun hasSelectors opens isBalanced closes hinner htext⟩
  | last isAt isRun => exact ⟨_, .last isAt isRun⟩
  | statement isAt isRun ends _ ih =>
    obtain ⟨text, htext⟩ := ih
    exact ⟨_, .statement isAt isRun ends htext⟩
  | group isAt isRun opens isBalanced closes isGroup _ _ ihInside ih =>
    obtain ⟨text, htext⟩ := ih
    obtain ⟨inner, hinner⟩ := ihInside
    exact ⟨_, .group isAt isRun opens isBalanced closes isGroup hinner htext⟩
  | block isAt isRun opens isBalanced closes notGroup inside _ ih =>
    obtain ⟨text, htext⟩ := ih
    obtain ⟨inner, hinner⟩ := inside.exists_keeps
    exact ⟨_, .block isAt isRun opens isBalanced closes notGroup hinner htext⟩

end Rule

/-! ## Losing characters -/

/-- The characters of a text that are neither white space nor semicolons. -/
def solid (cs : List Char) : List Char :=
  cs.filter fun c => !(isSpace c || c == ';')

/-- Whether a text is left over when another one loses some characters that `p` selects. -/
inductive Loses (p : Char → Prop) : List Char → List Char → Prop where
  /-- Nothing is left. -/
  | nil : Loses p [] []
  /-- A character stays. -/
  | keep (c : Char) {cs ds : List Char} (rest : Loses p cs ds) : Loses p (c :: cs) (c :: ds)
  /-- A character is lost. -/
  | lose {c : Char} {cs ds : List Char} (selected : p c) (rest : Loses p cs ds) :
      Loses p (c :: cs) ds

section

variable {p : Char → Prop} {cs ds cs' ds' : List Char}

theorem solid_append (cs ds : List Char) : solid (cs ++ ds) = solid cs ++ solid ds :=
  List.filter_append cs ds

theorem solid_of_isSpace (h : ∀ c ∈ cs, isSpace c) : solid cs = [] :=
  List.filter_eq_nil_iff.2 fun c hc => by simp [h c hc]

theorem Loses.refl (cs : List Char) : Loses p cs cs := by
  induction cs with
  | nil => exact .nil
  | cons c cs ih => exact .keep c ih

theorem Loses.of_eq (h : cs = ds) : Loses p cs ds :=
  h ▸ .refl cs

theorem Loses.append (h : Loses p cs ds) (h' : Loses p cs' ds') :
    Loses p (cs ++ cs') (ds ++ ds') := by
  induction h with
  | nil => exact h'
  | keep c _ ih => exact .keep c ih
  | lose selected _ ih => exact .lose selected ih

theorem Loses.all (h : ∀ c ∈ cs, p c) : Loses p cs [] := by
  induction cs with
  | nil => exact .nil
  | cons c cs ih =>
    exact .lose (h c List.mem_cons_self) (ih fun x hx => h x (List.mem_cons_of_mem c hx))

theorem Loses.eq (h : Loses (fun _ => False) cs ds) : cs = ds := by
  induction h with
  | nil => rfl
  | keep c _ ih => rw [ih]
  | lose selected => exact selected.elim

/-- Trimming loses blank characters only. -/
theorem loses_trim (s : String) (h : ∀ c ∈ s.toList, isBlank c → isSpace c ∨ p c) :
    Loses p (solid s.toList) (solid (trim s).toList) := by
  obtain ⟨as, bs, hs, has, hbs⟩ := exists_trim isBlank s.toList
  have lost : ∀ cs : List Char, (∀ c ∈ cs, c ∈ s.toList) → (∀ c ∈ cs, isBlank c) →
      Loses p (solid cs) [] := by
    intro cs hsub hcs
    refine .all fun c hc => ?_
    obtain ⟨hc, hsolid⟩ := List.mem_filter.1 hc
    exact (h c (hsub c hc) (hcs c hc)).resolve_left fun hspace => by simp [hspace] at hsolid
  rw [trim, String.toList_ofList, trimBlanks]
  rw [hs] at lost
  nth_rewrite 1 [hs]
  rw [solid_append, solid_append]
  have hfront := lost as (fun c hc => by simp [hc]) has
  have hend := lost bs (fun c hc => by simp [hc]) hbs
  simpa using hfront.append ((Loses.refl _).append hend)

end

/-! ## Runs of lexemes -/

/-- A lexeme whose source text shows its token, and whose blank characters are white space or
selected by `p`. -/
structure Lexeme.Fits (p : Char → Prop) (l : Lexeme) : Prop where
  /-- The source text shows the token. -/
  spelled : l.Spelled
  /-- The name of an at-rule stands after its mark. -/
  named : ∀ name, l.token = .atKeyword name → l.raw.toList = '@' :: (Rule.atName l).toList
  /-- Blank characters are white space or selected. -/
  blank : ∀ c ∈ l.raw.toList, isBlank c → Text.isSpace c ∨ p c

section

variable {p : Char → Prop} {ls : List Lexeme}

theorem keptText_cons (l : Lexeme) (ls : List Lexeme) :
    keptText (l :: ls) = keptText [l] ++ keptText ls := by
  simp [keptText]

theorem solid_keptText_singleton {l : Lexeme} (h : l.Spelled) :
    solid (keptText [l]) = solid l.raw.toList := by
  rw [keptText, List.flatMap_singleton]
  split_ifs with hskipped
  · symm
    rcases hskipped with hspace | hsemicolon
    · refine solid_of_isSpace fun c hc => ?_
      rw [Spelled, hspace] at h
      rw [raw] at hc
      split_ifs at hc
      · obtain rfl : c = ' ' := by simpa using hc
        rfl
      · exact h c hc
    · rw [h.toList_raw (c := ';') hsemicolon rfl]
      rfl
  · rfl

/-- The text of a run without white space and semicolons is solid text of the run. -/
theorem solid_joined (h : ∀ l ∈ ls, l.Spelled) :
    solid (joined ls).toList = solid (keptText ls) := by
  induction ls with
  | nil => rfl
  | cons l ls ih =>
    rw [joined_cons, String.toList_append, solid_append, keptText_cons, solid_append,
      solid_keptText_singleton (h l List.mem_cons_self),
      ih fun x hx => h x (List.mem_cons_of_mem l hx)]

theorem solid_joined_of_isSpace (h : ∀ l ∈ ls, l.Spelled) (hs : ∀ l ∈ ls, l.isSpace) :
    solid (joined ls).toList = [] := by
  have hnil : keptText ls = [] :=
    List.flatMap_eq_nil_iff.2 fun l hl => if_pos (.inl (of_decide_eq_true (hs l hl)))
  rw [solid_joined h, hnil]
  rfl

theorem loses_collapsed (h : ∀ l ∈ ls, l.Fits p) :
    Loses p (solid (keptText ls)) (solid (collapsed ls).toList) := by
  have hblank : ∀ c ∈ (ls.flatMap fun l => if l.token = .whitespace then [' '] else l.raw.toList),
      isBlank c → isSpace c ∨ p c := by
    intro c hc
    obtain ⟨l, hl, hc⟩ := List.mem_flatMap.1 hc
    split_ifs at hc with hspace
    · obtain rfl : c = ' ' := by simpa using hc
      exact fun _ => .inl rfl
    · exact (h l hl).blank c hc
  have hsolid : solid (keptText ls) =
      solid (ls.flatMap fun l => if l.token = .whitespace then [' '] else l.raw.toList) := by
    clear hblank
    induction ls with
    | nil => rfl
    | cons l ls ih =>
      rw [keptText_cons, solid_append, ih fun x hx => h x (List.mem_cons_of_mem l hx),
        List.flatMap_cons, solid_append]
      congr 1
      split_ifs with hspace
      · rw [keptText, List.flatMap_singleton, if_pos (.inl hspace)]
        rfl
      · exact solid_keptText_singleton (h l List.mem_cons_self).spelled
  have htrim := loses_trim (String.ofList _) (by rwa [String.toList_ofList])
  rw [String.toList_ofList] at htrim
  rw [hsolid]
  exact htrim

/-! ## Selectors -/

theorem infix_of_mem_commaPieces {piece : List Lexeme} {depth : Nat}
    (h : piece ∈ commaPieces depth ls) : piece <:+: ls := by
  -- The first piece is where the run starts, and the others lie behind it.
  have hpieces : ∃ p ps, commaPieces depth ls = p :: ps ∧ p <+: ls ∧ ∀ q ∈ ps, q <:+: ls := by
    clear h
    induction ls generalizing depth with
    | nil => exact ⟨[], [], rfl, List.nil_prefix, by simp⟩
    | cons l ls ih =>
      rw [commaPieces]
      generalize (if l.token.opensGroup then depth + 1
        else if l.token.closesGroup then depth - 1 else depth) = depth'
      obtain ⟨p, ps, heq, hp, hps⟩ := @ih depth'
      rw [heq]
      split_ifs
      · refine ⟨[], p :: ps, rfl, List.nil_prefix, List.forall_mem_cons.2 ⟨?_, fun q hq => ?_⟩⟩
        · exact hp.isInfix.trans (List.suffix_cons l ls).isInfix
        · exact (hps q hq).trans (List.suffix_cons l ls).isInfix
      · refine ⟨l :: p, ps, rfl, List.cons_prefix_cons.2 ⟨rfl, hp⟩, fun q hq => ?_⟩
        exact (hps q hq).trans (List.suffix_cons l ls).isInfix
  obtain ⟨p, ps, heq, hp, hps⟩ := hpieces
  rw [heq] at h
  rcases List.mem_cons.1 h with rfl | h
  · exact hp.isInfix
  · exact hps piece h

theorem selectorsCss_cons (s : String) {ss : List String} (h : ss ≠ []) :
    selectorsCss (s :: ss) = s ++ "," ++ selectorsCss ss := by
  cases ss with
  | nil => exact absurd rfl h
  | cons t ts => rfl

/-- The pieces between the commas, with the commas, are the run. -/
theorem selectorsCss_commaPieces (h : ∀ l ∈ ls, l.Spelled) (depth : Nat) :
    selectorsCss ((commaPieces depth ls).map joined) = joined ls := by
  induction ls generalizing depth with
  | nil => rfl
  | cons l ls ih =>
    rw [commaPieces]
    generalize (if l.token.opensGroup then depth + 1
      else if l.token.closesGroup then depth - 1 else depth) = depth'
    have ih := ih (fun x hx => h x (List.mem_cons_of_mem l hx)) depth'
    have hne := commaPieces_ne_nil depth' ls
    split_ifs with hcomma
    · have hraw : l.raw = "," := by
        rw [← String.toList_inj]
        exact (h l List.mem_cons_self).toList_raw hcomma.2 rfl
      rw [List.map_cons, selectorsCss_cons _ (by simpa using hne), ih, joined_cons, hraw]
      rfl
    · split
      · rename_i q qs heq
        rw [heq, List.map_cons] at ih
        rw [List.map_cons, joined_cons, joined_cons, ← ih]
        cases qs with
        | nil => rfl
        | cons q' qs => simp only [List.map_cons, selectorsCss, String.append_assoc]
      · rename_i heq
        exact absurd heq hne

theorem loses_selectors (h : ∀ l ∈ ls, l.Fits p) {selectors : List String}
    (hs : selectors? ls = some selectors) :
    Loses p (solid (keptText ls)) (solid (selectorsCss selectors).toList) := by
  have hspelled : ∀ l ∈ ls, l.Spelled := fun l hl => (h l hl).spelled
  have hpieces : ∀ {ps : List (List Lexeme)} {ss : List String},
      List.Forall₂ (fun q s => collapsed q = s) ps ss → (∀ q ∈ ps, ∀ l ∈ q, l.Fits p) →
      Loses p (solid (selectorsCss (ps.map joined)).toList) (solid (selectorsCss ss).toList) := by
    intro ps ss hall
    induction hall with
    | nil => exact fun _ => .refl _
    | @cons q s ps ss hq hrest ih =>
      intro hfits
      have hfirst := hfits q List.mem_cons_self
      have hlost := loses_collapsed hfirst
      rw [hq, ← solid_joined fun l hl => (hfirst l hl).spelled] at hlost
      have ih := ih fun r hr => hfits r (List.mem_cons_of_mem q hr)
      cases hrest with
      | nil => exact hlost
      | cons hq' hrest =>
        rw [List.map_cons, selectorsCss_cons _ (by simp), selectorsCss_cons _ (by simp)]
        simp only [String.toList_append, solid_append]
        exact (hlost.append (.refl _)).append ih
  rw [← solid_joined hspelled, ← selectorsCss_commaPieces hspelled 0]
  exact hpieces (forall₂_selectors hs) fun q hq l hl =>
    h l ((infix_of_mem_commaPieces hq).subset hl)

end

/-! ## Declarations -/

namespace Declaration

theorem trimSpace_of_mark (front spaces : List Lexeme) {after : List Lexeme} {bang word : Lexeme}
    (isBang : bang.isSpace = false) (isWord : word.isSpace = false)
    (afterSpaces : ∀ s ∈ after, s.isSpace) :
    trimSpace (front ++ bang :: (spaces ++ word :: after)) =
      front.dropWhile Lexeme.isSpace ++ bang :: (spaces ++ [word]) := by
  have hfront : (front ++ bang :: (spaces ++ word :: after)).dropWhile Lexeme.isSpace =
      front.dropWhile Lexeme.isSpace ++ bang :: (spaces ++ word :: after) := by
    induction front with
    | nil => rw [List.nil_append, List.dropWhile_cons_of_neg (by simp [isBang])]; rfl
    | cons l front ih =>
      rw [List.cons_append, List.dropWhile_cons, List.dropWhile_cons, ih]
      split_ifs <;> rfl
  have hreverse : (front.dropWhile Lexeme.isSpace ++ bang :: (spaces ++ word :: after)).reverse =
      after.reverse ++ word ::
        (front.dropWhile Lexeme.isSpace ++ bang :: spaces).reverse := by simp
  rw [trimSpace, hfront, dropSpaceEnd, hreverse,
    dropWhile_spaces (fun s hs => afterSpaces s (List.mem_reverse.1 hs)) isWord]
  simp

/-- The text of the values is that of the lexemes without the white space at their end. -/
theorem cssAll_value (custom : Bool) {ls : List Lexeme} (h : ∀ l ∈ ls, l.Spelled)
    (hclosed : (ls.map token).foldlM closersAfter [] = some []) :
    Value.cssAll (if custom then
        if (dropSpaceEnd ls).isEmpty then [] else [.other (joined (dropSpaceEnd ls))]
      else Value.ofLexemes (dropSpaceEnd ls)) = joined (dropSpaceEnd ls) := by
  obtain ⟨bs, hls, hbs⟩ := exists_dropSpaceEnd ls
  generalize dropSpaceEnd ls = as at hls ⊢
  subst hls
  rw [List.map_append, foldlM_append_neutral _ (closersAfter_of_isSpace hbs)] at hclosed
  split_ifs with hcustom hempty
  · rw [List.isEmpty_iff.1 hempty]
    rfl
  · rw [Value.cssAll, Value.css, Value.cssAll, String.append_empty]
  · exact Value.cssAll_ofLexemes (fun l hl => h l (List.mem_append_left _ hl)) hclosed

theorem solid_dropSpaceEnd {ls : List Lexeme} (h : ∀ l ∈ ls, l.Spelled) :
    solid (joined (dropSpaceEnd ls)).toList = solid (joined ls).toList := by
  obtain ⟨bs, hls, hbs⟩ := exists_dropSpaceEnd ls
  generalize dropSpaceEnd ls = as at hls ⊢
  subst hls
  rw [joined_append, String.toList_append, solid_append,
    solid_joined_of_isSpace (fun l hl => h l (List.mem_append_right _ hl)) hbs, List.append_nil]

theorem solid_dropWhile {ls : List Lexeme} (h : ∀ l ∈ ls, l.Spelled) :
    solid (joined (ls.dropWhile Lexeme.isSpace)).toList = solid (joined ls).toList := by
  have hls := List.takeWhile_append_dropWhile (p := Lexeme.isSpace) (l := ls)
  have hspaces : ∀ l ∈ ls.takeWhile Lexeme.isSpace, l.isSpace :=
    fun l hl => List.all_eq_true.1 List.all_takeWhile l hl
  have hspelled : ∀ l ∈ ls.takeWhile Lexeme.isSpace, l.Spelled :=
    fun l hl => h l ((List.takeWhile_prefix _).subset hl)
  nth_rewrite 2 [← hls]
  rw [joined_append, String.toList_append, solid_append, solid_joined_of_isSpace hspelled hspaces,
    List.nil_append]

/-- The text of a declaration is its name, a colon and the text of the value. -/
theorem solid_css (name : String) {value : List Lexeme} {text : List Char}
    (h : KeepsValue value text) (hs : ∀ l ∈ value, l.Spelled)
    (hclosed : (value.map token).foldlM closersAfter [] = some []) :
    solid (ofLexemes name value).css.toList = solid (name.toList ++ (':' :: text)) := by
  have hclosed := foldlM_trimSpace hclosed
  have hcons : name.toList ++ (':' :: text) = name.toList ++ ":".toList ++ text := by simp
  rw [hcons, solid_append _ text]
  cases h with
  | @important front spaces after bang word important isBang areSpaces isWord isName afterSpaces =>
    have hfront : ∀ l ∈ front, l.Spelled := fun l hl => hs l (by simp [hl])
    have hdrop : ∀ l ∈ front.dropWhile Lexeme.isSpace, l.Spelled :=
      fun l hl => hfront l ((List.dropWhile_suffix _).subset hl)
    have hbang : bang.isSpace = false := by simp [Lexeme.isSpace, isBang]
    have hword : word.isSpace = false := by simp [Lexeme.isSpace, isWord]
    have htrim := trimSpace_of_mark front spaces hbang hword afterSpaces
    have hsplit := splitImportant_of_mark (front.dropWhile Lexeme.isSpace) isBang areSpaces isWord
      isName
    rw [htrim, List.map_append, foldlM_append_neutral _ (closersAfter_of_mark isBang areSpaces
      isWord)] at hclosed
    rw [← htrim] at hsplit
    rw [ofLexemes_eq hsplit, css, cssAll_value _ hdrop hclosed]
    simp only [String.toList_append, solid_append, if_true]
    rw [solid_dropSpaceEnd hdrop, solid_dropWhile hfront, solid_joined hfront, List.append_assoc]
  | plain notImportant =>
    obtain ⟨as, bs, hvalue, -, hbs⟩ := exists_trimSpace value
    have hdrop : ∀ l ∈ value.dropWhile Lexeme.isSpace, l.Spelled :=
      fun l hl => hs l ((List.dropWhile_suffix _).subset hl)
    have htrim : ∀ l ∈ trimSpace value, l.Spelled := fun l hl => hs l (by
      rw [hvalue]
      simp [hl])
    rcases splitImportant_cases (trimSpace value) with hsplit | ⟨front, bang, spaces, word, word',
      -, hfront, hbang, hspaces, hword, hname⟩
    · rw [ofLexemes_eq hsplit, css, cssAll_value _ htrim hclosed]
      have hempty : solid "".toList = [] := rfl
      simp only [String.toList_append, solid_append, Bool.false_eq_true, if_false, hempty,
        List.append_nil]
      rw [solid_dropSpaceEnd htrim, trimSpace, solid_dropSpaceEnd hdrop, solid_dropWhile hs,
        solid_joined hs]
    · refine absurd hbs (notImportant (as ++ front) spaces bs bang word word' ?_ hbang hspaces hword
        hname)
      nth_rewrite 1 [hvalue]
      rw [hfront]
      simp

theorem solid_cssAll_cons (d : Declaration) (ds : List Declaration) :
    solid (cssAll (d :: ds)).toList = solid d.css.toList ++ solid (cssAll ds).toList := by
  have hsemicolon : solid ";".toList = [] := rfl
  cases ds with
  | nil => exact (List.append_nil _).symm
  | cons e ds =>
    rw [cssAll]
    · simp only [String.toList_append, solid_append, hsemicolon, List.append_nil]
    · simp

theorem Keeps.solid_eq {ls : List Lexeme} {ds : List Declaration} {text : List Char}
    (h : Keeps ls ds text) (hs : ∀ l ∈ ls, l.Spelled) :
    solid text = solid (cssAll ds).toList := by
  induction h with
  | nil => rfl
  | skip skipped _ ih => exact ih fun x hx => hs x (List.mem_cons_of_mem _ hx)
  | @declaration l c spaces value rest ds name valueText text isName areSpaces isColon isRun ends
      keepsValue others ih =>
    have hcolon : c.raw.toList = [':'] := (hs c (by simp)).toList_raw isColon rfl
    have hcss := solid_css l.raw keepsValue (fun x hx => hs x (by simp [hx]))
      (foldlM_of_isRun isRun)
    rw [solid_cssAll_cons, hcss, ← ih fun x hx => hs x (by simp [hx]), hcolon, ← solid_append]
    simp

end Declaration

/-! ## Rules -/

section

variable {p : Char → Prop}

/-- A rule with a block loses what its parts lose. -/
theorem loses_block {x head inner text v : List Char} {inside : String} {b r : Lexeme}
    (hb : b.Spelled) (hr : r.Spelled) (opens : b.token = .leftBrace)
    (closes : r.token = .rightBrace) (hx : Loses p (solid head) (solid x))
    (hinside : Loses p (solid inner) (solid inside.toList))
    (hv : Loses p (solid text) (solid v)) :
    Loses p (solid (head ++ b.raw.toList ++ inner ++ r.raw.toList ++ text))
      (solid (x ++ (braces inside).toList ++ v)) := by
  have hopen : b.raw.toList = ['\x7b'] := hb.toList_raw opens rfl
  have hclose : r.raw.toList = ['\x7d'] := hr.toList_raw closes rfl
  have hbraces : (braces inside).toList = ['\x7b'] ++ inside.toList ++ ['\x7d'] := by simp [braces]
  rw [hopen, hclose, hbraces]
  simp only [solid_append, ← List.append_assoc]
  exact ((((hx.append (.refl _)).append hinside).append (.refl _)).append hv)

theorem Keyframe.Keeps.loses {ls : List Lexeme} {fs : List Keyframe} {text : List Char}
    (h : Keeps ls fs text) (hs : ∀ l ∈ ls, l.Fits p) :
    Loses p (solid text) (solid (cssAll fs).toList) := by
  induction h with
  | nil => exact .nil
  | skip isSpace _ ih => exact ih fun x hx => hs x (List.mem_cons_of_mem _ hx)
  | @frame head body rest b r ds fs inner text notSpace isRun opens isBalanced closes inside _ ih =>
    have hinside := inside.solid_eq fun x hx => (hs x (by simp [hx])).spelled
    rw [cssAll, css, String.toList_append, String.toList_append]
    exact loses_block (hs b (by simp)).spelled (hs r (by simp)).spelled opens closes
      (loses_collapsed fun x hx => hs x (by simp [hx])) (.of_eq hinside)
      (ih fun x hx => hs x (by simp [hx]))

namespace Rule

theorem loses_atHead {l : Lexeme} {head : List Lexeme} {name : String}
    (isAt : l.token = .atKeyword name) (hs : ∀ x ∈ l :: head, x.Fits p) :
    Loses p (solid (keptText (l :: head)))
      (solid (AtHead.css ⟨atName l, collapsed head⟩).toList) := by
  have hl := hs l List.mem_cons_self
  have hhead := loses_collapsed fun x hx => hs x (List.mem_cons_of_mem l hx)
  have hprelude : solid (if collapsed head = "" then [] else ' ' :: (collapsed head).toList) =
      solid (collapsed head).toList := by
    split_ifs with hempty
    · rw [hempty]
      rfl
    · rw [solid, solid, List.filter_cons_of_neg (by decide)]
  rw [keptText_cons, solid_append, solid_keptText_singleton hl.spelled, hl.named name isAt,
    AtHead.toList_css, ← List.cons_append, solid_append]
  dsimp only
  rw [hprelude]
  exact (Loses.refl _).append hhead

theorem KeepsBlock.exists_inside {head : AtHead} {body : List Lexeme} {rule : Rule}
    {text : List Char} (h : KeepsBlock head body rule text) (hs : ∀ l ∈ body, l.Fits p) :
    ∃ inside, css rule = head.css ++ braces inside ∧
      Loses p (solid text) (solid inside.toList) := by
  have hspelled : ∀ l ∈ body, l.Spelled := fun l hl => (hs l hl).spelled
  cases h with
  | keyframes isKeyframes inside => exact ⟨_, by rw [css], inside.loses hs⟩
  | descriptors notKeyframes isDescriptor inside =>
    exact ⟨_, by rw [css], .of_eq (inside.solid_eq hspelled)⟩
  | raw notKeyframes notDescriptors =>
    refine ⟨_, by rw [css], ?_⟩
    rw [← solid_joined hspelled]
    refine loses_trim _ fun c hc => ?_
    rw [joined, String.toList_ofList] at hc
    obtain ⟨l, hl, hc⟩ := List.mem_flatMap.1 hc
    exact (hs l hl).blank c hc

/-- What is read and written again loses nothing but blank characters. -/
theorem Keeps.loses {top : Bool} {ls : List Lexeme} {rs : List Rule} {text : List Char}
    (h : Keeps top ls rs text) (hs : ∀ l ∈ ls, l.Fits p) :
    Loses p (solid text) (solid (cssAll rs).toList) := by
  induction h with
  | nil =>
    rw [cssAll]
    exact .nil
  | skip skipped _ ih => exact ih fun x hx => hs x (List.mem_cons_of_mem _ hx)
  | @style top l b r head body rest selectors ds rs inner text notSkipped notAt isRun hasSelectors
      opens isBalanced closes inside _ ih =>
    have hhead : ∀ x ∈ l :: head, x.Fits p := fun x hx => hs x (List.mem_append_left _ hx)
    have hinside := inside.solid_eq fun x hx => (hs x (by simp [hx])).spelled
    rw [cssAll, css, StyleRule.css, String.toList_append, String.toList_append]
    exact loses_block (hs b (by simp)).spelled (hs r (by simp)).spelled opens closes
      (loses_selectors hhead hasSelectors) (.of_eq hinside) (ih fun x hx => hs x (by simp [hx]))
  | @last top l head name isAt isRun =>
    have hsemicolon : solid ";".toList = [] := rfl
    have hempty : solid "".toList = [] := rfl
    rw [cssAll, css, cssAll]
    simp only [String.toList_append, solid_append, hsemicolon, hempty, List.append_nil]
    exact loses_atHead isAt hs
  | @statement top l e head rest name rs text isAt isRun ends _ ih =>
    have hsemicolon : solid ";".toList = [] := rfl
    rw [cssAll, css]
    simp only [String.toList_append, solid_append, hsemicolon, List.append_nil]
    exact (loses_atHead isAt fun x hx => hs x (List.mem_append_left _ hx)).append
      (ih fun x hx => hs x (by simp [hx]))
  | @group top l b r head body rest name inner rs innerText text isAt isRun opens isBalanced closes
      isGroup _ _ ihInside ih =>
    rw [cssAll, css, String.toList_append, String.toList_append]
    exact loses_block (hs b (by simp)).spelled (hs r (by simp)).spelled opens closes
      (loses_atHead isAt fun x hx => hs x (List.mem_append_left _ hx))
      (ihInside fun x hx => hs x (by simp [hx])) (ih fun x hx => hs x (by simp [hx]))
  | @block top l b r head body rest name rule rs inner text isAt isRun opens isBalanced closes
      notGroup inside _ ih =>
    obtain ⟨written, hcss, hinside⟩ := inside.exists_inside fun x hx => hs x (by simp [hx])
    rw [cssAll, hcss, String.toList_append, String.toList_append]
    exact loses_block (hs b (by simp)).spelled (hs r (by simp)).spelled opens closes
      (loses_atHead isAt fun x hx => hs x (List.mem_append_left _ hx)) hinside
      (ih fun x hx => hs x (by simp [hx]))

end Rule

end

/-! ## Style sheets -/

theorem Lexer.exists_cons_of_startsName {s : List Char} (h : startsName s) :
    ∃ c r, s = c :: r ∧ (isNameChar c ∨ c = '\\' ∧ escapes r) := by
  unfold startsName at h
  split at h
  · exact ⟨_, _, rfl, .inl (by decide)⟩
  · exact ⟨_, _, rfl, .inr ⟨rfl, h⟩⟩
  · exact ⟨_, _, rfl, .inl (isNameChar_of_isNameStart h)⟩
  · cases h

/-- An at-keyword is one mark and the characters of a name. -/
theorem exists_name_of_at {s : String} {l : Lexeme} (hl : l ∈ scan s) (hspelled : l.Spelled)
    {name : String} (isAt : l.token = .atKeyword name) :
    ∃ c n, l.raw.toList = '@' :: c :: n ∧ c ≠ '@' := by
  obtain ⟨n, r, hn, hstarts, hsource⟩ := exists_name_of_atKeyword hl hspelled isAt
  obtain ⟨c, r', rfl, hc⟩ := Lexer.exists_cons_of_startsName hstarts
  obtain ⟨n', rfl, -⟩ := Lexer.exists_cons_of_suffix (Lexer.name_cons_suffix hc) hsource
  refine ⟨c, n', by rw [raw, if_neg (by simp [isAt]), hn], ?_⟩
  rintro rfl
  revert hc
  simp [Lexer.isNameChar, Lexer.isNameStart]

/-- The name of an at-rule is its at-keyword without the mark in front. -/
theorem toList_raw_of_at {s : String} {l : Lexeme} (hl : l ∈ scan s) (hspelled : l.Spelled)
    {name : String} (isAt : l.token = .atKeyword name) :
    l.raw.toList = '@' :: (Rule.atName l).toList := by
  obtain ⟨c, n, hraw, hne⟩ := exists_name_of_at hl hspelled isAt
  rw [Rule.atName, String.toList_ofList, hraw]
  simp [hne]

namespace Stylesheet

/-- A style sheet keeps the text of its lexemes but for blank characters that are not white space
of style sheets, and all of it where there are none. -/
theorem parse_keeps {source : String} {sheet : Stylesheet} (h : parse source = .ok sheet) :
    (∃ text, Rule.Keeps true (scan source) sheet.rules text) ∧
      ∀ text, Rule.Keeps true (scan source) sheet.rules text →
        Loses (fun c => isBlank c) (solid text) (solid sheet.css.toList) ∧
          ((∀ l ∈ scan source, ∀ c ∈ l.raw.toList, isBlank c → isSpace c) →
            solid text = solid sheet.css.toList) := by
  obtain ⟨hbroken, hreads⟩ := parse_eq_ok_iff.1 h
  have hspelled : ∀ l ∈ scan source, l.Spelled := spelled_scanFrom hbroken
  have hnamed : ∀ l ∈ scan source, ∀ name, l.token = .atKeyword name →
      l.raw.toList = '@' :: (Rule.atName l).toList :=
    fun l hl name isAt => toList_raw_of_at hl (hspelled l hl) isAt
  refine ⟨hreads.exists_keeps, fun text htext => ⟨?_, fun hblank => ?_⟩⟩
  · exact htext.loses fun l hl => ⟨hspelled l hl, hnamed l hl, fun c _ hc => .inr hc⟩
  · exact Loses.eq (htext.loses fun l hl =>
      ⟨hspelled l hl, hnamed l hl, fun c hc hb => .inl (hblank l hl c hc hb)⟩)

/-- Where no blank character is lost, the whole text is kept. -/
theorem parse_keeps_important :
    ∃ sheet text, parse "a \x7b b : c ! IMPORTANT ; \x7d" = .ok sheet ∧
      Rule.Keeps true (scan "a \x7b b : c ! IMPORTANT ; \x7d") sheet.rules text ∧
        solid text = solid sheet.css.toList := by
  have h : parse "a \x7b b : c ! IMPORTANT ; \x7d" =
      .ok ⟨[.style ⟨["a"], [⟨"b", [.identifier "c"], true⟩]⟩]⟩ := by decide +kernel
  have hblank : (scan "a \x7b b : c ! IMPORTANT ; \x7d").all fun l =>
      l.raw.toList.all fun c => !isBlank c || isSpace c := by decide +kernel
  obtain ⟨⟨text, htext⟩, hkeeps⟩ := parse_keeps h
  refine ⟨_, text, h, htext, (hkeeps text htext).2 fun l hl c hc hisBlank => ?_⟩
  have hspace := List.all_eq_true.1 (List.all_eq_true.1 hblank l hl) c hc
  rwa [hisBlank] at hspace

/-- A blank character that starts a name is lost in front of a selector. -/
theorem parse_loses_blank :
    ∃ sheet text, parse "\u00A0a\x7b\x7d" = .ok sheet ∧
      Rule.Keeps true (scan "\u00A0a\x7b\x7d") sheet.rules text ∧
        solid text ≠ solid sheet.css.toList := by
  have hscan : scan "\u00A0a\x7b\x7d" =
      [⟨.ident "\u00A0a", "\u00A0a", 0⟩, ⟨.leftBrace, "\x7b", 3⟩, ⟨.rightBrace, "\x7d", 4⟩] := by
    decide +kernel
  refine ⟨⟨[.style ⟨["a"], []⟩]⟩, "\u00A0a\x7b\x7d".toList, by decide +kernel, ?_,
    by decide +kernel⟩
  rw [hscan]
  change Rule.Keeps true (_ :: ([] ++ _ :: ([] ++ _ :: []))) _ _
  exact .style rfl (by simp) rfl (by decide +kernel) rfl rfl rfl .nil .nil

end Stylesheet

end Restyle.Css
