import Restyle.Proofs.Css.Keeping
import Restyle.Proofs.Css.Layout
import Restyle.Proofs.Revision.Grayscale

/-!
# Declaration values are kept as they are written

`Declaration.LeavesOut` says which lexemes of a declaration value count: all but the white space
around them and the mark `!important`. `Declaration.Stand` says that declarations stand one after
another in a run of lexemes, with just the text of what counts as their values. Main statement: the
declarations of a sheet, at any depth, stand so in the text that it was read from
(`Stylesheet.parse_declarations_stand`).
-/

namespace Restyle.Css

open Text Lexeme

namespace Declaration

/-! ## What counts of a value -/

/-- What is left of the lexemes of a value without the white space around it and without the mark
`!important`, and whether there is such a mark. -/
inductive LeavesOut : List Lexeme → List Lexeme → Bool → Prop where
  /-- The mark ends the value. -/
  | important {before kept between spaces after : List Lexeme} {bang word : Lexeme} {name : String}
      (beforeSpaces : ∀ s ∈ before, s.isSpace) (isTrimmed : IsTrimmed kept)
      (betweenSpaces : ∀ s ∈ between, s.isSpace) (isBang : bang.token = .delim '!')
      (areSpaces : ∀ s ∈ spaces, s.isSpace) (isWord : word.token = .ident name)
      (isName : sameLetters name "important") (afterSpaces : ∀ s ∈ after, s.isSpace) :
      LeavesOut (before ++ (kept ++ (between ++ bang :: (spaces ++ word :: after)))) kept true
  /-- No mark ends the value. -/
  | plain {before kept after : List Lexeme} (beforeSpaces : ∀ s ∈ before, s.isSpace)
      (isTrimmed : IsTrimmed kept) (afterSpaces : ∀ s ∈ after, s.isSpace)
      (notMarked : ∀ (front spaces : List Lexeme) (bang word : Lexeme) (name : String),
        kept = front ++ bang :: (spaces ++ [word]) → bang.token = .delim '!' →
          (∀ s ∈ spaces, s.isSpace) → word.token = .ident name → ¬ sameLetters name "important") :
      LeavesOut (before ++ (kept ++ after)) kept false

theorem IsTrimmed.of_append {as bs : List Lexeme} (h : IsTrimmed (as ++ bs))
    (hlast : ∀ front l, as = front ++ [l] → l.isSpace = false) : IsTrimmed as := by
  refine ⟨fun l hl => h.head l ?_, hlast⟩
  rw [List.head?_append, Option.mem_def.1 hl]
  rfl

/-- The value of a declaration is the text of what counts. -/
theorem exists_leavesOut (name : String) {ls : List Lexeme} (hs : ∀ l ∈ ls, l.Spelled)
    (hclosed : (ls.map token).foldlM closersAfter [] = some []) :
    ∃ kept, LeavesOut ls kept (ofLexemes name ls).important ∧
      Value.cssAll (ofLexemes name ls).value = joined kept := by
  obtain ⟨before, after, hls, hbefore, hafter⟩ := exists_trimSpace ls
  have htrimmed := isTrimmed_trimSpace ls
  have hclosed := foldlM_trimSpace hclosed
  have hspelled : ∀ l ∈ trimSpace ls, l.Spelled := fun l hl => hs l (by rw [hls]; simp [hl])
  rcases splitImportant_cases (trimSpace ls) with hsplit | ⟨value, bang, spaces, word, important,
    hsplit, hvalue, isBang, areSpaces, isWord, isName⟩
  · have hend := dropSpaceEnd_eq_self htrimmed.last
    refine ⟨trimSpace ls, ?_, ?_⟩
    · rw [ofLexemes_eq hsplit]
      nth_rewrite 1 [hls]
      refine .plain hbefore htrimmed hafter ?_
      intro front spaces bang word important hkept isBang areSpaces isWord isName
      -- With a mark at the end, the split would have found it.
      rw [hkept, splitImportant_of_mark front isBang areSpaces isWord isName] at hsplit
      exact absurd (congrArg Prod.snd hsplit) Bool.noConfusion
    · rw [ofLexemes_eq hsplit, cssAll_value _ hspelled hclosed, hend]
  · obtain ⟨between, hbetween, hspaces⟩ := exists_dropSpaceEnd value
    have hkept : IsTrimmed (dropSpaceEnd value) := by
      rw [hvalue, hbetween, List.append_assoc] at htrimmed
      exact IsTrimmed.of_append htrimmed (last_dropSpaceEnd value)
    refine ⟨dropSpaceEnd value, ?_, ?_⟩
    · have hparts : ls = before ++ (dropSpaceEnd value ++
          (between ++ bang :: (spaces ++ word :: after))) := by
        nth_rewrite 1 [hls]
        rw [hvalue]
        nth_rewrite 1 [hbetween]
        simp
      rw [ofLexemes_eq hsplit]
      nth_rewrite 1 [hparts]
      exact .important hbefore hkept hspaces isBang areSpaces isWord isName hafter
    · rw [hvalue, List.map_append,
        foldlM_append_neutral _ (closersAfter_of_mark isBang areSpaces isWord)] at hclosed
      rw [ofLexemes_eq hsplit]
      exact cssAll_value _ (fun l hl => hspelled l (by rw [hvalue]; simp [hl])) hclosed

/-! ## Where declarations stand -/

/-- Whether a declaration may start after a run of lexemes: only white space comes after the brace
that opens a block, or after a semicolon. -/
def StartsAfter (ls : List Lexeme) : Prop :=
  ∃ front e spaces, ls = front ++ e :: spaces ∧ (e.token = .leftBrace ∨ e.token = .semicolon) ∧
    ∀ s ∈ spaces, s.isSpace

/-- Whether declarations stand in a run of lexemes, one after another, each with the text of what
counts of its value. -/
inductive Stand : List Lexeme → List Declaration → Prop where
  /-- No more declarations are there. -/
  | nil {ls : List Lexeme} : Stand ls []
  /-- A declaration, up to a semicolon, to the end of its block or to the end of the run. -/
  | declaration {front spaces value kept rest : List Lexeme} {l c : Lexeme} {name : String}
      {d : Declaration} {ds : List Declaration} (starts : StartsAfter front)
      (isName : l.token = .ident name) (raw_eq : l.raw = d.name)
      (areSpaces : ∀ s ∈ spaces, s.isSpace) (isColon : c.token = .colon)
      (isRun : isRun endsValue [] (value.map token)) (ends : ∀ e ∈ rest.head?, endsValue e.token)
      (leavesOut : LeavesOut value kept d.important) (verbatim : Value.cssAll d.value = joined kept)
      (others : Stand rest ds) :
      Stand (front ++ l :: (spaces ++ c :: (value ++ rest))) (d :: ds)

section

variable {front ls bs : List Lexeme} {ds es : List Declaration}

theorem startsAfter_concat {e : Lexeme} (he : e.token = .leftBrace ∨ e.token = .semicolon) :
    StartsAfter (front ++ [e]) :=
  ⟨front, e, [], rfl, he, by simp⟩

theorem StartsAfter.concat (h : StartsAfter front) {s : Lexeme} (hs : s.isSpace) :
    StartsAfter (front ++ [s]) := by
  obtain ⟨before, e, spaces, rfl, he, hspaces⟩ := h
  refine ⟨before, e, spaces ++ [s], by simp, he, fun x hx => ?_⟩
  rcases List.mem_append.1 hx with hx | hx
  · exact hspaces x hx
  · rwa [List.mem_singleton.1 hx]

theorem StartsAfter.append_left (h : StartsAfter front) (ls : List Lexeme) :
    StartsAfter (ls ++ front) := by
  obtain ⟨before, e, spaces, rfl, he, hspaces⟩ := h
  exact ⟨ls ++ before, e, spaces, by simp, he, hspaces⟩

theorem Stand.append_left (h : Stand ls ds) (front : List Lexeme) : Stand (front ++ ls) ds := by
  cases h with
  | nil => exact .nil
  | declaration starts isName raw_eq areSpaces isColon isRun ends leavesOut verbatim others =>
    rw [← List.append_assoc]
    exact .declaration (starts.append_left front) isName raw_eq areSpaces isColon isRun ends
      leavesOut verbatim others

theorem Stand.cons (h : Stand ls ds) (l : Lexeme) : Stand (l :: ls) ds :=
  h.append_left [l]

/-- Declarations of two runs stand in the whole, if the second run ends what the first leaves
open. -/
theorem Stand.append (h : Stand ls ds) {e : Lexeme} (he : endsValue e.token) (hb : Stand bs es) :
    Stand (ls ++ e :: bs) (ds ++ es) := by
  induction h with
  | nil => exact (hb.cons e).append_left _
  | @declaration front spaces value kept rest l c name d ds starts isName raw_eq areSpaces isColon
      isRun ends leavesOut verbatim others ih =>
    have hends : ∀ x ∈ (rest ++ e :: bs).head?, endsValue x.token := by
      cases rest with
      | nil =>
        intro x hx
        obtain rfl : e = x := by simpa using hx
        exact he
      | cons x rest => exact ends
    have hstand := Stand.declaration starts isName raw_eq areSpaces isColon isRun hends leavesOut
      verbatim ih
    simpa using hstand

/-- The declarations that are read from a run stand in it, after whatever they may start after. -/
theorem Reads.stand (h : Reads ls ds) (hs : ∀ l ∈ ls, l.Spelled) :
    (∀ front, StartsAfter front → Stand (front ++ ls) ds) ∧
      (∀ e ∈ ls.head?, e.token = .semicolon → Stand ls ds) := by
  induction h with
  | nil => exact ⟨fun front _ => .nil, by simp⟩
  | @skip l ls ds skipped rest ih =>
    have ih := (ih fun x hx => hs x (List.mem_cons_of_mem l hx)).1
    refine ⟨fun front hfront => ?_, fun e he hsemicolon => ?_⟩
    · have hstarts : StartsAfter (front ++ [l]) := by
        rcases skipped with hspace | hsemicolon
        · exact hfront.concat (by simp [Lexeme.isSpace, hspace])
        · exact startsAfter_concat (.inr hsemicolon)
      rw [List.append_cons]
      exact ih _ hstarts
    · obtain rfl : l = e := by simpa using he
      exact ih [l] (@startsAfter_concat [] l (.inr hsemicolon))
  | @declaration l c spaces value rest ds name isName areSpaces isColon isRun ends others ih =>
    have hrest := ih fun x hx => hs x (by simp [hx])
    obtain ⟨kept, leavesOut, verbatim⟩ := exists_leavesOut l.raw
      (fun x (hx : x ∈ value) => hs x (by simp [hx])) (foldlM_of_isRun isRun)
    have hstand : Stand rest ds := by
      cases rest with
      | nil =>
        cases others
        exact .nil
      | cons e rest => exact hrest.2 e rfl (ends e rfl)
    refine ⟨fun front hfront => ?_, fun e he hsemicolon => ?_⟩
    · exact .declaration hfront isName rfl areSpaces isColon isRun
        (fun e he => by simp [endsValue, ends e he]) leavesOut verbatim hstand
    · obtain rfl : l = e := by simpa using he
      rw [isName] at hsemicolon
      cases hsemicolon

/-- The declarations of a block stand in it, and others may stand after it. -/
theorem Reads.stand_block (h : Reads ls ds) (hs : ∀ l ∈ ls, l.Spelled) (head : List Lexeme)
    {b r : Lexeme} (opens : b.token = .leftBrace) (closes : r.token = .rightBrace)
    (hb : Stand bs es) : Stand (head ++ b :: (ls ++ r :: bs)) (ds ++ es) := by
  have hinside := (h.stand hs).1 (head ++ [b]) (startsAfter_concat (.inl opens))
  have hstand := hinside.append (e := r) (by simp [endsValue, closes]) hb
  simpa using hstand

end

end Declaration

/-! ## Rules -/

open Declaration

theorem Keyframe.Reads.stand {ls : List Lexeme} {fs : List Keyframe} (h : Reads ls fs)
    (hs : ∀ l ∈ ls, l.Spelled) : Stand ls (fs.flatMap Keyframe.declarations) := by
  induction h with
  | nil => exact .nil
  | @skip l ls fs isSpace rest ih => exact (ih fun x hx => hs x (List.mem_cons_of_mem l hx)).cons l
  | @frame head body rest b r ds fs notSpace isRun opens isBalanced closes inside others ih =>
    rw [List.flatMap_cons]
    exact inside.stand_block (fun x hx => hs x (by simp [hx])) head opens closes
      (ih fun x hx => hs x (by simp [hx]))

namespace Rule

theorem BlockReads.stand {head : AtHead} {body bs : List Lexeme} {rule : Rule}
    {es : List Declaration} (h : BlockReads head body rule) (hs : ∀ l ∈ body, l.Spelled)
    (front : List Lexeme) {b r : Lexeme} (opens : b.token = .leftBrace)
    (closes : r.token = .rightBrace) (hb : Stand bs es) :
    Stand (front ++ b :: (body ++ r :: bs)) (rule.declarations ++ es) := by
  cases h with
  | keyframes isKeyframes inside =>
    rw [declarations]
    have hstand := (inside.stand hs).append (e := r) (by simp [endsValue, closes]) hb
    exact (hstand.cons b).append_left front
  | descriptors notKeyframes isDescriptor inside =>
    rw [declarations]
    exact inside.stand_block hs front opens closes hb
  | raw notKeyframes notDescriptors =>
    rw [declarations]
    exact (((hb.cons r).append_left body).cons b).append_left front

/-- The declarations of rules stand in the run that the rules are read from. -/
theorem Reads.stand {top : Bool} {ls : List Lexeme} {rs : List Rule} (h : Reads top ls rs)
    (hs : ∀ l ∈ ls, l.Spelled) : Stand ls (declarationsAll rs) := by
  induction h with
  | nil =>
    rw [declarationsAll]
    exact .nil
  | @skip top l ls rs skipped rest ih =>
    exact (ih fun x hx => hs x (List.mem_cons_of_mem l hx)).cons l
  | @style top l b r head body rest selectors ds rs notSkipped notAt isRun hasSelectors opens
      isBalanced closes inside others ih =>
    rw [declarationsAll, declarations]
    exact inside.stand_block (fun x hx => hs x (by simp [hx])) (l :: head) opens closes
      (ih fun x hx => hs x (by simp [hx]))
  | last isAt isRun =>
    rw [declarationsAll, declarations, declarationsAll]
    exact .nil
  | @statement top l e head rest name rs isAt isRun ends others ih =>
    rw [declarationsAll, declarations, List.nil_append]
    exact (((ih fun x hx => hs x (by simp [hx])).cons e).append_left head).cons l
  | @group top l b r head body rest name inner rs isAt isRun opens isBalanced closes isGroup inside
      others ihInside ih =>
    rw [declarationsAll, declarations]
    have hinside := ihInside fun x hx => hs x (by simp [hx])
    have hstand := hinside.append (e := r) (by simp [endsValue, closes])
      (ih fun x hx => hs x (by simp [hx]))
    exact ((hstand.cons b).append_left head).cons l
  | @block top l b r head body rest name rule rs isAt isRun opens isBalanced closes notGroup inside
      others ih =>
    rw [declarationsAll]
    exact inside.stand (fun x hx => hs x (by simp [hx])) (l :: head) opens closes
      (ih fun x hx => hs x (by simp [hx]))

end Rule

/-! ## Style sheets -/

/-- The declarations of a sheet stand in its text one after another, and the text of each value is
what is written between the colon and the end of the declaration, without white space around it and
without `!important`. -/
theorem Stylesheet.parse_declarations_stand {source : String} {sheet : Stylesheet}
    (h : parse source = .ok sheet) : Stand (scan source) sheet.declarations := by
  obtain ⟨hbroken, hreads⟩ := parse_eq_ok_iff.1 h
  exact hreads.stand (spelled_scanFrom hbroken)

/-- Nested groups in a value, with white space and a comment around them. -/
theorem Stylesheet.parse_declarations_stand_nested :
    ∃ sheet, parse "@media x\x7b a\x7bb : f( [c (1)]d )/**/! important ;e:g\x7d\x7d" = .ok sheet ∧
      sheet.declarations =
        [⟨"b", [.call "f" [.other " [", .identifier "c", .other " (1)]", .identifier "d",
          .other " "]], true⟩, ⟨"e", [.identifier "g"], false⟩] ∧
      Stand (scan "@media x\x7b a\x7bb : f( [c (1)]d )/**/! important ;e:g\x7d\x7d")
        sheet.declarations := by
  have h : parse "@media x\x7b a\x7bb : f( [c (1)]d )/**/! important ;e:g\x7d\x7d" =
      .ok ⟨[.group ⟨"media", "x"⟩ [.style ⟨["a"], [⟨"b", [.call "f" [.other " [", .identifier "c",
        .other " (1)]", .identifier "d", .other " "]], true⟩,
          ⟨"e", [.identifier "g"], false⟩]⟩]]⟩ := by
    decide +kernel
  exact ⟨_, h, by decide +kernel, parse_declarations_stand h⟩

end Restyle.Css
