import Mathlib.Data.List.Forall2
import Mathlib.Tactic.SplitIfs
import Restyle.Proofs.Css.ClosedRuns

/-!
# The tree weighs no more than the text

What is read from a run of lexemes is written with no more characters than the run holds, spaces
and the semicolons after at-rules aside (`Rule.Reads.weight_le`).
-/

namespace Restyle.Css

open Text Lexeme

/-! ## Text of lexemes -/

theorem weight_cons (semicolons : Bool) (c : Char) (cs : List Char) :
    weight semicolons (c :: cs) = weight semicolons [c] + weight semicolons cs :=
  weight_append semicolons [c] cs

theorem weight_true (cs : List Char) : weight true cs = weight false cs + cs.count ';' := by
  induction cs with
  | nil => rfl
  | cons c cs ih =>
    rw [weight_cons, weight_cons false, ih, List.count_cons]
    by_cases hc : c = ';'
    · subst hc
      simp [weight, counts]
      omega
    · have hbeq : (c == ';') = false := by simpa using hc
      simp [weight, counts, hc, hbeq]
      omega

theorem weight_trim_le (semicolons : Bool) (s : String) :
    weight semicolons (trim s).toList ≤ weight semicolons s.toList := by
  obtain ⟨as, bs, hs, -, -⟩ := exists_trim isBlank s.toList
  rw [trim, String.toList_ofList, trimBlanks]
  nth_rewrite 2 [hs]
  rw [weight_append, weight_append]
  omega

theorem count_of_blank {cs : List Char} (h : ∀ c ∈ cs, isBlank c) : cs.count ';' = 0 := by
  apply List.count_eq_zero_of_not_mem
  intro hmem
  have := h _ hmem
  revert this
  decide

theorem count_trim (s : String) : (trim s).toList.count ';' = s.toList.count ';' := by
  obtain ⟨as, bs, hs, has, hbs⟩ := exists_trim isBlank s.toList
  rw [trim, String.toList_ofList, trimBlanks]
  nth_rewrite 2 [hs]
  rw [List.count_append, List.count_append, count_of_blank has, count_of_blank hbs]
  omega

theorem weight_raw (semicolons : Bool) (l : Lexeme) :
    weight semicolons l.raw.toList = weight semicolons l.source.toList := by
  unfold raw
  split_ifs with h
  · rw [h.2]
    rfl
  · rfl

theorem joined_cons (l : Lexeme) (ls : List Lexeme) : joined (l :: ls) = l.raw ++ joined ls := by
  rw [← String.toList_inj]
  simp [joined]

theorem joined_append (as bs : List Lexeme) : joined (as ++ bs) = joined as ++ joined bs := by
  rw [← String.toList_inj]
  simp [joined]

theorem weight_joined (semicolons : Bool) (ls : List Lexeme) :
    weight semicolons (joined ls).toList = weight semicolons (written ls) := by
  rw [joined, String.toList_ofList]
  induction ls with
  | nil => rfl
  | cons l ls ih =>
    rw [List.flatMap_cons, weight_append, ih, weight_raw, written_cons, weight_append]

theorem weight_collapsed_le (semicolons : Bool) (ls : List Lexeme) :
    weight semicolons (collapsed ls).toList ≤ weight semicolons (written ls) := by
  apply Nat.le_trans (weight_trim_le semicolons _)
  rw [String.toList_ofList]
  induction ls with
  | nil => exact Nat.le_refl _
  | cons l ls ih =>
    rw [List.flatMap_cons, weight_append, written_cons, weight_append]
    refine Nat.add_le_add ?_ ih
    split_ifs
    · exact Nat.zero_le _
    · exact Nat.le_of_eq (weight_raw semicolons l)

/-- Collapsing white space keeps all semicolons. -/
theorem count_collapsed {ls : List Lexeme} (h : ∀ l ∈ ls, l.Spelled) :
    (collapsed ls).toList.count ';' = (written ls).count ';' := by
  rw [collapsed, count_trim, String.toList_ofList]
  induction ls with
  | nil => rfl
  | cons l ls ih =>
    rw [List.flatMap_cons, List.count_append, written_cons, List.count_append,
      ih fun x hx => h x (List.mem_cons_of_mem l hx)]
    congr 1
    have hl := h l List.mem_cons_self
    split_ifs with hspace
    · rw [Spelled, hspace] at hl
      exact (count_of_blank fun c hc => isBlank_of_isSpace (hl c hc)).symm
    · rw [raw, if_neg fun hand => hspace hand.1]

/-! ## Selectors -/

theorem weight_comma (semicolons : Bool) : weight semicolons [','] = 1 := by
  cases semicolons <;> rfl

theorem commaPieces_ne_nil (depth : Nat) (ls : List Lexeme) : commaPieces depth ls ≠ [] := by
  cases ls with
  | nil => simp [commaPieces]
  | cons l ls =>
    rw [commaPieces]
    generalize (if l.token.opensGroup then depth + 1
      else if l.token.closesGroup then depth - 1 else depth) = depth'
    split_ifs
    · simp
    · split <;> simp

/-- Every piece is a part of the run, and every further one costs a comma. -/
theorem weight_commaPieces_le (semicolons : Bool) {ls : List Lexeme} (h : ∀ l ∈ ls, l.Spelled)
    (depth : Nat) :
    weight semicolons ((commaPieces depth ls).flatMap written) + (commaPieces depth ls).length ≤
      weight semicolons (written ls) + 1 := by
  induction ls generalizing depth with
  | nil => exact Nat.le_refl 1
  | cons l ls ih =>
    rw [commaPieces, written_cons, weight_append]
    generalize (if l.token.opensGroup then depth + 1
      else if l.token.closesGroup then depth - 1 else depth) = depth'
    have ih := ih (fun x hx => h x (List.mem_cons_of_mem l hx)) depth'
    split_ifs with hcomma
    · have hnil : weight semicolons (written []) = 0 := rfl
      have hsource := (h l List.mem_cons_self).toList_source (c := ',') hcomma.2 rfl
      rw [hsource, weight_comma, List.flatMap_cons, weight_append, List.length_cons]
      omega
    · split
      · rename_i p ps heq
        rw [heq, List.flatMap_cons, weight_append, List.length_cons] at ih
        rw [List.flatMap_cons, weight_append, List.length_cons, written_cons, weight_append]
        omega
      · rename_i heq
        exact absurd heq (commaPieces_ne_nil depth' ls)

theorem weight_selectorsCss_le (semicolons : Bool) {selectors : List String} (h : selectors ≠ []) :
    weight semicolons (selectorsCss selectors).toList + 1 ≤
      weight semicolons (selectors.flatMap String.toList) + selectors.length := by
  induction selectors with
  | nil => exact absurd rfl h
  | cons s ss ih =>
    cases ss with
    | nil => simp [selectorsCss]
    | cons s' ss =>
      have ih := ih (by simp)
      have hcomma : weight semicolons ",".toList = 1 := weight_comma semicolons
      rw [selectorsCss, String.toList_append, String.toList_append, weight_append, weight_append,
        hcomma, List.flatMap_cons, weight_append, List.length_cons]
      · omega
      · simp

theorem mapM_eq_some_iff {f : List Lexeme → Option String} {ps : List (List Lexeme)}
    {ss : List String} :
    ps.mapM f = some ss ↔ List.Forall₂ (fun p s => f p = some s) ps ss := by
  induction ps generalizing ss with
  | nil => simp [eq_comm]
  | cons p ps ih =>
    simp only [List.mapM_cons, Option.bind_eq_bind, Option.bind_eq_some_iff, Option.pure_def,
      Option.some.injEq, ih, List.forall₂_cons_left_iff, exists_and_left, @eq_comm _ ss]

/-- The entries of a selector list are pieces, white space collapsed, and none is empty. -/
theorem selectors?_eq_some_iff {ls : List Lexeme} {ss : List String} :
    selectors? ls = some ss ↔
      List.Forall₂ (fun p s => collapsed p = s ∧ s ≠ "") (commaPieces 0 ls) ss := by
  have hentry : ∀ p s, (if collapsed p = "" then none else some (collapsed p)) = some s ↔
      collapsed p = s ∧ s ≠ "" := by
    intro p s
    split_ifs with hempty
    · simp only [false_iff, hempty]
      exact fun h => h.2 h.1.symm
    · rw [Option.some.injEq]
      exact (and_iff_left_of_imp fun heq => heq ▸ hempty).symm
  rw [selectors?, mapM_eq_some_iff]
  exact ⟨fun h => h.imp fun p s => (hentry p s).1, fun h => h.imp fun p s => (hentry p s).2⟩

theorem forall₂_selectors {ls : List Lexeme} {selectors : List String}
    (h : selectors? ls = some selectors) :
    List.Forall₂ (fun p s => collapsed p = s) (commaPieces 0 ls) selectors :=
  (selectors?_eq_some_iff.1 h).imp fun _ _ hp => hp.1

/-- The texts of the pieces weigh no more than the pieces. -/
theorem weight_flatMap_le (semicolons : Bool) {ps : List (List Lexeme)} {ss : List String}
    (h : List.Forall₂ (fun p s => collapsed p = s) ps ss) :
    weight semicolons (ss.flatMap String.toList) ≤ weight semicolons (ps.flatMap written) := by
  induction h with
  | nil => exact Nat.le_refl _
  | @cons p s ps ss hp _ ih =>
    have hle := weight_collapsed_le semicolons p
    rw [hp] at hle
    rw [List.flatMap_cons, weight_append, List.flatMap_cons, weight_append]
    exact Nat.add_le_add hle ih

theorem weight_selectors_le (semicolons : Bool) {ls : List Lexeme} (h : ∀ l ∈ ls, l.Spelled)
    {selectors : List String} (hs : selectors? ls = some selectors) :
    weight semicolons (selectorsCss selectors).toList ≤ weight semicolons (written ls) := by
  have hpieces := weight_commaPieces_le semicolons h 0
  have hlength := (forall₂_selectors hs).length_eq
  have hle := weight_flatMap_le semicolons (forall₂_selectors hs)
  have hne : selectors ≠ [] := by
    intro hnil
    rw [hnil] at hlength
    exact commaPieces_ne_nil 0 ls (List.eq_nil_of_length_eq_zero hlength)
  have := weight_selectorsCss_le semicolons hne
  omega

/-! ## Values -/

namespace Value

theorem cssAll_pushOther (text : String) (vs : List Value) :
    cssAll (pushOther text vs) = text ++ cssAll vs := by
  unfold pushOther
  split
  · rw [cssAll, cssAll, css, css, String.append_assoc]
  · rw [cssAll, css]

/-- The text of the values of a run with closed groups is that of the run. -/
theorem cssAll_ofLexemes {ls : List Lexeme} (h : ∀ l ∈ ls, l.Spelled) {closers : List Token}
    (hclosed : (ls.map token).foldlM closersAfter closers = some []) :
    cssAll (ofLexemes ls) = joined ls := by
  have hrun := closedRun_iff.2 hclosed
  clear hclosed
  induction hrun with
  | nil =>
    rw [ofLexemes]
    rfl
  | word v _ _ isWritten reads _ ih =>
    rw [List.forall_mem_cons] at h
    rw [reads, cssAll, isWritten h.1, ih h.2, joined_cons]
  | other _ reads _ ih =>
    rw [List.forall_mem_cons] at h
    rw [reads, cssAll_pushOther, ih h.2, joined_cons]
  | @call _ l r args rest _ isFunction closes inside _ ihInside ihBehind =>
    rw [List.forall_mem_cons, List.forall_mem_append, List.forall_mem_cons] at h
    obtain ⟨hl, hargs, hr, hrest⟩ := h
    rw [Spelled, isFunction] at hl
    obtain ⟨name, hname⟩ := hl
    have htext : l.raw.toList = name ++ ['('] := by
      rw [raw, if_neg (by simp [isFunction]), hname]
    have hparen : r.raw.toList = [')'] := hr.toList_raw closes rfl
    rw [ofLexemes_group isFunction closes inside.foldlM_eq, cssAll, css, ihInside hargs,
      ihBehind hrest, joined_cons, joined_append, joined_cons, htext, List.dropLast_concat,
      ← String.toList_inj]
    simp [htext, hparen]

theorem weight_ofLexemes_le (semicolons : Bool) {ls : List Lexeme} (h : ∀ l ∈ ls, l.Spelled)
    {closers : List Token} (hclosed : (ls.map token).foldlM closersAfter closers = some []) :
    weight semicolons (cssAll (ofLexemes ls)).toList ≤ weight semicolons (written ls) := by
  rw [cssAll_ofLexemes h hclosed]
  exact Nat.le_of_eq (weight_joined semicolons ls)

end Value

/-! ## Declarations -/

/-- Tokens that neither open nor close a group leave the open groups as they are. -/
theorem foldlM_of_neutral {ts : List Token} (h : ∀ t ∈ ts, ∀ cs, closersAfter cs t = some cs)
    (closers : List Token) : ts.foldlM closersAfter closers = some closers := by
  induction ts with
  | nil => rfl
  | cons t ts ih =>
    rw [List.foldlM_cons, h t List.mem_cons_self]
    exact ih fun x hx => h x (List.mem_cons_of_mem t hx)

theorem foldlM_append_neutral (ts : List Token) {us : List Token}
    (h : ∀ t ∈ us, ∀ cs, closersAfter cs t = some cs) (closers : List Token) :
    (ts ++ us).foldlM closersAfter closers = ts.foldlM closersAfter closers := by
  rw [List.foldlM_append, funext fun cs => foldlM_of_neutral h cs]
  exact bind_pure _

theorem foldlM_neutral_append {us : List Token} (h : ∀ t ∈ us, ∀ cs, closersAfter cs t = some cs)
    (ts : List Token) (closers : List Token) :
    (us ++ ts).foldlM closersAfter closers = ts.foldlM closersAfter closers := by
  rw [List.foldlM_append, foldlM_of_neutral h]
  rfl

theorem closersAfter_of_isSpace {ls : List Lexeme} (h : ∀ l ∈ ls, l.isSpace) :
    ∀ t ∈ ls.map token, ∀ cs, closersAfter cs t = some cs := by
  intro t ht cs
  obtain ⟨l, hl, rfl⟩ := List.mem_map.1 ht
  have hspace := h l hl
  rw [Lexeme.isSpace, decide_eq_true_eq] at hspace
  rw [hspace]
  rfl

/-- At the end nothing but white space is dropped. -/
theorem exists_dropSpaceEnd (ls : List Lexeme) :
    ∃ bs, ls = dropSpaceEnd ls ++ bs ∧ ∀ b ∈ bs, b.isSpace :=
  exists_trimEnd Lexeme.isSpace ls

/-- At both ends nothing but white space is dropped. -/
theorem exists_trimSpace (ls : List Lexeme) :
    ∃ as bs, ls = as ++ (trimSpace ls ++ bs) ∧ (∀ a ∈ as, a.isSpace) ∧ ∀ b ∈ bs, b.isSpace :=
  exists_trim Lexeme.isSpace ls

/-- Nothing in the mark `!important` opens or closes a group. -/
theorem closersAfter_of_mark {spaces : List Lexeme} {bang word : Lexeme} {name : String}
    (isBang : bang.token = .delim '!') (areSpaces : ∀ s ∈ spaces, s.isSpace)
    (isWord : word.token = .ident name) :
    ∀ t ∈ (bang :: (spaces ++ [word])).map token, ∀ cs, closersAfter cs t = some cs := by
  intro t ht cs
  simp only [List.map_cons, List.map_append, List.map_nil, List.mem_cons, List.mem_append,
    List.not_mem_nil, or_false] at ht
  rcases ht with rfl | ht | rfl
  · rw [isBang]
    rfl
  · exact closersAfter_of_isSpace areSpaces t ht cs
  · rw [isWord]
    rfl

theorem foldlM_trimSpace {ls : List Lexeme} {closers : List Token}
    (h : (ls.map token).foldlM closersAfter closers = some []) :
    ((trimSpace ls).map token).foldlM closersAfter closers = some [] := by
  obtain ⟨as, bs, hls, has, hbs⟩ := exists_trimSpace ls
  rw [hls, List.map_append, foldlM_neutral_append (closersAfter_of_isSpace has), List.map_append,
    foldlM_append_neutral _ (closersAfter_of_isSpace hbs)] at h
  exact h

theorem written_sublist {as bs : List Lexeme} (h : as.Sublist bs) (semicolons : Bool) :
    weight semicolons (written as) ≤ weight semicolons (written bs) := by
  induction h with
  | slnil => exact Nat.le_refl _
  | cons l _ ih =>
    rw [written_cons, weight_append]
    omega
  | cons_cons l _ ih =>
    rw [written_cons, written_cons, weight_append, weight_append]
    omega

theorem length_of_sameLetters {s t : String} (h : sameLetters s t) :
    s.toList.length = t.toList.length := by
  rw [sameLetters, beq_iff_eq, lower, lower, String.ofList_inj] at h
  simpa using congrArg List.length h

namespace Declaration

/-- What is split off the end of a value is the mark, its word and white space between them. -/
theorem splitImportant_cases (ls : List Lexeme) :
    splitImportant ls = (ls, false) ∨
      ∃ value bang spaces word name, splitImportant ls = (value, true) ∧
        ls = value ++ bang :: (spaces ++ [word]) ∧ bang.token = .delim '!' ∧
          (∀ s ∈ spaces, s.isSpace) ∧ word.token = .ident name ∧ sameLetters name "important" := by
  unfold splitImportant
  split
  · rename_i name source start before hls
    have hspaces := List.takeWhile_append_dropWhile (p := Lexeme.isSpace) (l := before)
    split
    · rename_i source' start' value hvalue
      split
      · rename_i hname
        right
        refine ⟨value.reverse, ⟨.delim '!', source', start'⟩,
          (before.takeWhile Lexeme.isSpace).reverse, ⟨.ident name, source, start⟩, name, rfl, ?_,
          rfl, fun s hs => List.all_eq_true.1 List.all_takeWhile s (List.mem_reverse.1 hs), rfl,
          hname⟩
        rw [hvalue] at hspaces
        rw [← List.reverse_inj, hls]
        simpa using hspaces.symm
      · exact .inl rfl
    · exact .inl rfl
  · exact .inl rfl

theorem splitImportant_of_mark (front : List Lexeme) {spaces : List Lexeme} {bang word : Lexeme}
    {name : String} (isBang : bang.token = .delim '!') (areSpaces : ∀ s ∈ spaces, s.isSpace)
    (isWord : word.token = .ident name) (isName : sameLetters name "important") :
    splitImportant (front ++ bang :: (spaces ++ [word])) = (front, true) := by
  have hreverse : (front ++ bang :: (spaces ++ [word])).reverse =
      word :: (spaces.reverse ++ bang :: front.reverse) := by simp
  have hbang : bang.isSpace = false := by simp [Lexeme.isSpace, isBang]
  have hdrop := dropWhile_spaces (fun s hs => areSpaces s (List.mem_reverse.1 hs)) hbang
    front.reverse
  rw [splitImportant, hreverse]
  obtain ⟨t, source, start⟩ := word
  obtain ⟨t', source', start'⟩ := bang
  cases isWord
  cases isBang
  simp only [hdrop, if_pos isName, List.reverse_reverse]

theorem ofLexemes_eq {name : String} {ls value : List Lexeme} {important : Bool}
    (h : splitImportant (trimSpace ls) = (value, important)) :
    ofLexemes name ls =
      { name
        value :=
          if isCustomName name then
            if (dropSpaceEnd value).isEmpty then [] else [.other (joined (dropSpaceEnd value))]
          else Value.ofLexemes (dropSpaceEnd value)
        important } := by
  rw [ofLexemes, h]

theorem weight_value_le (semicolons custom : Bool) {ls : List Lexeme} (h : ∀ l ∈ ls, l.Spelled)
    (hclosed : (ls.map token).foldlM closersAfter [] = some []) :
    weight semicolons (Value.cssAll (if custom then
        if (dropSpaceEnd ls).isEmpty then [] else [.other (joined (dropSpaceEnd ls))]
      else Value.ofLexemes (dropSpaceEnd ls))).toList ≤ weight semicolons (written ls) := by
  obtain ⟨bs, hls, hbs⟩ := exists_dropSpaceEnd ls
  generalize dropSpaceEnd ls = as at hls ⊢
  subst hls
  rw [List.map_append, foldlM_append_neutral _ (closersAfter_of_isSpace hbs)] at hclosed
  refine Nat.le_trans ?_ (written_sublist (List.sublist_append_left as bs) semicolons)
  split_ifs
  · exact Nat.zero_le _
  · rw [Value.cssAll, Value.css, Value.cssAll, String.append_empty, weight_joined]
  · exact Value.weight_ofLexemes_le semicolons (fun l hl => h l (List.mem_append_left _ hl)) hclosed

theorem weight_important (semicolons : Bool) : weight semicolons "!important".toList = 10 := by
  cases semicolons <;> rfl

theorem weight_false_le (semicolons : Bool) (cs : List Char) :
    weight false cs ≤ weight semicolons cs := by
  cases semicolons
  · exact Nat.le_refl _
  · rw [weight_true]
    omega

theorem weight_ofLexemes_le (semicolons : Bool) (name : String) {ls : List Lexeme}
    (h : ∀ l ∈ ls, l.Spelled) (hclosed : (ls.map token).foldlM closersAfter [] = some []) :
    weight semicolons (ofLexemes name ls).css.toList ≤
      weight semicolons name.toList +
        (weight semicolons [':'] + weight semicolons (written ls)) := by
  obtain ⟨as, bs, hls, -, -⟩ := exists_trimSpace ls
  have hsublist : (trimSpace ls).Sublist ls := by
    nth_rewrite 2 [hls]
    exact (List.sublist_append_left _ bs).trans (List.sublist_append_right as _)
  have hspelled : ∀ l ∈ trimSpace ls, l.Spelled := fun l hl => h l (hsublist.subset hl)
  have htrim := foldlM_trimSpace hclosed
  have hle := written_sublist hsublist semicolons
  have hcolon : weight semicolons ":".toList = weight semicolons [':'] := rfl
  rcases splitImportant_cases (trimSpace ls) with hsplit | ⟨value, bang, spaces, word, important,
    hsplit, hvalue, hbang, hspaces, hword, hname⟩
  · have hvalue := weight_value_le semicolons (isCustomName name) hspelled htrim
    have hempty : weight semicolons "".toList = 0 := rfl
    rw [ofLexemes_eq hsplit, css]
    simp only [String.toList_append, weight_append, Bool.false_eq_true, if_false, hempty, hcolon]
    omega
  · have hneutral := closersAfter_of_mark hbang hspaces hword
    rw [hvalue, List.map_append, foldlM_append_neutral _ hneutral] at htrim
    rw [hvalue] at hspelled hle
    have hvalueLe := weight_value_le semicolons (isCustomName name)
      (fun l hl => hspelled l (List.mem_append_left _ hl)) htrim
    have hbangSource : bang.source.toList = ['!'] := by
      have := hspelled bang (by simp)
      rwa [Spelled, hbang] at this
    have hwordLe : 9 ≤ weight semicolons word.source.toList := by
      have hlength : important.toList.length = 9 := length_of_sameLetters hname
      have := hspelled word (by simp)
      rw [Spelled, hword] at this
      exact Nat.le_trans (Nat.le_of_eq hlength.symm)
        (Nat.le_trans this (weight_false_le semicolons _))
    have hbangWeight : weight semicolons ['!'] = 1 := by cases semicolons <;> rfl
    rw [written_append, written_cons, written_append, written_cons, hbangSource] at hle
    rw [ofLexemes_eq hsplit, css]
    simp only [String.toList_append, weight_append, if_true, hcolon, hbangWeight,
      weight_important] at hle ⊢
    omega

/-- A declaration weighs no more than its lexemes. -/
theorem weight_declaration_le {l c : Lexeme} {spaces value : List Lexeme}
    (h : ∀ x ∈ l :: (spaces ++ c :: value), x.Spelled) (isColon : c.token = .colon)
    (isRun : Css.isRun endsValue [] (value.map token)) (semicolons : Bool) :
    weight semicolons (ofLexemes l.raw value).css.toList ≤
      weight semicolons (written (l :: (spaces ++ c :: value))) := by
  have hvalue := weight_ofLexemes_le semicolons l.raw
    (fun x (hx : x ∈ value) => h x (by simp [hx])) (foldlM_of_isRun isRun)
  have hcolon := (h c (by simp)).toList_source (c := ':') isColon rfl
  rw [weight_raw] at hvalue
  rw [written_cons, written_append, written_cons, hcolon]
  simp only [weight_append]
  omega

/-- What is read is written with no more characters. Where a semicolon comes first, there is one
left for the printer. -/
theorem Reads.weight_le {ls : List Lexeme} {ds : List Declaration} (h : Reads ls ds)
    (hs : ∀ l ∈ ls, l.Spelled) (semicolons : Bool) :
    weight semicolons (cssAll ds).toList ≤ weight semicolons (written ls) ∧
      ∀ e ∈ ls.head?, e.token = .semicolon →
        weight semicolons [';'] + weight semicolons (cssAll ds).toList ≤
          weight semicolons (written ls) := by
  induction h with
  | nil => exact ⟨Nat.zero_le _, by simp⟩
  | @skip l ls ds skipped rest ih =>
    have ih := (ih fun x hx => hs x (List.mem_cons_of_mem l hx)).1
    rw [written_cons, weight_append]
    refine ⟨by omega, fun e he hsemicolon => ?_⟩
    obtain rfl : l = e := by simpa using he
    rw [(hs l List.mem_cons_self).toList_source (c := ';') hsemicolon rfl]
    omega
  | @declaration l c spaces value rest ds name isName areSpaces isColon isRun ends others ih =>
    have hrest := ih fun x hx => hs x (by simp [hx])
    have hsplit : l :: (spaces ++ c :: (value ++ rest)) =
        l :: (spaces ++ c :: value) ++ rest := by simp
    rw [hsplit] at hs ⊢
    have hfirst := weight_declaration_le (fun x hx => hs x (List.mem_append_left _ hx)) isColon
      isRun semicolons
    refine ⟨?_, fun e he hsemicolon => ?_⟩
    · rw [written_append, weight_append]
      cases ds with
      | nil =>
        rw [cssAll]
        omega
      | cons d ds =>
        have hne : rest ≠ [] := by
          rintro rfl
          cases others
        obtain ⟨e, rest, rfl⟩ := List.exists_cons_of_ne_nil hne
        have hle := hrest.2 e rfl (ends e rfl)
        have hsemicolon : weight semicolons ";".toList = weight semicolons [';'] := rfl
        rw [cssAll, String.toList_append, String.toList_append, weight_append, weight_append,
          hsemicolon]
        · omega
        · simp
    · obtain rfl : l = e := by simpa using he
      rw [isName] at hsemicolon
      cases hsemicolon

end Declaration

/-! ## Rules -/

theorem toList_braces (inside : String) :
    (braces inside).toList = '\x7b' :: (inside.toList ++ ['\x7d']) := by
  simp [braces]

/-- A rule with a block weighs no more than its lexemes if its parts do not. -/
theorem weight_block_le {semicolons : Bool} {x v : List Char} {inside : String} (head : List Lexeme)
    {b r : Lexeme} {body rest : List Lexeme}
    (hs : ∀ l ∈ head ++ b :: (body ++ r :: rest), l.Spelled) (opens : b.token = .leftBrace)
    (closes : r.token = .rightBrace) (hx : weight semicolons x ≤ weight semicolons (written head))
    (hinside : weight semicolons inside.toList ≤ weight semicolons (written body))
    (hv : weight semicolons v ≤ weight semicolons (written rest)) :
    weight semicolons (x ++ (braces inside).toList ++ v) ≤
      weight semicolons (written (head ++ b :: (body ++ r :: rest))) := by
  have hopen := (hs b (by simp)).toList_source (c := '\x7b') opens rfl
  have hclose := (hs r (by simp)).toList_source (c := '\x7d') closes rfl
  rw [toList_braces, written_append, written_cons, written_append, written_cons, hopen, hclose,
    weight_append, weight_append, weight_cons, weight_append]
  simp only [weight_append]
  omega

namespace Keyframe

theorem Reads.weight_le {ls : List Lexeme} {fs : List Keyframe} (h : Reads ls fs)
    (hs : ∀ l ∈ ls, l.Spelled) (semicolons : Bool) :
    weight semicolons (cssAll fs).toList ≤ weight semicolons (written ls) := by
  induction h with
  | nil => exact Nat.zero_le _
  | @skip l ls fs isSpace rest ih =>
    have ih := ih fun x hx => hs x (List.mem_cons_of_mem l hx)
    rw [written_cons, weight_append]
    omega
  | @frame head body rest b r ds fs notSpace isRun opens isBalanced closes inside others ih =>
    have ih := ih fun x hx => hs x (by simp [hx])
    have hinside := (inside.weight_le (fun x hx => hs x (by simp [hx])) semicolons).1
    rw [cssAll, css, String.toList_append, String.toList_append]
    exact weight_block_le head hs opens closes (weight_collapsed_le semicolons head) hinside ih

end Keyframe

namespace AtHead

theorem toList_css (h : AtHead) :
    h.css.toList =
      '@' :: (h.name.toList ++ if h.preludeText = "" then [] else ' ' :: h.preludeText.toList) := by
  rw [css]
  split_ifs <;> simp

end AtHead

namespace Rule

theorem toList_atName {l : Lexeme} {name : String} (isAt : l.token = .atKeyword name) :
    (atName l).toList = l.source.toList.dropWhile (· == '@') := by
  rw [atName, String.toList_ofList, Lexeme.raw, if_neg (by simp [isAt])]

/-- The name of an at-rule is its at-keyword without the marks in front. -/
theorem exists_source_of_at {l : Lexeme} {name : String} (hl : l.Spelled)
    (isAt : l.token = .atKeyword name) :
    ∃ marks, l.source.toList = '@' :: (marks ++ (atName l).toList) ∧ ∀ c ∈ marks, c = '@' := by
  rw [toList_atName isAt]
  rw [Spelled, isAt] at hl
  obtain ⟨n, hn⟩ := hl
  refine ⟨n.takeWhile (· == '@'), ?_, fun c hc => ?_⟩
  · rw [hn, List.dropWhile_cons_of_pos (by decide), List.takeWhile_append_dropWhile]
  · simpa using List.all_eq_true.1 List.all_takeWhile c hc

section

variable {l : Lexeme} {name : String} {head : List Lexeme}

theorem weight_head_le (hl : l.Spelled) (isAt : l.token = .atKeyword name) (head : List Lexeme)
    (semicolons : Bool) :
    weight semicolons (AtHead.css ⟨atName l, collapsed head⟩).toList ≤
      weight semicolons (written (l :: head)) := by
  obtain ⟨marks, hsource, -⟩ := exists_source_of_at hl isAt
  have hhead := weight_collapsed_le semicolons head
  have hspace : weight semicolons [' '] = 0 := by cases semicolons <;> rfl
  rw [AtHead.toList_css, written_cons, hsource, weight_append,
    weight_cons semicolons '@' (marks ++ _), weight_append, weight_cons semicolons '@' (_ ++ _),
    weight_append]
  dsimp only
  split_ifs with hempty
  · have hnil : weight semicolons [] = 0 := rfl
    omega
  · rw [weight_cons semicolons ' ', hspace]
    omega

/-- The part of an at-rule before its block keeps all semicolons. -/
theorem count_head (hl : l.Spelled) (isAt : l.token = .atKeyword name)
    (hs : ∀ x ∈ head, x.Spelled) :
    (AtHead.css ⟨atName l, collapsed head⟩).toList.count ';' =
      (written (l :: head)).count ';' := by
  obtain ⟨marks, hsource, hmarks⟩ := exists_source_of_at hl isAt
  have hnone : marks.count ';' = 0 := by
    apply List.count_eq_zero_of_not_mem
    intro hmem
    have := hmarks _ hmem
    revert this
    decide
  have hat : ('@' : Char) ≠ ';' := by decide
  have hspace : (' ' : Char) ≠ ';' := by decide
  rw [AtHead.toList_css, written_cons, hsource, List.count_append, ← count_collapsed hs,
    List.count_cons_of_ne hat, List.count_cons_of_ne hat, List.count_append, List.count_append,
    hnone]
  dsimp only
  split_ifs with hempty
  · rw [hempty, Nat.zero_add]
    rfl
  · rw [List.count_cons_of_ne hspace, Nat.zero_add]

end

theorem BlockReads.exists_inside {head : AtHead} {body : List Lexeme} {rule : Rule}
    (h : BlockReads head body rule) (hs : ∀ l ∈ body, l.Spelled) :
    ∃ inside, css rule = head.css ++ braces inside ∧
      weight false inside.toList ≤ weight false (written body) := by
  cases h with
  | keyframes isKeyframes inside => exact ⟨_, by rw [css], inside.weight_le hs false⟩
  | descriptors notKeyframes isDescriptor inside =>
    exact ⟨_, by rw [css], (inside.weight_le hs false).1⟩
  | raw notKeyframes notDescriptors =>
    refine ⟨_, by rw [css], ?_⟩
    rw [← weight_joined]
    exact weight_trim_le false _

/-- What is read is written with no more characters than the text has, apart from spaces and
semicolons. -/
theorem Reads.weight_le {top : Bool} {ls : List Lexeme} {rs : List Rule} (h : Reads top ls rs)
    (hs : ∀ l ∈ ls, l.Spelled) :
    weight false (cssAll rs).toList ≤ weight false (written ls) := by
  induction h with
  | nil =>
    rw [cssAll]
    exact Nat.zero_le _
  | @skip top l ls rs skipped rest ih =>
    have ih := ih fun x hx => hs x (List.mem_cons_of_mem l hx)
    rw [written_cons, weight_append]
    omega
  | @style top l b r head body rest selectors ds rs notSkipped notAt isRun hasSelectors opens
      isBalanced closes inside others ih =>
    have ih := ih fun x hx => hs x (by simp [hx])
    have hinside := (inside.weight_le (fun x hx => hs x (by simp [hx])) false).1
    have hhead := weight_selectors_le false (fun x (hx : x ∈ l :: head) => hs x (by
      rcases List.mem_cons.1 hx with rfl | hx <;> simp [*])) hasSelectors
    rw [cssAll, css, StyleRule.css, String.toList_append, String.toList_append]
    exact weight_block_le (l :: head) hs opens closes hhead hinside ih
  | @last top l head name isAt isRun =>
    have hhead := weight_head_le (hs l (by simp)) isAt head false
    have hsemicolon : weight false ";".toList = 0 := rfl
    have hempty : weight false "".toList = 0 := rfl
    rw [cssAll, css, cssAll]
    simp only [String.toList_append, weight_append]
    omega
  | @statement top l e head rest name rs isAt isRun ends others ih =>
    have ih := ih fun x hx => hs x (by simp [hx])
    have hhead := weight_head_le (hs l (by simp)) isAt head false
    have hsemicolon : weight false ";".toList = 0 := rfl
    rw [← List.cons_append, written_append, written_cons e rest, cssAll, css]
    simp only [String.toList_append, weight_append]
    omega
  | @group top l b r head body rest name inner rs isAt isRun opens isBalanced closes isGroup inside
      others ihInside ih =>
    have ih := ih fun x hx => hs x (by simp [hx])
    have hinside := ihInside fun x hx => hs x (by simp [hx])
    rw [cssAll, css, String.toList_append, String.toList_append]
    exact weight_block_le (l :: head) hs opens closes
      (weight_head_le (hs l (by simp)) isAt head false) hinside ih
  | @block top l b r head body rest name rule rs isAt isRun opens isBalanced closes notGroup inside
      others ih =>
    have ih := ih fun x hx => hs x (by simp [hx])
    obtain ⟨text, hcss, hinside⟩ := inside.exists_inside fun x hx => hs x (by simp [hx])
    rw [cssAll, hcss, String.toList_append, String.toList_append]
    exact weight_block_le (l :: head) hs opens closes
      (weight_head_le (hs l (by simp)) isAt head false) hinside ih

end Rule

end Restyle.Css
