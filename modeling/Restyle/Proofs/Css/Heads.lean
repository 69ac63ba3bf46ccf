import Restyle.Proofs.Css.Spacing

/-!
# Selectors and preludes

`Stylesheet.heads` lists what stands before the blocks of a sheet: selectors, preludes of at-rules
and selectors of keyframes. Each is the text of a run of lexemes, and the runs stand in the source
one after another (`Stylesheet.IsBuiltFrom`). Main statement: a text has a space for each piece of
white space between two tokens, and there are several pieces only where comments cut white space.
Sources that differ in nothing but the white space and the comments between their tokens have the
same heads wherever none is cut (`Stylesheet.parse_heads`).
-/

namespace Restyle.Css

open Text Lexeme

/-! ## What stands before blocks -/

namespace Rule

mutual

/-- The selectors, the prelude and the selectors of keyframes in a rule. -/
def heads : Rule → List String
  | style r => r.selectors
  | statement h => [h.preludeText]
  | group h rules => h.preludeText :: headsAll rules
  | descriptors h _ => [h.preludeText]
  | keyframes h frames => h.preludeText :: frames.map Keyframe.selector
  | raw h _ => [h.preludeText]

/-- The selectors, the preludes and the selectors of keyframes in rules. -/
def headsAll : List Rule → List String
  | [] => []
  | r :: rs => heads r ++ headsAll rs

end

end Rule

/-- The selectors, the preludes of at-rules and the selectors of keyframes in a sheet, in order. -/
def Stylesheet.heads (sheet : Stylesheet) : List String :=
  Rule.headsAll sheet.rules

/-! ## Runs one after another -/

/-- Whether runs stand in a run of lexemes one after another. -/
inductive Lexeme.InTurn : List Lexeme → List (List Lexeme) → Prop where
  /-- No more runs are there. -/
  | nil {ls : List Lexeme} : InTurn ls []
  /-- A run, and others after it. -/
  | cons {front run rest : List Lexeme} {runs : List (List Lexeme)} (others : InTurn rest runs) :
      InTurn (front ++ (run ++ rest)) (run :: runs)

namespace Lexeme.InTurn

variable {ls bs run : List Lexeme} {runs runs' : List (List Lexeme)}

theorem single (run : List Lexeme) : InTurn run [run] := by
  have h := @cons [] run [] [] .nil
  rwa [List.nil_append, List.append_nil] at h

theorem append_left (h : InTurn ls runs) (front : List Lexeme) : InTurn (front ++ ls) runs := by
  cases h with
  | nil => exact .nil
  | cons others =>
    rw [← List.append_assoc]
    exact .cons others

theorem append (h : InTurn ls runs) (hb : InTurn bs runs') : InTurn (ls ++ bs) (runs ++ runs') := by
  induction h with
  | nil => exact hb.append_left _
  | cons _ ih =>
    rw [List.append_assoc, List.append_assoc, List.cons_append]
    exact .cons ih

theorem isInfix_of_mem (h : InTurn ls runs) (hrun : run ∈ runs) : run <:+: ls := by
  induction h with
  | nil => cases hrun
  | @cons front run' rest runs _ ih =>
    rcases List.mem_cons.1 hrun with rfl | hrun
    · exact ⟨front, rest, by rw [List.append_assoc]⟩
    · exact (ih hrun).trans ⟨front ++ run', [], by simp⟩

/-- The pieces between commas stand one after another. -/
theorem commaPieces (h : isRun endsSelectors [] (ls.map token)) :
    InTurn ls (commaPieces 0 ls) := by
  induction hn : ls.length using Nat.strongRecOn generalizing ls with
  | ind n ih =>
    subst hn
    rcases commaPieces_cases h with ⟨heq, -⟩ | ⟨p, k, rest, rfl, -, heq, -, hrest⟩ <;>
      rw [List.length_nil] at heq <;> rw [heq]
    · exact single ls
    · have hothers := ih rest.length (by simp; omega) hrest rfl
      exact (single p).append (hothers.append_left [k])

end Lexeme.InTurn

/-- Whether texts are written by runs of lexemes that stand in `ls` one after another: `hs` with a
space for each piece of white space, and `ks` with white space merged. -/
def Lexeme.Writes (ls : List Lexeme) (hs ks : List String) : Prop :=
  ∃ runs, InTurn ls runs ∧ hs = runs.map collapsed ∧ ks = runs.map fun run => collapsed (merged run)

namespace Lexeme.Writes

variable {ls bs : List Lexeme} {hs hs' ks ks' : List String}

theorem nil : Writes ls [] [] :=
  ⟨[], .nil, rfl, rfl⟩

theorem head (run : List Lexeme) : Writes run [collapsed run] [collapsed (merged run)] :=
  ⟨[run], .single run, rfl, rfl⟩

theorem append_left (h : Writes ls hs ks) (front : List Lexeme) : Writes (front ++ ls) hs ks := by
  obtain ⟨runs, hruns, htexts⟩ := h
  exact ⟨runs, hruns.append_left front, htexts⟩

theorem append (h : Writes ls hs ks) (hb : Writes bs hs' ks') :
    Writes (ls ++ bs) (hs ++ hs') (ks ++ ks') := by
  obtain ⟨runs, hruns, rfl, rfl⟩ := h
  obtain ⟨runs', hruns', rfl, rfl⟩ := hb
  exact ⟨runs ++ runs', hruns.append hruns', List.map_append.symm, List.map_append.symm⟩

/-- What stands before a block, in it and behind it. -/
theorem block {head body rest : List Lexeme} {b r : Lexeme} {hs'' ks'' : List String}
    (hhead : Writes head hs ks) (hbody : Writes body hs' ks') (hrest : Writes rest hs'' ks'') :
    Writes (head ++ b :: (body ++ r :: rest)) (hs ++ (hs' ++ hs'')) (ks ++ (ks' ++ ks'')) :=
  hhead.append ((hbody.append (hrest.append_left [r])).append_left [b])

end Lexeme.Writes

/-! ## What is read from merged lexemes -/

/-- Steps of an animation are read from merged lexemes too. -/
theorem Keyframe.Reads.merged {ls : List Lexeme} {fs : List Keyframe} (h : Reads ls fs) :
    ∃ fs', Reads (merged ls) fs' ∧
      Writes ls (fs.map Keyframe.selector) (fs'.map Keyframe.selector) := by
  induction h with
  | nil => exact ⟨[], .nil, .nil⟩
  | @skip l ls fs isSpace _ ih =>
    obtain ⟨fs', hreads, hwrites⟩ := ih
    have hwrites := hwrites.append_left [l]
    rcases merged_cons_cases l ls with ⟨-, hmerged⟩ | hmerged <;> rw [hmerged]
    · exact ⟨fs', hreads, hwrites⟩
    · exact ⟨fs', .skip (by rwa [isSpace_spaced]) hreads, hwrites⟩
  | @frame head body rest b r ds fs notSpace isRun opens isBalanced closes inside _ ih =>
    obtain ⟨fs', hreads, hwrites⟩ := ih
    obtain ⟨ds', hinside⟩ := inside.merged
    refine ⟨⟨collapsed (Lexeme.merged head), ds'⟩ :: fs', ?_,
      (Writes.head head).block (@Writes.nil body) hwrites⟩
    rw [merged_block opens closes]
    refine .frame ?_ ((isRun_merged rfl).trans isRun) opens
      ((isBalanced_merged 0).trans isBalanced) closes hinside hreads
    cases head with
    | nil => simp [Lexeme.merged]
    | cons l head =>
      have hl := notSpace l rfl
      rw [merged_cons hl]
      rintro m ⟨⟩
      exact hl

namespace Rule

/-- The block of an at-rule is read from merged lexemes too, if only as text. -/
theorem BlockReads.merged {name : String} {head body : List Lexeme} {rule : Rule}
    (h : BlockReads ⟨name, collapsed head⟩ body rule) :
    ∃ rule', BlockReads ⟨name, collapsed (merged head)⟩ (merged body) rule' ∧
      ∃ hs ks, rule.heads = collapsed head :: hs ∧
        rule'.heads = collapsed (Lexeme.merged head) :: ks ∧ Writes body hs ks := by
  cases h with
  | keyframes isKeyframes inside =>
    obtain ⟨fs', hreads, hwrites⟩ := inside.merged
    exact ⟨_, .keyframes isKeyframes hreads, _, _, by rw [heads], by rw [heads], hwrites⟩
  | descriptors notKeyframes isDescriptor inside =>
    obtain ⟨ds', hreads⟩ := inside.merged
    exact ⟨_, .descriptors notKeyframes isDescriptor hreads, [], [], by rw [heads], by rw [heads],
      .nil⟩
  | raw notKeyframes notDescriptors =>
    by_cases hds : AtHead.isDescriptorName name ∧
        ∃ ds, Declaration.Reads (Lexeme.merged body) ds
    · obtain ⟨hname, ds, hreads⟩ := hds
      exact ⟨_, .descriptors notKeyframes hname hreads, [], [], by rw [heads], by rw [heads], .nil⟩
    · exact ⟨_, .raw notKeyframes fun hname ds hreads => hds ⟨hname, ds, hreads⟩, [], [],
        by rw [heads], by rw [heads], .nil⟩

theorem atName_plain (l : Lexeme) : atName l.plain = atName l :=
  rfl

/-- Rules are read from merged lexemes too, with what stands before blocks at the same places. -/
theorem Reads.merged {top : Bool} {ls : List Lexeme} {rs : List Rule} (h : Reads top ls rs) :
    ∃ rs', Reads top (merged ls) rs' ∧ Writes ls (headsAll rs) (headsAll rs') := by
  induction h with
  | nil => exact ⟨[], .nil, .nil⟩
  | @skip top l ls rs skipped _ ih =>
    obtain ⟨rs', hreads, hwrites⟩ := ih
    have hwrites := hwrites.append_left [l]
    rcases merged_cons_cases l ls with ⟨-, hmerged⟩ | hmerged <;> rw [hmerged]
    · exact ⟨rs', hreads, hwrites⟩
    · refine ⟨rs', .skip ?_ hreads, hwrites⟩
      rwa [isSkipped, isSpace_spaced, token_spaced]
  | @style top l b r head body rest selectors ds rs notSkipped notAt isRun hasSelectors opens
      isBalanced closes inside _ ih =>
    obtain ⟨rs', hreads, hwrites⟩ := ih
    obtain ⟨ds', hinside⟩ := inside.merged
    have hl : l.isSpace = false := (Bool.or_eq_false_iff.1 notSkipped).1
    obtain ⟨hselectors, hmerged⟩ := selectors?_merged isRun hasSelectors
    rw [merged_cons hl] at hmerged
    refine ⟨.style ⟨(commaPieces 0 (l :: head)).map fun p => collapsed (Lexeme.merged p), ds'⟩ ::
      rs', ?_, ?_⟩
    · rw [merged_cons hl, merged_block opens closes]
      refine .style notSkipped notAt ?_ hmerged opens ((isBalanced_merged 0).trans isBalanced)
        closes hinside hreads
      rw [← merged_cons hl]
      exact (isRun_merged rfl).trans isRun
    · have hpieces : Writes (l :: head) _ _ := ⟨_, .commaPieces isRun, hselectors, rfl⟩
      rw [headsAll, heads, headsAll, heads]
      exact hpieces.block (@Writes.nil body) hwrites
  | @last top l head name isAt isRun =>
    refine ⟨[.statement ⟨atName l.plain, collapsed (Lexeme.merged head)⟩], ?_, ?_⟩
    · rw [merged_cons (by simp [Lexeme.isSpace, isAt])]
      exact .last isAt ((isRun_merged rfl).trans isRun)
    · rw [headsAll, heads, headsAll, headsAll, heads, headsAll]
      exact (Writes.head head).append_left [l]
  | @statement top l e head rest name rs isAt isRun ends _ ih =>
    obtain ⟨rs', hreads, hwrites⟩ := ih
    refine ⟨.statement ⟨atName l.plain, collapsed (Lexeme.merged head)⟩ :: rs', ?_, ?_⟩
    · rw [merged_cons (by simp [Lexeme.isSpace, isAt]),
        merged_append_cons (by simp [Lexeme.isSpace, ends])]
      exact .statement isAt ((isRun_merged rfl).trans isRun) ends hreads
    · rw [headsAll, heads, headsAll, heads]
      exact ((Writes.head head).append (hwrites.append_left [e])).append_left [l]
  | @group top l b r head body rest name inner rs isAt isRun opens isBalanced closes isGroup _ _
      ihInside ih =>
    obtain ⟨inner', hinside, hinner⟩ := ihInside
    rw [← atName_plain] at isGroup
    obtain ⟨rs', hreads, hwrites⟩ := ih
    refine ⟨.group ⟨atName l.plain, collapsed (Lexeme.merged head)⟩ inner' :: rs', ?_, ?_⟩
    · rw [merged_cons (by simp [Lexeme.isSpace, isAt]), merged_block opens closes]
      exact .group isAt ((isRun_merged rfl).trans isRun) opens
        ((isBalanced_merged 0).trans isBalanced) closes isGroup hinside hreads
    · rw [headsAll, heads, headsAll, heads]
      exact ((Writes.head head).block hinner hwrites).append_left [l]
  | @block top l b r head body rest name rule rs isAt isRun opens isBalanced closes notGroup inside
      _ ih =>
    obtain ⟨rs', hreads, hwrites⟩ := ih
    obtain ⟨rule', hrule, hs, ks, hhs, hks, hbody⟩ := inside.merged
    rw [← atName_plain] at notGroup hrule
    refine ⟨rule' :: rs', ?_, ?_⟩
    · rw [merged_cons (by simp [Lexeme.isSpace, isAt]), merged_block opens closes]
      exact .block isAt ((isRun_merged rfl).trans isRun) opens
        ((isBalanced_merged 0).trans isBalanced) closes notGroup hrule hreads
    · rw [headsAll, headsAll, hhs, hks]
      exact ((Writes.head head).block hbody hwrites).append_left [l]

end Rule

/-! ## Style sheets -/

namespace Stylesheet

/-- Whether what stands before the blocks of a sheet is the text of these runs of lexemes, which
stand in the source one after another. -/
structure IsBuiltFrom (sheet : Stylesheet) (source : String) (runs : List (List Lexeme)) :
    Prop where
  /-- The runs stand in the source. -/
  inTurn : InTurn (scan source) runs
  /-- Their texts are there, in order. -/
  heads_eq : sheet.heads = runs.map collapsed

variable {source source' : String} {sheet sheet' : Stylesheet} {runs runs' : List (List Lexeme)}

/-- The merged lexemes of a source tell the texts with white space merged. -/
theorem exists_isBuiltFrom (h : parse source = .ok sheet) :
    ∃ runs rules, sheet.IsBuiltFrom source runs ∧ Rule.Reads true (merged (scan source)) rules ∧
      Rule.headsAll rules = runs.map fun run => collapsed (merged run) := by
  obtain ⟨rules, hreads, runs, hruns, hheads, hmerged⟩ := (parse_eq_ok_iff.1 h).2.merged
  exact ⟨runs, rules, ⟨hruns, hheads⟩, hreads, hmerged⟩

/-- Between two tokens there is one space for each piece of white space, and comments stand between
the pieces. -/
theorem IsBuiltFrom.between (h : sheet.IsBuiltFrom source runs) {run : List Lexeme}
    (hrun : run ∈ runs) {front spaces back : List Lexeme} {a b : Lexeme}
    (hsplit : run = front ++ a :: (spaces ++ b :: back)) (ha : a.isSpace = false)
    (hb : b.isSpace = false) (hspaces : ∀ s ∈ spaces, s.isSpace) :
    collapsed run = trim (String.ofList (front.flatMap collapse ++ a.source.toList ++
        List.replicate spaces.length ' ' ++ b.source.toList ++ back.flatMap collapse)) ∧
      spaces.IsChain (CutBy source) := by
  have hwithin : spaces <:+: scan source :=
    List.IsInfix.trans ⟨front ++ [a], b :: back, by simp [hsplit]⟩ (h.inTurn.isInfix_of_mem hrun)
  have hne : ∀ {l : Lexeme}, l.isSpace = false → l.collapse = l.source.toList := fun hl =>
    collapse_of_ne (of_decide_eq_false hl)
  have hreplicate : spaces.flatMap collapse = List.replicate spaces.length ' ' := by
    have hspace : ∀ s ∈ spaces, s.collapse = [' '] := fun s hs =>
      if_pos (of_decide_eq_true (hspaces s hs))
    rw [List.flatMap_congr hspace, ← List.map_eq_flatMap, List.map_const']
  constructor
  · rw [collapsed_eq, hsplit]
    simp only [List.flatMap_append, List.flatMap_cons, hne ha, hne hb, hreplicate,
      List.append_assoc]
  · have hcuts := List.IsChain.infix (isChain_scan source) hwithin
    exact hcuts.imp_of_mem_imp fun l m hl hm hcut =>
      hcut (hspaces l hl) (hspaces m hm)

/-- Merged white space tells the texts head by head, where at most one piece of white space stands
between other lexemes. -/
theorem IsBuiltFrom.heads_congr (h : sheet.IsBuiltFrom source runs)
    (h' : sheet'.IsBuiltFrom source' runs')
    (hmerged : runs'.map (fun run => collapsed (merged run)) =
      runs.map fun run => collapsed (merged run))
    (hsingle : ∀ run ∈ runs, IsSingle run) (hsingle' : ∀ run ∈ runs', IsSingle run) :
    sheet'.heads = sheet.heads := by
  have htexts : ∀ runs : List (List Lexeme), (∀ run ∈ runs, IsSingle run) →
      runs.map (fun run => collapsed (merged run)) = runs.map collapsed := fun runs hruns =>
    List.map_congr_left fun run hrun => collapsed_merged (hruns run hrun)
  rw [h.heads_eq, h'.heads_eq, ← htexts runs hsingle, ← htexts runs' hsingle', hmerged]

/-- What stands before the blocks of a sheet has a space for each piece of white space between two
tokens, and there are several pieces only where comments cut white space. Two sources that differ
in nothing but the white space and the comments between their tokens have the same heads up to the
number of these spaces, so the same heads where none is cut. -/
theorem parse_heads (h : parse source = .ok sheet) :
    ∃ runs, sheet.IsBuiltFrom source runs ∧
      (∀ run ∈ runs, ∀ front a spaces b back, run = front ++ a :: (spaces ++ b :: back) →
        a.isSpace = false → b.isSpace = false → (∀ s ∈ spaces, s.isSpace) →
          collapsed run = trim (String.ofList (front.flatMap collapse ++ a.source.toList ++
              List.replicate spaces.length ' ' ++ b.source.toList ++ back.flatMap collapse)) ∧
            spaces.IsChain (CutBy source)) ∧
      ∀ source' sheet', parse source' = .ok sheet' → merged (scan source') = merged (scan source) →
        ∃ runs', sheet'.IsBuiltFrom source' runs' ∧
          List.Forall₂ (fun run' run => collapsed (merged run') = collapsed (merged run) ∧
            (IsSingle run' → IsSingle run → collapsed run' = collapsed run)) runs' runs ∧
          ((∀ run ∈ runs, IsSingle run) → (∀ run ∈ runs', IsSingle run) →
            sheet'.heads = sheet.heads) := by
  obtain ⟨runs, rules, hbuilt, hreads, hheads⟩ := exists_isBuiltFrom h
  refine ⟨runs, hbuilt, fun run hrun front a spaces b back hsplit ha hb hspaces =>
    hbuilt.between hrun hsplit ha hb hspaces, fun source' sheet' h' hmerged => ?_⟩
  obtain ⟨runs', rules', hbuilt', hreads', hheads'⟩ := exists_isBuiltFrom h'
  -- The merged lexemes are the same, and only one list of rules is read from them.
  have hrules : rules' = rules := by
    have hread := (Rule.readAll_eq_ok_iff 0 (.text 0)).2 hreads
    rw [← hmerged, (Rule.readAll_eq_ok_iff 0 (.text 0)).2 hreads'] at hread
    exact Except.ok.inj hread
  have htexts : runs'.map (fun run => collapsed (merged run)) =
      runs.map fun run => collapsed (merged run) := by
    rw [← hheads', ← hheads, hrules]
  refine ⟨runs', hbuilt', ?_, hbuilt.heads_congr hbuilt' htexts⟩
  rw [← List.forall₂_eq_eq_eq, List.forall₂_map_left_iff, List.forall₂_map_right_iff] at htexts
  refine htexts.imp fun run' run heq => ⟨heq, fun hsingle' hsingle => ?_⟩
  rw [← collapsed_merged hsingle', heq, collapsed_merged hsingle]

/-- A comment at one end of white space makes no difference. -/
theorem parse_heads_comment :
    ∃ sheet sheet' : Stylesheet,
      parse "@media x\n{a /* c */> b,c{}}" = .ok sheet ∧
      parse "@media x {a  > b,c{}}" = .ok sheet' ∧
      merged (scan "@media x {a  > b,c{}}") =
        merged (scan "@media x\n{a /* c */> b,c{}}") ∧
      sheet.heads = ["x", "a > b", "c"] ∧
      ∃ runs runs', sheet.IsBuiltFrom "@media x\n{a /* c */> b,c{}}" runs ∧
        sheet'.IsBuiltFrom "@media x {a  > b,c{}}" runs' ∧
        List.Forall₂ (fun run' run => collapsed (merged run') = collapsed (merged run)) runs'
          runs := by
  have h : parse "@media x\n{a /* c */> b,c{}}" =
      .ok ⟨[.group ⟨"media", "x"⟩ [.style ⟨["a > b", "c"], []⟩]]⟩ := by
    decide +kernel
  have h' : parse "@media x {a  > b,c{}}" =
      .ok ⟨[.group ⟨"media", "x"⟩ [.style ⟨["a > b", "c"], []⟩]]⟩ := by
    decide +kernel
  have hmerged : merged (scan "@media x {a  > b,c{}}") =
      merged (scan "@media x\n{a /* c */> b,c{}}") := by
    decide +kernel
  obtain ⟨runs, hbuilt, -, hothers⟩ := parse_heads h
  obtain ⟨runs', hbuilt', htexts, -⟩ := hothers _ _ h' hmerged
  exact ⟨_, _, h, h', hmerged, rfl, runs, runs', hbuilt, hbuilt', htexts.imp fun _ _ => And.left⟩

/-- A comment inside of white space doubles the space. -/
theorem parse_heads_cut :
    ∃ sheet sheet' : Stylesheet,
      parse "@media a /**/ b{}" = .ok sheet ∧ parse "@media a b{}" = .ok sheet' ∧
      merged (scan "@media a /**/ b{}") = merged (scan "@media a b{}") ∧
      sheet.heads = ["a  b"] ∧ sheet'.heads = ["a b"] := by
  have h : parse "@media a /**/ b{}" = .ok ⟨[.group ⟨"media", "a  b"⟩ []]⟩ := by
    decide +kernel
  have h' : parse "@media a b{}" = .ok ⟨[.group ⟨"media", "a b"⟩ []]⟩ := by
    decide +kernel
  exact ⟨_, _, h, h', by decide +kernel, rfl, rfl⟩

end Stylesheet

end Restyle.Css
