import Restyle.Proofs.Css.Respacing
import Restyle.Proofs.Css.Spacing

/-!
# White space without the comments that cut it

`Lexeme.glued` puts white space lexemes that stand side by side together, with the text of all of
them. That is how they are read again once the comments between them are gone: a text whose lexemes
are apart from one another is cut, without its comments, into its glued lexemes
(`Lexeme.cutsInto_joined`). Gluing changes neither what values are written
(`Value.ofLexemes_glued`) nor the text (`Lexeme.joined_glued`).
-/

namespace Restyle.Css

open Text Lexeme

namespace Lexeme

/-- Puts white space in front of lexemes, as one piece with white space that comes first. -/
def pushSpace (text : String) : List Lexeme → List Lexeme
  | m :: ms =>
    if m.isSpace then ⟨.whitespace, text ++ m.source, 0⟩ :: ms
    else ⟨.whitespace, text, 0⟩ :: m :: ms
  | [] => [⟨.whitespace, text, 0⟩]

/-- A run of lexemes without their places, with white space that stands side by side in one
piece. -/
def glued : List Lexeme → List Lexeme
  | [] => []
  | l :: ls => if l.isSpace then pushSpace l.raw (glued ls) else l.plain :: glued ls

variable {l b : Lexeme} {ls as bs : List Lexeme} {text : String}

theorem glued_cons_space (hl : l.isSpace) (ls : List Lexeme) :
    glued (l :: ls) = pushSpace l.raw (glued ls) :=
  if_pos hl

theorem glued_cons (hl : l.isSpace = false) (ls : List Lexeme) :
    glued (l :: ls) = l.plain :: glued ls :=
  if_neg (by simp [hl])

theorem pushSpace_cons_space (hl : l.isSpace) (text : String) (ls : List Lexeme) :
    pushSpace text (l :: ls) = ⟨.whitespace, text ++ l.source, 0⟩ :: ls :=
  if_pos hl

theorem pushSpace_cons (hl : l.isSpace = false) (text : String) (ls : List Lexeme) :
    pushSpace text (l :: ls) = ⟨.whitespace, text, 0⟩ :: l :: ls :=
  if_neg (by simp [hl])

theorem pushSpace_append_cons (hb : b.isSpace = false) (text : String) (as bs : List Lexeme) :
    pushSpace text (as ++ b :: bs) = pushSpace text as ++ b :: bs := by
  cases as with
  | nil => exact pushSpace_cons hb text bs
  | cons a as =>
    rw [List.cons_append, pushSpace, pushSpace]
    split_ifs <;> rfl

theorem pushSpace_append (s t : String) (ls : List Lexeme) :
    pushSpace (s ++ t) ls = pushSpace s (pushSpace t ls) := by
  have hspace : ∀ text, (⟨.whitespace, text, 0⟩ : Lexeme).isSpace := fun _ => rfl
  cases ls with
  | nil => exact (pushSpace_cons_space (hspace t) s []).symm
  | cons l ls =>
    cases hl : l.isSpace with
    | true =>
      rw [pushSpace_cons_space hl, pushSpace_cons_space hl, pushSpace_cons_space (hspace _),
        String.append_assoc]
    | false => rw [pushSpace_cons hl, pushSpace_cons hl, pushSpace_cons_space (hspace _)]

/-- A lexeme that is no white space cuts the gluing in two. -/
theorem glued_append_cons (hb : b.isSpace = false) (as bs : List Lexeme) :
    glued (as ++ b :: bs) = glued as ++ b.plain :: glued bs := by
  induction as with
  | nil => exact glued_cons hb bs
  | cons a as ih =>
    have hplain : b.plain.isSpace = false := hb
    rw [List.cons_append, glued, ih, glued]
    split_ifs
    · rw [pushSpace_append_cons hplain]
    · rfl

theorem glued_append_of_head (h : ∀ b ∈ bs.head?, b.isSpace = false) (as : List Lexeme) :
    glued (as ++ bs) = glued as ++ glued bs := by
  cases bs with
  | nil => simp [glued]
  | cons b bs => rw [glued_append_cons (h b rfl), glued_cons (h b rfl)]

theorem glued_append_of_last (h : ∀ front a, as = front ++ [a] → a.isSpace = false)
    (bs : List Lexeme) : glued (as ++ bs) = glued as ++ glued bs := by
  induction as using List.reverseRecOn with
  | nil => simp [glued]
  | append_singleton front a _ =>
    have ha := h front a rfl
    rw [List.append_assoc, List.singleton_append, glued_append_cons ha, glued_append_cons ha]
    simp [glued]

/-! ## What gluing keeps -/

theorem raw_ne_empty_of_isSpace (hl : l.isSpace) : l.raw ≠ "" := by
  rw [raw]
  split_ifs with hempty
  · simp
  · exact fun hsource => hempty ⟨of_decide_eq_true hl, hsource⟩

/-- White space in glued lexemes has a source text. -/
theorem source_ne_empty_of_mem_glued : ∀ m ∈ glued ls, m.isSpace → m.source ≠ "" := by
  induction ls with
  | nil => simp [glued]
  | cons l ls ih =>
    cases hl : l.isSpace with
    | true =>
      have hne := raw_ne_empty_of_isSpace hl
      rw [glued_cons_space hl]
      generalize glued ls = gs at ih
      cases gs with
      | nil => exact List.forall_mem_singleton.2 fun _ => hne
      | cons g gs =>
        rw [List.forall_mem_cons] at ih
        cases hg : g.isSpace with
        | true =>
          rw [pushSpace_cons_space hg]
          refine List.forall_mem_cons.2 ⟨fun _ h => hne ?_, ih.2⟩
          exact (String.append_eq_empty_iff.1 h).1
        | false =>
          rw [pushSpace_cons hg]
          exact List.forall_mem_cons.2 ⟨fun _ => hne, List.forall_mem_cons.2 ih⟩
    | false =>
      rw [glued_cons hl]
      refine List.forall_mem_cons.2 ⟨fun hspace => ?_, ih⟩
      have hspace : l.isSpace = true := hspace
      rw [hl] at hspace
      cases hspace

theorem raw_of_source (h : l.isSpace → l.source ≠ "") : l.raw = l.source :=
  if_neg fun ⟨hspace, hempty⟩ => h (decide_eq_true hspace) hempty

theorem raw_of_mem_glued : ∀ m ∈ glued ls, m.raw = m.source := fun m hm =>
  raw_of_source (source_ne_empty_of_mem_glued m hm)

theorem joined_pushSpace (htext : text ≠ "") (h : ∀ l ∈ ls, l.raw = l.source) :
    joined (pushSpace text ls) = text ++ joined ls := by
  have hraw : ∀ text, text ≠ "" → (⟨.whitespace, text, 0⟩ : Lexeme).raw = text := fun _ htext =>
    raw_of_source fun _ => htext
  cases ls with
  | nil => rw [pushSpace, joined_cons, hraw _ htext]
  | cons l ls =>
    cases hl : l.isSpace with
    | true =>
      have hne : text ++ l.source ≠ "" := fun h => htext (String.append_eq_empty_iff.1 h).1
      rw [pushSpace_cons_space hl, joined_cons, joined_cons, hraw _ hne, h l List.mem_cons_self,
        String.append_assoc]
    | false => rw [pushSpace_cons hl, joined_cons, hraw _ htext]

theorem joined_glued (ls : List Lexeme) : joined (glued ls) = joined ls := by
  induction ls with
  | nil => rfl
  | cons l ls ih =>
    cases hl : l.isSpace with
    | true =>
      rw [glued_cons_space hl, joined_pushSpace (raw_ne_empty_of_isSpace hl) raw_of_mem_glued, ih,
        joined_cons]
    | false =>
      rw [glued_cons hl, joined_cons, ih, joined_cons]
      rfl

theorem written_glued (ls : List Lexeme) : written (glued ls) = (joined ls).toList := by
  rw [← joined_glued, toList_joined raw_of_mem_glued]

theorem filter_pushSpace (text : String) (ls : List Lexeme) :
    (pushSpace text ls).filter (!·.isSpace) = ls.filter (!·.isSpace) := by
  cases ls with
  | nil => rfl
  | cons l ls =>
    rw [pushSpace]
    split_ifs with hl
    · rw [List.filter_cons_of_neg (by simp [isSpace]), List.filter_cons_of_neg (by simp [hl])]
    · rw [List.filter_cons_of_neg (by simp [isSpace])]

/-- Other lexemes are left as they are. -/
theorem filter_glued (ls : List Lexeme) :
    (glued ls).filter (!·.isSpace) = (ls.filter (!·.isSpace)).map plain := by
  induction ls with
  | nil => rfl
  | cons l ls ih =>
    cases hl : l.isSpace with
    | true => rw [glued_cons_space hl, filter_pushSpace, ih, List.filter_cons_of_neg (by simp [hl])]
    | false =>
      have hplain : l.plain.isSpace = false := hl
      rw [glued_cons hl, List.filter_cons_of_pos (by simp [hplain]), ih,
        List.filter_cons_of_pos (by simp [hl]), List.map_cons]

theorem isEmpty_glued (ls : List Lexeme) : (glued ls).isEmpty = ls.isEmpty := by
  cases ls with
  | nil => rfl
  | cons l ls =>
    rw [glued]
    split_ifs
    · cases glued ls with
      | nil => rfl
      | cons g gs =>
        rw [pushSpace]
        split_ifs <;> rfl
    · rfl

theorem head?_glued (ls : List Lexeme) : (glued ls).head?.any isSpace = ls.head?.any isSpace := by
  cases ls with
  | nil => rfl
  | cons l ls =>
    rw [List.head?_cons, Option.any_some]
    cases hl : l.isSpace with
    | true =>
      rw [glued_cons_space hl]
      cases glued ls with
      | nil => rfl
      | cons g gs =>
        rw [pushSpace]
        split_ifs <;> rfl
    | false =>
      rw [glued_cons hl]
      exact hl

/-- With one space in the place of each piece, gluing is merging. -/
theorem map_spaced_glued (ls : List Lexeme) : (glued ls).map spaced = merged ls := by
  induction ls with
  | nil => rfl
  | cons l ls ih =>
    have hhead := head?_glued ls
    cases hl : l.isSpace with
    | true =>
      have hone : ∀ {m : Lexeme}, m.isSpace → m.spaced = ⟨.whitespace, " ", 0⟩ := fun h => if_pos h
      rw [glued_cons_space hl, merged, ← hhead, ← ih, hone hl]
      cases glued ls with
      | nil => rw [hl]; rfl
      | cons g gs =>
        cases hg : g.isSpace with
        | true =>
          rw [pushSpace_cons_space hg, if_pos (by simp [hl, hg]), List.map_cons, List.map_cons,
            hone hg]
          rfl
        | false =>
          rw [pushSpace_cons hg, if_neg (by simp [hg])]
          rfl
    | false =>
      rw [glued_cons hl, merged_cons hl, List.map_cons, ih, spaced_of_not_isSpace (l := l.plain) hl]
      rfl

/-! ## What glued lexemes show -/

/-- The glued lexemes that some characters of white space and other tokens make up. -/
def regrouped (es : List (Token × List Char)) : List Lexeme :=
  es.foldr (fun e gs => if e.1 = .whitespace then pushSpace (String.ofList e.2) gs
    else ⟨e.1, String.ofList e.2, 0⟩ :: gs) []

theorem regrouped_spaces {cs : List Char} (hcs : cs ≠ []) (es : List (Token × List Char)) :
    regrouped (cs.map (fun c => (.whitespace, [c])) ++ es) =
      pushSpace (String.ofList cs) (regrouped es) := by
  have hcons : ∀ c es, regrouped ((.whitespace, [c]) :: es) =
      pushSpace (String.ofList [c]) (regrouped es) := by
    intro c es
    rw [regrouped, List.foldr_cons, if_pos rfl]
    rfl
  induction cs with
  | nil => exact absurd rfl hcs
  | cons c cs ih =>
    rw [List.map_cons, List.cons_append, hcons]
    by_cases hnil : cs = []
    · subst hnil
      rfl
    · have happend : String.ofList (c :: cs) = String.ofList [c] ++ String.ofList cs := by
        rw [← String.ofList_append, List.singleton_append]
      rw [ih hnil, happend, pushSpace_append]

theorem glued_eq_regrouped (ls : List Lexeme) : glued ls = regrouped (shown ls) := by
  induction ls with
  | nil => rfl
  | cons l ls ih =>
    rw [shown_cons]
    cases hl : l.isSpace with
    | true =>
      have hraw : l.raw.toList ≠ [] := fun h =>
        raw_ne_empty_of_isSpace hl (String.toList_eq_nil_iff.1 h)
      rw [if_pos rfl, regrouped_spaces hraw, glued_cons_space hl, ih, String.ofList_toList]
    | false =>
      have hcons : regrouped ((l.token, l.raw.toList) :: shown ls) =
          ⟨l.token, String.ofList l.raw.toList, 0⟩ :: regrouped (shown ls) :=
        if_neg (of_decide_eq_false hl)
      rw [if_neg Bool.false_ne_true, List.singleton_append, hcons, glued_cons hl, ih,
        String.ofList_toList, raw_of_source (by simp [hl])]
      rfl

/-- Lexemes that are cut from a text are glued already. -/
theorem CutsInto.glued_eq {x : List Char} (h : CutsInto x ls) : glued ls = ls := by
  induction ls generalizing x with
  | nil => rfl
  | cons l ls ih =>
    have hraw := h.raw_eq l List.mem_cons_self
    obtain ⟨t, c, p, y, rfl, rfl, -, hreads, -, rest⟩ := h.exists_cons
    cases hc : Text.isSpace c with
    | false =>
      rw [glued_cons (decide_eq_false (Lexer.token_ne_whitespace hc hreads)), ih rest]
      rfl
    | true =>
      obtain ⟨rfl, -⟩ := spaces_of_reads hreads hc
      rw [glued_cons_space rfl, ih rest, hraw]
      cases ls with
      | nil => rfl
      | cons m ls =>
        -- White space is read as far as it goes, so something else comes after it.
        refine pushSpace_cons ?_ _ _
        obtain ⟨t, c', p', y, rfl, rfl, -, hnext, -, -⟩ := rest.exists_cons
        have hc' := Lexer.not_startsSpace_iff.1 (startsSpace_of_reads hc hreads) c' rfl
        exact decide_eq_false (Lexer.token_ne_whitespace hc' hnext)

end Lexeme

/-! ## Texts without their comments -/

/-- No token runs into a brace. -/
theorem Lexer.runsInto_append_brace (t : Token) (text y : List Char) :
    t.runsInto text (y ++ ['\x7b']) = t.runsInto text y := by
  have hdigit : ∀ y, Numeral.startsDigit (y ++ ['\x7b']) = Numeral.startsDigit y := by
    intro y
    cases y <;> rfl
  have hpoint : startsPoint (y ++ ['\x7b']) = startsPoint y := by
    cases y with
    | nil => rfl
    | cons c y =>
      by_cases hc : c = '.'
      · subst hc
        exact hdigit y
      · simp [startsPoint, hc]
  have hunsigned : Numeral.startsUnsigned (y ++ ['\x7b']) = Numeral.startsUnsigned y := by
    rw [startsUnsigned_eq, startsUnsigned_eq, hdigit, hpoint]
  have hspace : startsSpace (y ++ ['\x7b']) = startsSpace y := by
    cases y <;> rfl
  unfold Token.runsInto
  split
  · exact continuesName_append_stop rfl y []
  · exact startsName_append_stop rfl y []
  · exact hunsigned
  · rw [hunsigned, startsAfterHyphen_append_stop rfl]
  · exact hdigit y
  · exact isPrefixOf_append_stop (by decide) y []
  · exact isPrefixOf_append_stop (by decide) y []
  · rw [isPrefixOf_append_stop (by decide), hspace]
  · rw [hspace]
  · rw [hspace]
  · rw [hspace]
  · rfl

namespace Lexeme

theorem shown_append (as bs : List Lexeme) : shown (as ++ bs) = shown as ++ shown bs :=
  List.flatMap_append

theorem shown_plain (ls : List Lexeme) : shown (ls.map plain) = shown ls := by
  rw [shown, shown, List.flatMap_map]
  rfl

theorem apart_of_plain {as bs : List Lexeme} (h : as.map plain = bs.map plain) :
    apart as = apart bs := by
  have hplain : ∀ ls, apart (ls.map plain) = apart ls := by
    intro ls
    induction ls with
    | nil => rfl
    | cons l ls ih =>
      rw [List.map_cons, apart, apart, joined_plain, ih]
      rfl
  rw [← hplain as, h, hplain]

/-- A brace that is put after lexemes leaves them apart. -/
theorem apart_append_brace {ls : List Lexeme} (h : apart ls) (start : Nat) :
    apart (ls ++ [delimiter '\x7b' start]) := by
  induction ls with
  | nil => rfl
  | cons l ls ih =>
    have hjoined : (joined (ls ++ [delimiter '\x7b' start])).toList =
        (joined ls).toList ++ ['\x7b'] := by
      simp [joined, delimiter, raw]
    rw [apart, Bool.and_eq_true, Bool.not_eq_true'] at h
    rw [List.cons_append, apart, hjoined, Lexer.runsInto_append_brace, h.1, ih h.2]
    rfl

/-- What shows at the end, other than white space, is the last lexeme. -/
theorem exists_of_shown_concat {ls : List Lexeme} {es : List (Token × List Char)} {t : Token}
    {cs : List Char} (ht : t ≠ .whitespace) (h : shown ls = es ++ [(t, cs)]) :
    ∃ as m, ls = as ++ [m] ∧ m.token = t ∧ shown as = es := by
  induction ls using List.reverseRecOn with
  | nil => simp [shown] at h
  | append_singleton as m _ =>
    refine ⟨as, m, rfl, ?_⟩
    have hm : shown [m] = if m.isSpace then m.raw.toList.map fun c => (.whitespace, [c])
        else [(m.token, m.raw.toList)] := by
      rw [shown_cons]
      exact List.append_nil _
    rw [shown_append, hm] at h
    split_ifs at h with hspace
    · -- The last character of white space would show.
      have hraw : m.raw.toList ≠ [] := fun hnil =>
        raw_ne_empty_of_isSpace hspace (String.toList_eq_nil_iff.1 hnil)
      have hlast := congrArg List.getLast? h
      rw [List.getLast?_concat, List.getLast?_append_of_ne_nil _ (by simpa using hraw),
        List.getLast?_map, Option.map_eq_some_iff] at hlast
      obtain ⟨c, -, hc⟩ := hlast
      exact absurd (Prod.mk.inj hc).1.symm ht
    · obtain ⟨hes, hlast⟩ := List.append_inj' h rfl
      exact ⟨(Prod.mk.inj (List.cons.inj hlast).1).1, hes⟩

theorem not_broken_of_shown {as bs : List Lexeme} (h : shown as = shown bs)
    (hbs : ∀ l ∈ bs, l.isBroken = false) : ∀ l ∈ as, l.isBroken = false := by
  intro a ha
  cases hspace : a.isSpace with
  | true =>
    have hwhite : a.token = .whitespace := of_decide_eq_true hspace
    simp [isBroken, hwhite]
  | false =>
    have hmem : (a.token, a.raw.toList) ∈ shown as :=
      List.mem_flatMap.2 ⟨a, ha, by simp [hspace]⟩
    rw [h] at hmem
    obtain ⟨l, hl, hmem⟩ := List.mem_flatMap.1 hmem
    split_ifs at hmem
    · obtain ⟨c, -, hc⟩ := List.mem_map.1 hmem
      rw [isSpace, ← (Prod.mk.inj hc).1] at hspace
      cases hspace
    · have htoken := (Prod.mk.inj (List.mem_singleton.1 hmem)).1
      rw [isBroken, htoken]
      exact hbs l hl

/-- Lexemes that are apart are cut, glued, from their text, if some text has them and a brace after
them. -/
theorem cutsInto_joined {ls : List Lexeme} {t : String} (hapart : apart ls)
    (hclosed : (scan t).map plain = ls.map plain ++ [delimiter '\x7b' 0])
    (hbroken : ∀ l ∈ ls, l.isBroken = false) : CutsInto (joined ls).toList (glued ls) := by
  generalize hj : (joined ls).toList = j
  -- The text without its comments, and a brace after it, shows what the lexemes and a brace do.
  have hshown : shown (scanFrom false 0 (j ++ ['\x7b'])) =
      shown ls ++ [(.leftBrace, ['\x7b'])] := by
    have hplain : (scan t).map plain = (ls ++ [delimiter '\x7b' 0]).map plain := by
      rw [hclosed, List.map_append]
      rfl
    have hjoined : (joined (scan t)).toList = j ++ ['\x7b'] := by
      rw [joined_of_plain hplain, joined_append, String.toList_append, hj]
      rfl
    have happart : apart (scan t) := by
      rw [apart_of_plain hplain]
      exact apart_append_brace hapart 0
    have hscans : Scans false t.toList (scan t) := scans_scanFrom false 0 _
    have hread := (hscans.shown_scanFrom_joined happart).2 false 0
    rw [hjoined] at hread
    rw [hread, ← shown_plain, hplain, shown_plain, shown_append]
    rfl
  obtain ⟨as, m, hscan, hm, has⟩ := exists_of_shown_concat (by simp) hshown
  obtain ⟨x, u, -, htext, -, -, hcut⟩ :=
    split_scanFrom (d := '\x7b') rfl hscan hm (not_broken_of_shown has hbroken)
  have hjoined : (joined as).toList = j := by
    rw [joined_eq_shown, has, ← joined_eq_shown, hj]
  -- Nothing is lost: the lexemes are written with all characters that count.
  replace hcut := hcut.resolve_right fun hlost => by
    have hlt := hlost true
    have hcounts : counts true '\x7b' := rfl
    have hweight := congrArg (weight true) htext
    rw [weight_append, weight_append, ← hjoined, weight_joined, weight_cons_of_counts hcounts,
      weight_cons_of_counts hcounts] at hweight
    have hnil : weight true [] = 0 := rfl
    omega
  have hx : x = j := by
    have hraw := toList_joined hcut.raw_eq
    rw [joined_plain, hcut.written, hjoined] at hraw
    exact hraw.symm
  rw [glued_eq_regrouped, ← has, ← shown_plain, ← glued_eq_regrouped, hcut.glued_eq, ← hx]
  exact hcut

end Lexeme

/-! ## Values -/

theorem head?_arguments (depth : Nat) (l : Lexeme) (ls : List Lexeme) :
    ∀ m ∈ (arguments depth (l :: ls)).1.head?, m = l := by
  obtain ⟨t, source, start⟩ := l
  cases t
  case rightParen =>
    cases depth with
    | zero => exact fun _ hm => by cases hm
    | succ depth => exact fun _ hm => (Option.some.inj hm).symm
  all_goals exact fun _ hm => (Option.some.inj hm).symm

theorem arguments_pushSpace (depth : Nat) (text : String) (ls : List Lexeme) :
    arguments depth (pushSpace text ls) =
      (pushSpace text (arguments depth ls).1, (arguments depth ls).2) := by
  have hspace : ∀ (text : String) (ls : List Lexeme),
      arguments depth (⟨.whitespace, text, 0⟩ :: ls) =
        (⟨.whitespace, text, 0⟩ :: (arguments depth ls).1, (arguments depth ls).2) :=
    fun _ _ => rfl
  cases ls with
  | nil => rfl
  | cons l ls =>
    cases hl : l.isSpace with
    | true =>
      obtain ⟨t, source, start⟩ := l
      obtain rfl : t = .whitespace := of_decide_eq_true hl
      rw [pushSpace_cons_space hl, hspace]
      rfl
    | false =>
      have hhead := head?_arguments depth l ls
      rw [pushSpace_cons hl, hspace]
      cases hargs : (arguments depth (l :: ls)).1 with
      | nil => rfl
      | cons m args =>
        rw [hargs] at hhead
        rw [pushSpace_cons (by rw [hhead m rfl, hl])]

theorem arguments_glued (depth : Nat) (ls : List Lexeme) :
    arguments depth (glued ls) = (glued (arguments depth ls).1, glued (arguments depth ls).2) := by
  induction ls generalizing depth with
  | nil => rfl
  | cons l ls ih =>
    obtain ⟨t, source, start⟩ := l
    cases t
    case whitespace =>
      rw [glued_cons_space rfl, arguments_pushSpace, ih]
      exact congrArg (·, _) (glued_cons_space rfl _).symm
    case rightParen =>
      cases depth with
      | zero => rfl
      | succ depth => exact congrArg (fun p => (_ :: p.1, p.2)) (ih depth)
    case function | leftParen => exact congrArg (fun p => (_ :: p.1, p.2)) (ih (depth + 1))
    all_goals exact congrArg (fun p => (_ :: p.1, p.2)) (ih depth)

theorem pushOther_append (s t : String) (vs : List Value) :
    Value.pushOther (s ++ t) vs = Value.pushOther s (Value.pushOther t vs) := by
  rcases vs with _ | ⟨_ | _ | _ | text, vs⟩
  case cons.other => simp only [Value.pushOther, String.append_assoc]
  all_goals rfl

/-- White space is written as source text. -/
theorem Value.ofLexemes_pushSpace {text : String} (htext : text ≠ "") {ls : List Lexeme}
    (h : ∀ l ∈ ls, l.raw = l.source) :
    ofLexemes (pushSpace text ls) = pushOther text (ofLexemes ls) := by
  have hspace : ∀ {text : String} (ls : List Lexeme), text ≠ "" →
      ofLexemes (⟨.whitespace, text, 0⟩ :: ls) = pushOther text (ofLexemes ls) := by
    intro text ls htext
    rw [ofLexemes_other ls rfl (by simp), raw_of_source fun _ => htext]
  cases ls with
  | nil => exact hspace [] htext
  | cons l ls =>
    cases hl : l.isSpace with
    | true =>
      have hwhite : l.token = .whitespace := of_decide_eq_true hl
      have hne : text ++ l.source ≠ "" := fun h => htext (String.append_eq_empty_iff.1 h).1
      rw [pushSpace_cons_space hl, hspace ls hne, pushOther_append,
        ofLexemes_other ls (by rw [hwhite]; rfl) (by simp [hwhite]), h l List.mem_cons_self]
    | false => rw [pushSpace_cons hl, hspace _ htext]

/-- Gluing does not change what values are written. -/
theorem Value.ofLexemes_glued (ls : List Lexeme) : ofLexemes (glued ls) = ofLexemes ls := by
  induction hn : ls.length using Nat.strongRecOn generalizing ls with
  | ind n ih =>
    subst hn
    cases ls with
    | nil => rfl
    | cons l ls =>
      have hls := ih ls.length (Nat.lt_succ_self _) ls rfl
      cases hl : l.isSpace with
      | true =>
        have hwhite : l.token = .whitespace := of_decide_eq_true hl
        rw [glued_cons_space hl, ofLexemes_pushSpace (raw_ne_empty_of_isSpace hl) raw_of_mem_glued,
          hls, ofLexemes_other ls (by rw [hwhite]; rfl) (by simp [hwhite])]
      | false =>
        have hargs := length_arguments 0 ls
        have htoken : l.plain.token = l.token := rfl
        have hraw : l.plain.raw = l.raw := rfl
        rw [glued_cons hl, ofLexemes, ofLexemes]
        dsimp only
        rw [htoken, hraw, hls, arguments_glued]
        dsimp only
        rw [ih _ (by rw [List.length_cons]; omega) (arguments 0 ls).1 rfl,
          ih _ (by rw [List.length_cons]; omega) (arguments 0 ls).2 rfl]

end Restyle.Css
