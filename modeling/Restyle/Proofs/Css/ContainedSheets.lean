import Restyle.Proofs.Css.Containment
import Restyle.Proofs.Css.Keeping
import Restyle.Proofs.Css.Layout

/-!
# Style sheets that stay inside their element

A style sheet is printed from pieces of the text that it was read from: between them stand
characters that end what could become an end tag. So a sheet that is read from a contained text is
written as one (`Stylesheet.contained_css`). `Rule.Contained` says what this needs of the pieces.
-/

namespace Restyle.Css

open Text Lexeme

/-! ## Lexemes -/

namespace Lexer

theorem exists_comments (s : List Char) :
    ∃ comments, s = comments ++ skipComments s ∧ Thins comments [] ∧
      (comments = [] ∨ Thins comments [' ']) := by
  fun_induction skipComments s with
  | case1 r _ ih =>
    obtain ⟨comments, hs, hthins, -⟩ := ih
    obtain ⟨body, hbody⟩ := commentRest_suffix r
    refine ⟨'/' :: '*' :: (body ++ comments), ?_, .comment body hthins, .inr (.gap body hthins)⟩
    rw [List.cons_append, List.cons_append, List.append_assoc, ← hs, hbody]
  | case2 s => exact ⟨[], rfl, .nil, .inl rfl⟩

end Lexer

namespace Lexeme

theorem joined_gap (comments : List Char) (inWord : Bool) (start : Nat) (s : List Char) :
    (joined (gap comments inWord start s)).toList = [] ∨
      comments ≠ [] ∧ (joined (gap comments inWord start s)).toList = [' '] := by
  unfold gap
  split_ifs with h
  · simp only [Bool.and_eq_true, Bool.not_eq_true', List.isEmpty_eq_false_iff] at h
    exact .inr ⟨h.1.1, by simp [joined, raw]⟩
  · exact .inl rfl

/-- The lexemes of a text are the text without its comments. -/
theorem thins_scanFrom (inWord : Bool) (start : Nat) (s : List Char) :
    Thins s (joined (scanFrom inWord start s)).toList := by
  induction hn : s.length using Nat.strongRecOn generalizing inWord start s with
  | ind n ih =>
    subst hn
    obtain ⟨comments, hs, hthins, hspace⟩ := Lexer.exists_comments s
    cases hskip : Lexer.skipComments s with
    | nil =>
      rw [scanFrom_of_skipComments_eq_nil hskip]
      rw [hskip, List.append_nil] at hs
      rw [hs]
      exact hthins
    | cons c r =>
      obtain ⟨comments', source, p, start₁, start₂, hcomments, hsource, rfl, -, hscan⟩ :=
        @scanFrom_step inWord start _ _ _ hskip
      rw [hskip] at hs
      obtain rfl : comments = comments' := List.append_cancel_right (hs.symm.trans hcomments)
      have hlt := Lexer.length_token_lt hskip
      have hrest := ih _ hlt (Lexer.token c r).1.isWord start₂ (Lexer.token c r).2 rfl
      have hgap : Thins comments (joined (gap comments inWord start₁ (c :: r))).toList := by
        rcases joined_gap comments inWord start₁ (c :: r) with h | ⟨hne, h⟩ <;> rw [h]
        · exact hthins
        · exact hspace.resolve_left hne
      have hraw : raw ⟨(Lexer.token c r).1, String.ofList (c :: p), start₁⟩ =
          String.ofList (c :: p) := by
        rw [raw, if_neg]
        rintro ⟨-, hempty⟩
        have := congrArg String.toList hempty
        simp at this
      rw [hscan, joined_append, joined_cons, String.toList_append, String.toList_append, hraw,
        String.toList_ofList]
      have hwhole : s = comments ++ (c :: p ++ (Lexer.token c r).2) := by rw [hsource, ← hs]
      rw [hwhole]
      exact hgap.append ((Thins.refl _).append hrest)

theorem isInfix_trim (s : String) : (trim s).toList <:+: s.toList := by
  obtain ⟨front, back, hs, -⟩ := exists_trim isBlank s.toList
  rw [trim, String.toList_ofList, trimBlanks]
  exact ⟨front, back, by rw [List.append_assoc]; exact hs.symm⟩

theorem isInfix_joined {as ls : List Lexeme} (h : as <:+: ls) :
    (joined as).toList <:+: (joined ls).toList := by
  obtain ⟨front, back, rfl⟩ := h
  simp only [joined_append, String.toList_append]
  exact List.infix_append _ _ _

theorem thins_collapsed {ls : List Lexeme} (h : ∀ l ∈ ls, l.Spelled) :
    Thins (joined ls).toList
      (ls.flatMap fun l => if l.token = .whitespace then [' '] else l.raw.toList) := by
  induction ls with
  | nil => exact .nil
  | cons l ls ih =>
    have ih := ih fun x hx => h x (List.mem_cons_of_mem l hx)
    have hl := h l List.mem_cons_self
    rw [joined_cons, String.toList_append, List.flatMap_cons]
    refine Thins.append ?_ ih
    split_ifs with hspace
    · rw [Spelled, hspace] at hl
      rw [raw]
      split_ifs with hempty
      · exact .refl _
      · cases hsource : l.source.toList with
        | nil => exact absurd ⟨hspace, String.toList_eq_nil_iff.1 hsource⟩ hempty
        | cons c more =>
          have hc : Text.isSpace c := hl c (by rw [hsource]; exact List.mem_cons_self)
          have hthins := Thins.space hc more .nil
          rwa [List.append_nil] at hthins
    · exact .refl _

theorem contained_collapsed {ls : List Lexeme} (hs : ∀ l ∈ ls, l.Spelled)
    (h : Contained (joined ls).toList) : Contained (collapsed ls).toList := by
  have htrim := isInfix_trim (String.ofList
    (ls.flatMap fun l => if l.token = .whitespace then [' '] else l.raw.toList))
  rw [String.toList_ofList] at htrim
  exact ((thins_collapsed hs).contained h).of_isInfix htrim

end Lexeme

/-! ## Names of at-rules -/

/-- Whether no `<` in a text is followed by a slash. -/
def LacksClosing (t : List Char) : Prop :=
  ∀ r, ¬ '<' :: '/' :: r <:+ t

theorem LacksClosing.nil : LacksClosing [] := by
  intro r hr
  cases List.suffix_nil.1 hr

theorem LacksClosing.cons {c : Char} {t : List Char} (h : LacksClosing t)
    (hc : c ≠ '<' ∨ t.head? ≠ some '/') : LacksClosing (c :: t) := by
  intro r hr
  rcases List.suffix_cons_iff.1 hr with heq | hr
  · obtain ⟨rfl, rfl⟩ := List.cons.inj heq
    simp at hc
  · exact h r hr

theorem LacksClosing.append {e t : List Char} (h : LacksClosing t) (he : ∀ c ∈ e, c ≠ '<') :
    LacksClosing (e ++ t) := by
  induction e with
  | nil => exact h
  | cons c e ih =>
    exact (ih fun x hx => he x (List.mem_cons_of_mem c hx)).cons (.inl (he c List.mem_cons_self))

/-- A text that closes no tag can stand in front of a space and a contained text. -/
theorem LacksClosing.append_space {t u : List Char} (ht : LacksClosing t) (hu : Contained u) :
    Contained (t ++ ' ' :: u) := by
  rintro r ⟨b, hb⟩
  rcases List.append_eq_append_iff.1 hb with ⟨front, ht', hr⟩ | ⟨front, rfl, hu'⟩
  · cases front with
    | nil => cases (List.cons.inj hr).1
    | cons c front =>
      obtain ⟨rfl, rfl⟩ : '<' = c ∧ r = front ++ ' ' :: u := List.cons.inj hr
      cases front with
      | nil => rfl
      | cons c front =>
        have hc : c ≠ '/' := by
          rintro rfl
          exact ht front ⟨b, ht'.symm⟩
        have hstyle : "/style".toList = '/' :: "style".toList := rfl
        simp [breaksOut, hstyle, endsTag, toLower_eq_slash_iff, hc, Ne.symm hc]
  · cases front with
    | nil => cases (List.cons.inj hu').1
    | cons c front => exact hu r ⟨front, (List.cons.inj hu').2.symm⟩

namespace Lexer

/-- In a text that writes a name, a slash stands only behind a backslash. -/
theorem WritesName.lacksClosing {p n t : List Char} (h : WritesName p n) (ht : LacksClosing t)
    (hhead : t.head? ≠ some '/') : LacksClosing (p ++ t) ∧ (p ++ t).head? ≠ some '/' := by
  induction h with
  | nil => exact ⟨ht, hhead⟩
  | @char c p n isName _ ih =>
    have hne : c ≠ '<' ∧ c ≠ '/' := by
      refine ⟨?_, ?_⟩ <;> rintro rfl <;> cases isName
    exact ⟨ih.1.cons (.inl hne.1), by simp [hne.2]⟩
  | @escape c value e p n more isSelf _ ih =>
    have hmore : LacksClosing (e ++ (p ++ t)) := by
      refine ih.1.append fun x hx => ?_
      rintro rfl
      rcases more _ hx with hdigit | hspace
      · cases hdigit
      · cases hspace
    have hescaped : LacksClosing (c :: (e ++ (p ++ t))) := by
      refine hmore.cons ?_
      rcases isSelf with hdigit | ⟨rfl, -⟩
      · left
        rintro rfl
        cases hdigit
      · exact .inr ih.2
    refine ⟨?_, by simp⟩
    rw [List.cons_append, List.cons_append, List.append_assoc]
    exact hescaped.cons (.inl (by decide))

theorem lacksClosing_name {s p : List Char} (hp : p ++ (name s).2 = s) : LacksClosing p := by
  rcases writesName_or_cut hp with hwrites | ⟨-, p', n', c, rfl, -, hwrites⟩
  · simpa using (hwrites.lacksClosing .nil (by simp)).1
  · exact (hwrites.lacksClosing (LacksClosing.nil.cons (.inl (by decide))) (by simp)).1

end Lexer

/-- A lexeme whose source text shows its token, without a `<` and a slash in the name of an
at-rule. -/
structure Lexeme.IsTame (l : Lexeme) : Prop where
  /-- The source text shows the token. -/
  spelled : l.Spelled
  /-- In the name of an at-rule, no slash comes after a `<`. -/
  lacksClosing : ∀ name, l.token = .atKeyword name → LacksClosing l.source.toList

theorem Lexeme.isTame_of_mem_scan {s : String} {l : Lexeme} (hl : l ∈ scan s)
    (hspelled : l.Spelled) : l.IsTame := by
  refine ⟨hspelled, fun name isAt => ?_⟩
  obtain ⟨n, r, hn, -, hsource⟩ := exists_name_of_atKeyword hl hspelled isAt
  rw [hn]
  exact (Lexer.lacksClosing_name hsource).cons (.inl (by decide))

/-! ## What is read from a contained text -/

/-- What stands before, in and behind a block is a part of the whole. -/
theorem infix_block (head : List Lexeme) (b : Lexeme) (body : List Lexeme) (r : Lexeme)
    (rest : List Lexeme) :
    head ++ [b] <:+: head ++ b :: (body ++ r :: rest) ∧
      body <:+: head ++ b :: (body ++ r :: rest) ∧ rest <:+: head ++ b :: (body ++ r :: rest) :=
  ⟨⟨[], body ++ r :: rest, by simp⟩, ⟨head ++ [b], r :: rest, by simp⟩,
    ⟨head ++ b :: (body ++ [r]), [], by simp⟩⟩

/-- Lexemes from which nothing can be read that breaks out of a `style` element. -/
structure Lexeme.StayInside (ls : List Lexeme) : Prop where
  /-- Each shows its token, and the names of at-rules close no tag. -/
  tame : ∀ l ∈ ls, l.IsTame
  /-- Their text is contained. -/
  contained : Contained (joined ls).toList

namespace Lexeme.StayInside

variable {as ls head body rest : List Lexeme} {l b r : Lexeme}

theorem of_isInfix (h : StayInside ls) (has : as <:+: ls) : StayInside as :=
  ⟨fun x hx => h.tame x (has.subset hx), h.contained.of_isInfix (isInfix_joined has)⟩

theorem tail (h : StayInside (l :: ls)) : StayInside ls :=
  h.of_isInfix (List.suffix_cons l ls).isInfix

theorem block (h : StayInside (head ++ b :: (body ++ r :: rest))) :
    StayInside head ∧ StayInside body ∧ StayInside rest := by
  obtain ⟨hhead, hbody, hrest⟩ := infix_block head b body r rest
  exact ⟨h.of_isInfix ((List.prefix_append head [b]).isInfix.trans hhead), h.of_isInfix hbody,
    h.of_isInfix hrest⟩

theorem spelled (h : StayInside ls) : ∀ l ∈ ls, l.Spelled :=
  fun l hl => (h.tame l hl).spelled

theorem raw (h : StayInside (l :: ls)) : Contained l.raw.toList := by
  refine h.contained.of_isInfix ?_
  rw [joined_cons, String.toList_append]
  exact (List.prefix_append _ _).isInfix

theorem collapsed (h : StayInside ls) : Contained (collapsed ls).toList :=
  contained_collapsed h.spelled h.contained

end Lexeme.StayInside

/-- The texts between which a step of an animation is printed. -/
def Keyframe.pieces (k : Keyframe) : List String :=
  k.selector :: k.declarations.map Declaration.css

namespace Rule

mutual

/-- The texts between which a rule is printed with marks that end what could become an end tag. -/
def pieces : Rule → List String
  | style r => r.selectors ++ r.declarations.map Declaration.css
  | statement head => [head.css]
  | group head rules => head.css :: piecesAll rules
  | descriptors head ds => head.css :: ds.map Declaration.css
  | keyframes head frames => head.css :: frames.flatMap Keyframe.pieces
  | raw head text => [head.css, text]

/-- The texts between which a list of rules is printed. -/
def piecesAll : List Rule → List String
  | [] => []
  | r :: rs => pieces r ++ piecesAll rs

end

end Rule

theorem contained_of_notMem {t : List Char} (h : '<' ∉ t) : Contained t :=
  fun _ hr => absurd (hr.subset List.mem_cons_self) h

theorem contained_selectors {ls : List Lexeme} (h : StayInside ls) {ss : List String}
    (hss : selectors? ls = some ss) : ∀ s ∈ ss, Contained s.toList := by
  have hpieces : ∀ p ∈ commaPieces 0 ls, Contained (collapsed p).toList :=
    fun p hp => (h.of_isInfix (infix_of_mem_commaPieces hp)).collapsed
  have hall := forall₂_selectors hss
  generalize commaPieces 0 ls = ps at hpieces hall
  clear hss
  induction hall with
  | nil => simp
  | cons hq _ ih =>
    rw [List.forall_mem_cons] at hpieces ⊢
    exact ⟨hq ▸ hpieces.1, ih hpieces.2⟩

/-- A space between the name and the prelude of an at-rule ends no tag. -/
theorem contained_atHead {l : Lexeme} {head : List Lexeme} {name : String}
    (isAt : l.token = .atKeyword name) (h : StayInside (l :: head)) :
    Contained (AtHead.css ⟨Rule.atName l, collapsed head⟩).toList := by
  have hl := h.tame l List.mem_cons_self
  obtain ⟨marks, hsource, -⟩ := Rule.exists_source_of_at hl.spelled isAt
  have hsuffix : (Rule.atName l).toList <:+ l.source.toList := ⟨'@' :: marks, hsource.symm⟩
  have hname : Contained (Rule.atName l).toList := by
    refine h.raw.of_isInfix ?_
    rw [raw, if_neg (by simp [isAt])]
    exact hsuffix.isInfix
  have hlacks : LacksClosing (Rule.atName l).toList := fun r hr =>
    hl.lacksClosing name isAt r (hr.trans hsuffix)
  rw [AtHead.toList_css]
  refine Contained.cons (by decide) ?_
  dsimp only
  split_ifs
  · rw [List.append_nil]
    exact hname
  · exact hlacks.append_space h.tail.collapsed

namespace Declaration

theorem isInfix_trimSpace (ls : List Lexeme) : trimSpace ls <:+: ls := by
  obtain ⟨as, bs, hls, -⟩ := exists_trimSpace ls
  exact ⟨as, bs, by rw [List.append_assoc]; exact hls.symm⟩

theorem isInfix_dropSpaceEnd (ls : List Lexeme) : dropSpaceEnd ls <:+: ls := by
  obtain ⟨bs, hls, -⟩ := exists_dropSpaceEnd ls
  exact ⟨[], bs, hls.symm⟩

theorem contained_ofLexemes {name : String} {ls : List Lexeme} (hname : Contained name.toList)
    (h : StayInside ls) (hclosed : (ls.map token).foldlM closersAfter [] = some []) :
    Contained (ofLexemes name ls).css.toList := by
  have hclosed := foldlM_trimSpace hclosed
  have hvalue : ∀ value, value <:+: ls → (value.map token).foldlM closersAfter [] = some [] →
      Contained (Value.cssAll (if isCustomName name then
          if (dropSpaceEnd value).isEmpty then [] else [.other (joined (dropSpaceEnd value))]
        else Value.ofLexemes (dropSpaceEnd value))).toList := by
    intro value hwithin hclosed
    have hvalue := h.of_isInfix hwithin
    rw [cssAll_value _ hvalue.spelled hclosed]
    exact (hvalue.of_isInfix (isInfix_dropSpaceEnd value)).contained
  rcases splitImportant_cases (trimSpace ls) with hsplit |
      ⟨value, bang, spaces, word, word', hsplit, htrim, isBang, areSpaces, isWord, -⟩
  · rw [ofLexemes_eq hsplit, toList_css]
    refine hname.append_seam (by decide) (by decide) ?_
    rw [if_neg Bool.false_ne_true, List.append_nil]
    exact hvalue _ (isInfix_trimSpace ls) hclosed
  · rw [htrim, List.map_append, foldlM_append_neutral _ (closersAfter_of_mark isBang areSpaces
      isWord)] at hclosed
    have hwithin : value <:+: ls := by
      refine List.IsInfix.trans ?_ (isInfix_trimSpace ls)
      rw [htrim]
      exact (List.prefix_append _ _).isInfix
    rw [ofLexemes_eq hsplit, toList_css]
    refine hname.append_seam (by decide) (by decide) ?_
    rw [if_pos rfl]
    exact (hvalue value hwithin hclosed).append_seam (by decide) (by decide)
      (contained_of_notMem (by decide))

theorem Reads.contained {ls : List Lexeme} {ds : List Declaration} (h : Reads ls ds)
    (hls : StayInside ls) : ∀ d ∈ ds, Contained d.css.toList := by
  induction h with
  | nil => simp
  | skip _ _ ih => exact ih hls.tail
  | @declaration l c spaces value rest ds name isName areSpaces isColon isRun ends _ ih =>
    have hvalue : StayInside value := hls.of_isInfix ⟨l :: (spaces ++ [c]), rest, by simp⟩
    have hrest : StayInside rest := hls.of_isInfix ⟨l :: (spaces ++ c :: value), [], by simp⟩
    exact List.forall_mem_cons.2
      ⟨contained_ofLexemes hls.raw hvalue (foldlM_of_isRun isRun), ih hrest⟩

end Declaration

theorem Keyframe.Reads.contained {ls : List Lexeme} {fs : List Keyframe} (h : Reads ls fs)
    (hls : StayInside ls) : ∀ s ∈ fs.flatMap pieces, Contained s.toList := by
  induction h with
  | nil => simp
  | skip _ _ ih => exact ih hls.tail
  | frame _ _ _ _ _ inside _ ih =>
    obtain ⟨hhead, hbody, hrest⟩ := hls.block
    rw [List.flatMap_cons, List.forall_mem_append, pieces, List.forall_mem_cons,
      List.forall_mem_map]
    exact ⟨⟨hhead.collapsed, inside.contained hbody⟩, ih hrest⟩

namespace Rule

theorem BlockReads.contained {head : AtHead} {body : List Lexeme} {rule : Rule}
    (h : BlockReads head body rule) (hhead : Contained head.css.toList) (hbody : StayInside body) :
    ∀ s ∈ pieces rule, Contained s.toList := by
  cases h with
  | keyframes _ inside =>
    rw [pieces]
    exact List.forall_mem_cons.2 ⟨hhead, inside.contained hbody⟩
  | descriptors _ _ inside =>
    rw [pieces, List.forall_mem_cons, List.forall_mem_map]
    exact ⟨hhead, inside.contained hbody⟩
  | raw _ _ =>
    have htext : Contained (trim (joined body)).toList :=
      hbody.contained.of_isInfix (isInfix_trim _)
    rw [pieces]
    exact List.forall_mem_cons.2 ⟨hhead, by simpa using htext⟩

/-- The pieces of what is read from a contained text are contained. -/
theorem Reads.contained {top : Bool} {ls : List Lexeme} {rs : List Rule} (h : Reads top ls rs)
    (hls : StayInside ls) : ∀ s ∈ piecesAll rs, Contained s.toList := by
  induction h with
  | nil => simp [piecesAll]
  | skip _ _ ih => exact ih hls.tail
  | @style _ l _ _ head body rest _ _ _ _ _ _ hasSelectors _ _ _ inside _ ih =>
    obtain ⟨hhead, hbody, hrest⟩ :
      StayInside (l :: head) ∧ StayInside body ∧ StayInside rest := hls.block
    rw [piecesAll, pieces, List.forall_mem_append, List.forall_mem_append, List.forall_mem_map]
    exact ⟨⟨contained_selectors hhead hasSelectors, inside.contained hbody⟩, ih hrest⟩
  | last isAt isRun =>
    have hcss := contained_atHead isAt hls
    simpa [piecesAll, pieces] using hcss
  | @statement _ l e head rest _ _ isAt _ _ _ ih =>
    have hhead : StayInside (l :: head) := hls.of_isInfix ⟨[], e :: rest, by simp⟩
    have hrest : StayInside rest := hls.of_isInfix ⟨l :: (head ++ [e]), [], by simp⟩
    rw [piecesAll, pieces, List.forall_mem_append]
    exact ⟨by simpa using contained_atHead isAt hhead, ih hrest⟩
  | @group _ l _ _ head body rest _ _ _ isAt _ _ _ _ _ _ _ ihInside ih =>
    obtain ⟨hhead, hbody, hrest⟩ :
      StayInside (l :: head) ∧ StayInside body ∧ StayInside rest := hls.block
    rw [piecesAll, pieces, List.forall_mem_append, List.forall_mem_cons]
    exact ⟨⟨contained_atHead isAt hhead, ihInside hbody⟩, ih hrest⟩
  | @block _ l _ _ head body rest _ _ _ isAt _ _ _ _ _ inside _ ih =>
    obtain ⟨hhead, hbody, hrest⟩ :
      StayInside (l :: head) ∧ StayInside body ∧ StayInside rest := hls.block
    rw [piecesAll, List.forall_mem_append]
    exact ⟨inside.contained (contained_atHead isAt hhead) hbody, ih hrest⟩

end Rule

/-- The pieces of a style sheet that is read from a contained text are contained. -/
theorem Stylesheet.contained_pieces {source : String} {sheet : Stylesheet}
    (h : parse source = .ok sheet) (hsource : Contained source.toList) :
    ∀ s ∈ Rule.piecesAll sheet.rules, Contained s.toList := by
  obtain ⟨hbroken, hreads⟩ := parse_eq_ok_iff.1 h
  have hspelled : ∀ l ∈ scan source, l.Spelled := spelled_scanFrom hbroken
  exact hreads.contained ⟨fun l hl => isTame_of_mem_scan hl (hspelled l hl),
    (thins_scanFrom _ _ _).contained hsource⟩

/-! ## Printed pieces -/

/-- A text after contained pieces stays contained if it starts with a mark. -/
theorem Contained.append_block {t inside u : String} (ht : Contained t.toList)
    (hinside : Contained inside.toList) (hu : Contained u.toList) :
    Contained ((t ++ braces inside).toList ++ u.toList) := by
  have hwhole : (t ++ braces inside).toList ++ u.toList =
      t.toList ++ '\x7b' :: (inside.toList ++ '\x7d' :: u.toList) := by simp [braces]
  rw [hwhole]
  exact ht.append_seam (by decide) (by decide) (hinside.append_seam (by decide) (by decide) hu)

theorem contained_selectorsCss {ss : List String} (h : ∀ s ∈ ss, Contained s.toList) :
    Contained (selectorsCss ss).toList := by
  induction ss with
  | nil => exact .nil
  | cons s ss ih =>
    rw [List.forall_mem_cons] at h
    cases ss with
    | nil => exact h.1
    | cons t ts =>
      rw [selectorsCss_cons s (by simp), String.toList_append, String.toList_append,
        List.append_assoc]
      exact h.1.append_seam (by decide) (by decide) (ih h.2)

theorem Declaration.contained_cssAll {ds : List Declaration}
    (h : ∀ d ∈ ds, Contained d.css.toList) : Contained (cssAll ds).toList := by
  induction ds with
  | nil => exact .nil
  | cons d ds ih =>
    rw [List.forall_mem_cons] at h
    cases ds with
    | nil => exact h.1
    | cons e ds =>
      rw [cssAll.eq_3 _ _ (by simp), String.toList_append, String.toList_append, List.append_assoc]
      exact h.1.append_seam (by decide) (by decide) (ih h.2)

theorem Keyframe.contained_cssAll {fs : List Keyframe}
    (h : ∀ s ∈ fs.flatMap pieces, Contained s.toList) : Contained (cssAll fs).toList := by
  induction fs with
  | nil => exact .nil
  | cons k fs ih =>
    rw [List.flatMap_cons, List.forall_mem_append, pieces, List.forall_mem_cons,
      List.forall_mem_map] at h
    rw [cssAll, String.toList_append, css]
    exact h.1.1.append_block (Declaration.contained_cssAll h.1.2) (ih h.2)

namespace Rule

mutual

theorem contained_css : ∀ {r : Rule}, (∀ s ∈ pieces r, Contained s.toList) → ∀ {u : String},
    Contained u.toList → Contained ((css r).toList ++ u.toList)
  | style r, h, u, hu => by
    rw [pieces, List.forall_mem_append, List.forall_mem_map] at h
    rw [css, StyleRule.css]
    exact (contained_selectorsCss h.1).append_block (Declaration.contained_cssAll h.2) hu
  | statement head, h, u, hu => by
    rw [css, String.toList_append, List.append_assoc]
    exact (h _ (by simp [pieces])).append_seam (by decide) (by decide) hu
  | group head rules, h, u, hu => by
    rw [pieces, List.forall_mem_cons] at h
    rw [css]
    exact h.1.append_block (contained_cssAll h.2) hu
  | descriptors head ds, h, u, hu => by
    rw [pieces, List.forall_mem_cons, List.forall_mem_map] at h
    rw [css]
    exact h.1.append_block (Declaration.contained_cssAll h.2) hu
  | keyframes head frames, h, u, hu => by
    rw [pieces, List.forall_mem_cons] at h
    rw [css]
    exact h.1.append_block (Keyframe.contained_cssAll h.2) hu
  | raw head text, h, u, hu => by
    rw [css]
    exact (h _ (by simp [pieces])).append_block (h _ (by simp [pieces])) hu

/-- Rules with contained pieces are printed as a contained text. -/
theorem contained_cssAll : ∀ {rs : List Rule}, (∀ s ∈ piecesAll rs, Contained s.toList) →
    Contained (cssAll rs).toList
  | [], _ => by
    rw [cssAll]
    exact .nil
  | r :: rs, h => by
    rw [piecesAll, List.forall_mem_append] at h
    rw [cssAll, String.toList_append]
    exact contained_css h.1 (contained_cssAll h.2)

end

end Rule

end Restyle.Css
