import Mathlib.Data.List.Infix
import Restyle.Css.Lexer
import Restyle.Proofs.Html.Reading
import Restyle.Proofs.Text.Letters
import Restyle.Proofs.Text.Runs

/-!
# Texts that stay inside their element

The text of a `style` element is written as it stands, so an end tag in it would end the element.
Leaving out comments can make one: `<`, a comment and `/style>` hold none. `Contained` says of a
text that there is no end tag in it, and that no comment opens where an end tag may have begun. Main
statement: such a text stays contained when comments are left out and white space is collapsed
(`Thins.contained`).
-/

namespace Restyle.Css

open Text

/-! ## What may not come after a `<` -/

/-- Whether a text goes on with the given letters, whatever their case, and a character that ends a
tag name. -/
def endsTag : List Char → List Char → Bool
  | [], c :: _ => isSpace c || c == '/' || c == '>'
  | p :: ps, c :: r => c.toLower == p && endsTag ps r
  | _, [] => false

/-- Whether a comment opens after letters and slashes. -/
def opensComment : List Char → Bool
  | [] => false
  | c :: r => c == '/' && ['*'].isPrefixOf r || (c.isAlpha || c == '/') && opensComment r

/-- Whether a text after a `<` makes an end tag of `style`, or may do so without its comments. -/
def breaksOut (r : List Char) : Bool :=
  endsTag "/style".toList r || ['/'].isPrefixOf r && opensComment r

/-- Whether a text stays inside its `style` element, with its comments and without. -/
def Contained (t : List Char) : Prop :=
  ∀ r, '<' :: r <:+ t → breaksOut r = false

theorem forall_mem_closesStyle : ∀ p ∈ "/style".toList, p.isAlpha || p == '/' := by
  have hall : "/style".toList.all fun p => p.isAlpha || p == '/' := by decide
  exact List.all_eq_true.1 hall

theorem endsTag_append {ps r : List Char} (h : endsTag ps r) (s : List Char) :
    endsTag ps (r ++ s) := by
  induction r generalizing ps with
  | nil => cases ps <;> cases h
  | cons c r ih =>
    cases ps with
    | nil => exact h
    | cons p ps =>
      rw [endsTag, Bool.and_eq_true] at h
      rw [List.cons_append, endsTag, Bool.and_eq_true]
      exact ⟨h.1, ih h.2⟩

theorem isPrefixOf_singleton_append {p : Char} {r : List Char} (h : [p].isPrefixOf r)
    (s : List Char) : [p].isPrefixOf (r ++ s) := by
  cases r with
  | nil => cases h
  | cons c r => simpa using h

theorem opensComment_append {r : List Char} (h : opensComment r) (s : List Char) :
    opensComment (r ++ s) := by
  induction r with
  | nil => cases h
  | cons c r ih =>
    rw [opensComment, Bool.or_eq_true, Bool.and_eq_true, Bool.and_eq_true] at h
    rw [List.cons_append, opensComment, Bool.or_eq_true, Bool.and_eq_true, Bool.and_eq_true]
    exact h.imp (And.imp_right (isPrefixOf_singleton_append · s)) (And.imp_right ih)

theorem breaksOut_append {r : List Char} (h : breaksOut r) (s : List Char) :
    breaksOut (r ++ s) := by
  rw [breaksOut, Bool.or_eq_true, Bool.and_eq_true] at h ⊢
  exact h.imp (endsTag_append · s)
    (And.imp (isPrefixOf_singleton_append · s) (opensComment_append · s))

theorem Contained.of_isInfix {t u : List Char} (h : Contained t) (hu : u <:+: t) : Contained u := by
  obtain ⟨front, back, rfl⟩ := hu
  rintro r ⟨before, rfl⟩
  by_contra hr
  rw [Bool.not_eq_false] at hr
  have hback := h (r ++ back) ⟨front ++ before, by simp⟩
  rw [breaksOut_append hr] at hback
  cases hback

/-! ## Comments that are left out -/

/-- A text, and the same text without some of its comments and with one space for some of them and
for some pieces of white space. -/
inductive Thins : List Char → List Char → Prop where
  /-- Nothing is left. -/
  | nil : Thins [] []
  /-- A character stays. -/
  | keep (c : Char) {t u : List Char} (rest : Thins t u) : Thins (c :: t) (c :: u)
  /-- A comment goes. -/
  | comment (body : List Char) {t u : List Char} (rest : Thins t u) :
      Thins ('/' :: '*' :: (body ++ t)) u
  /-- A space stands for a comment. -/
  | gap (body : List Char) {t u : List Char} (rest : Thins t u) :
      Thins ('/' :: '*' :: (body ++ t)) (' ' :: u)
  /-- A space stands for white space. -/
  | space {c : Char} (isSpace : isSpace c) (more : List Char) {t u : List Char} (rest : Thins t u) :
      Thins (c :: (more ++ t)) (' ' :: u)

namespace Thins

variable {t u : List Char}

theorem refl (t : List Char) : Thins t t := by
  induction t with
  | nil => exact .nil
  | cons c t ih => exact .keep c ih

theorem append {t' u' : List Char} (h : Thins t u) (h' : Thins t' u') :
    Thins (t ++ t') (u ++ u') := by
  induction h with
  | nil => exact h'
  | keep c _ ih => exact .keep c ih
  | comment body _ ih => simpa using Thins.comment body ih
  | gap body _ ih => simpa using Thins.gap body ih
  | space isSpace more _ ih => simpa using Thins.space isSpace more ih

theorem isPrefixOf_slash (h : Thins t u) (hu : ['/'].isPrefixOf u) : ['/'].isPrefixOf t := by
  cases h with
  | nil => exact hu
  | keep c rest => simpa using hu
  | comment => rfl
  | gap => rfl
  | space => cases hu

theorem opensComment (h : Thins t u) (hu : Css.opensComment u) : Css.opensComment t := by
  induction h with
  | nil => exact hu
  | comment | gap => rfl
  | space => cases hu
  | @keep c t u rest ih =>
    rw [Css.opensComment, Bool.or_eq_true, Bool.and_eq_true, Bool.and_eq_true] at hu ⊢
    rcases hu with ⟨hc, hstar⟩ | ⟨hc, hu⟩
    · cases rest with
      | nil => cases hstar
      | keep d rest => exact .inl ⟨hc, by simpa using hstar⟩
      | comment => exact .inr ⟨by simp [hc], rfl⟩
      | gap => cases hstar
      | space => cases hstar
    · exact .inr ⟨hc, ih hu⟩

/-- Where a comment is left out of an end tag, it opens after letters and slashes. -/
theorem endsTag_or_opensComment (h : Thins t u) {ps : List Char}
    (hps : ∀ p ∈ ps, p.isAlpha || p == '/') (hu : endsTag ps u) :
    endsTag ps t ∨ Css.opensComment t := by
  induction h generalizing ps with
  | nil => exact .inl hu
  | comment | gap => exact .inr rfl
  | @space c isSpace more t u rest =>
    cases ps with
    | nil => exact .inl (by rw [endsTag, isSpace]; rfl)
    | cons p ps =>
      -- No letter of an end tag is a space.
      rw [endsTag, Bool.and_eq_true, beq_iff_eq] at hu
      have hp := hps p List.mem_cons_self
      rw [← hu.1] at hp
      cases hp
  | @keep c t u rest ih =>
    cases ps with
    | nil => exact .inl hu
    | cons p ps =>
      rw [endsTag, Bool.and_eq_true, beq_iff_eq] at hu
      have hp := hps p List.mem_cons_self
      rw [← hu.1, isAlpha_toLower, Bool.or_eq_true, beq_iff_eq, toLower_eq_slash_iff,
        ← beq_iff_eq (a := c), ← Bool.or_eq_true] at hp
      rcases ih (fun x hx => hps x (List.mem_cons_of_mem p hx)) hu.2 with h | h
      · exact .inl (by rw [endsTag, hu.1, beq_self_eq_true, h]; rfl)
      · exact .inr (by rw [Css.opensComment, hp, h, Bool.and_self, Bool.or_true])

theorem breaksOut (h : Thins t u) (hu : Css.breaksOut u) : Css.breaksOut t := by
  rw [Css.breaksOut, Bool.or_eq_true, Bool.and_eq_true] at hu ⊢
  rcases hu with hu | ⟨hslash, hu⟩
  · have hslash : ['/'].isPrefixOf u := by
      cases u with
      | nil => cases hu
      | cons c u =>
        have hu : endsTag ('/' :: "style".toList) (c :: u) := hu
        rw [endsTag, Bool.and_eq_true, beq_iff_eq, toLower_eq_slash_iff] at hu
        simp [hu.1]
    exact (h.endsTag_or_opensComment forall_mem_closesStyle hu).imp_right fun hopens =>
      ⟨h.isPrefixOf_slash hslash, hopens⟩
  · exact .inr ⟨h.isPrefixOf_slash hslash, h.opensComment hu⟩

/-- An end piece that starts with a character that is no space was there before. -/
theorem exists_suffix (h : Thins t u) {c : Char} (hc : c ≠ ' ') {r : List Char}
    (hr : c :: r <:+ u) : ∃ q, c :: q <:+ t ∧ Thins q r := by
  induction h with
  | nil => cases List.suffix_nil.1 hr
  | @keep d t u rest ih =>
    rcases List.suffix_cons_iff.1 hr with heq | hr
    · obtain ⟨rfl, rfl⟩ := List.cons.inj heq
      exact ⟨t, List.suffix_refl _, rest⟩
    · obtain ⟨q, hq, hthins⟩ := ih hr
      exact ⟨q, hq.trans (List.suffix_cons d t), hthins⟩
  | @comment body t u rest ih =>
    obtain ⟨q, hq, hthins⟩ := ih hr
    exact ⟨q, hq.trans ⟨'/' :: '*' :: body, by simp⟩, hthins⟩
  | @gap body t u rest ih =>
    obtain ⟨q, hq, hthins⟩ := ih ((List.suffix_cons_iff.1 hr).resolve_left
      fun heq => hc (List.cons.inj heq).1)
    exact ⟨q, hq.trans ⟨'/' :: '*' :: body, by simp⟩, hthins⟩
  | @space d isSpace more t u rest ih =>
    obtain ⟨q, hq, hthins⟩ := ih ((List.suffix_cons_iff.1 hr).resolve_left
      fun heq => hc (List.cons.inj heq).1)
    exact ⟨q, hq.trans ⟨d :: more, by simp⟩, hthins⟩

/-- A contained text is contained without its comments. -/
theorem contained (h : Thins t u) (ht : Contained t) : Contained u := by
  intro r hr
  obtain ⟨q, hq, hthins⟩ := h.exists_suffix (by decide) hr
  by_contra hbreaks
  rw [Bool.not_eq_false] at hbreaks
  have hbreaks := hthins.breaksOut hbreaks
  rw [ht q hq] at hbreaks
  cases hbreaks

end Thins

/-! ## Texts that are put together -/

/-- Whether a character ends what could become an end tag. -/
def isSeam (d : Char) : Bool :=
  !d.isAlpha && d != '/' && d != '*' && d != '>' && !isSpace d

section

variable {d : Char} (hd : isSeam d)

include hd

theorem endsTag_append_seam {ps : List Char} (hps : ∀ p ∈ ps, p.isAlpha || p == '/')
    (r s : List Char) : endsTag ps (r ++ d :: s) = endsTag ps r := by
  simp only [isSeam, Bool.and_eq_true, Bool.not_eq_true', bne_iff_ne] at hd
  obtain ⟨⟨⟨⟨halpha, hslash⟩, -⟩, hclose⟩, hspace⟩ := hd
  induction r generalizing ps with
  | nil =>
    cases ps with
    | nil => simp [endsTag, hspace, hslash, hclose]
    | cons p ps =>
      have hne : d.toLower ≠ p := by
        rintro rfl
        have hp := hps _ List.mem_cons_self
        rw [isAlpha_toLower, halpha, Bool.false_or, beq_iff_eq, toLower_eq_slash_iff] at hp
        exact hslash hp
      simp [endsTag, hne]
  | cons c r ih =>
    cases ps with
    | nil => rfl
    | cons p ps =>
      rw [List.cons_append, endsTag, endsTag, ih fun x hx => hps x (List.mem_cons_of_mem p hx)]

theorem opensComment_append_seam (r s : List Char) :
    opensComment (r ++ d :: s) = opensComment r := by
  simp only [isSeam, Bool.and_eq_true, Bool.not_eq_true', bne_iff_ne] at hd
  obtain ⟨⟨⟨⟨halpha, hslash⟩, hstar⟩, -⟩, -⟩ := hd
  induction r with
  | nil => simp [opensComment, hslash, halpha]
  | cons c r ih =>
    rw [List.cons_append, opensComment, opensComment, ih,
      isPrefixOf_append_stop (by simp [hstar])]

theorem breaksOut_append_seam (r s : List Char) : breaksOut (r ++ d :: s) = breaksOut r := by
  have hslash : d ≠ '/' := by
    rintro rfl
    cases hd
  rw [breaksOut, breaksOut, endsTag_append_seam hd forall_mem_closesStyle,
    opensComment_append_seam hd, isPrefixOf_append_stop (by simp [hslash])]

/-- Contained texts can be put together around a character that ends what the first one begins. -/
theorem Contained.append_seam (hless : d ≠ '<') {t u : List Char} (ht : Contained t)
    (hu : Contained u) : Contained (t ++ d :: u) := by
  rintro r ⟨b, hb⟩
  rcases List.append_eq_append_iff.1 hb with ⟨front, ht', hr⟩ | ⟨front, rfl, hu'⟩
  · cases front with
    | nil => exact absurd (List.cons.inj hr).1.symm hless
    | cons c front =>
      obtain ⟨rfl, rfl⟩ : '<' = c ∧ r = front ++ d :: u := List.cons.inj hr
      rw [breaksOut_append_seam hd]
      exact ht front ⟨b, ht'.symm⟩
  · cases front with
    | nil => exact absurd (List.cons.inj hu').1 hless
    | cons c front => exact hu r ⟨front, (List.cons.inj hu').2.symm⟩

end

theorem Contained.nil : Contained [] := by
  intro r hr
  cases List.suffix_nil.1 hr

/-- A character other than `<` can stand before a contained text. -/
theorem Contained.cons {c : Char} (hc : c ≠ '<') {t : List Char} (ht : Contained t) :
    Contained (c :: t) := by
  intro r hr
  refine ht r ((List.suffix_cons_iff.1 hr).resolve_left fun heq => hc ?_)
  exact (List.cons.inj heq).1.symm

/-! ## End tags -/

theorem endsTag_or_eq (ps r : List Char) :
    (endsTag ps r || r.map Char.toLower == ps) =
      ((r.take ps.length).map Char.toLower == ps &&
        match r.drop ps.length with
        | c :: _ => isSpace c || c == '/' || c == '>'
        | [] => true) := by
  induction ps generalizing r with
  | nil => cases r <;> simp [endsTag]
  | cons p ps ih =>
    cases r with
    | nil => simp [endsTag]
    | cons c r =>
      have ih := ih r
      rw [endsTag, List.length_cons, List.take_succ_cons, List.drop_succ_cons, List.map_cons,
        List.map_cons, List.cons_beq_cons, List.cons_beq_cons, Bool.and_assoc, ← ih,
        Bool.and_or_distrib_left]

theorem startsEndTag_style (r : List Char) :
    Html.startsEndTag "style".toList ('<' :: r) =
      (endsTag "/style".toList r || r.map Char.toLower == "/style".toList) := by
  have hstyle : "/style".toList = '/' :: "style".toList := rfl
  cases r with
  | nil => rfl
  | cons c r =>
    rw [hstyle, endsTag, List.map_cons, List.cons_beq_cons, ← Bool.and_or_distrib_left,
      endsTag_or_eq]
    by_cases hc : c = '/'
    · subst hc
      rfl
    · have hlower : (c.toLower == '/') = false := by
        rw [beq_eq_false_iff_ne]
        exact mt (toLower_eq_slash_iff c).1 hc
      rw [Html.startsEndTag_of_ne (by simp [hc]), hlower, Bool.false_and]

/-- Whether a text ends with what is an end tag of `style` at the end of the input. -/
def endsInTag (t : List Char) : Bool :=
  "</style".toList.isSuffixOf (t.map Char.toLower)

/-- Whether a comment opens in a text right after `<`, or after `</` with only letters and slashes
between. -/
def hidesTag (t : List Char) : Bool :=
  t.tails.any fun s => ['<', '/'].isPrefixOf s && opensComment s.tail

theorem hidesTag_eq_false_iff {t : List Char} :
    hidesTag t = false ↔
      ∀ r, '<' :: r <:+ t → (['/'].isPrefixOf r && opensComment r) = false := by
  rw [hidesTag, List.any_eq_false]
  constructor
  · intro h r hr
    have hr := h ('<' :: r) ((List.mem_tails _ _).2 hr)
    rwa [Bool.not_eq_true] at hr
  · intro h s hs
    cases s with
    | nil => exact Bool.false_ne_true
    | cons c r =>
      by_cases hc : c = '<'
      · subst hc
        have hr := h r ((List.mem_tails _ _).1 hs)
        rwa [Bool.not_eq_true]
      · simp [Ne.symm hc]

theorem map_toLower_ne {r : List Char} (h : '<' ∈ r) : r.map Char.toLower ≠ "/style".toList := by
  intro heq
  have hmem : '<' ∈ r.map Char.toLower := List.mem_map.2 ⟨'<', h, rfl⟩
  rw [heq] at hmem
  exact absurd hmem (by decide)

/-- No end tag of `style` starts in a text if and only if none comes after a `<` in it. -/
theorem lacksEndTag_style_iff {t : List Char} :
    Html.LacksEndTag "style".toList t ↔
      ∀ r, '<' :: r <:+ t → endsTag "/style".toList r = false := by
  refine ⟨fun h r hr => ?_, fun h s hs hne r => ?_⟩
  · have hstarts := h ('<' :: r) hr (List.cons_ne_nil _ _) []
    rw [List.cons_append, startsEndTag_style, Bool.or_eq_false_iff,
      endsTag_append_seam (by decide) forall_mem_closesStyle] at hstarts
    exact hstarts.1
  · obtain ⟨c, s, rfl⟩ := List.exists_cons_of_ne_nil hne
    by_cases hc : c = '<'
    · subst hc
      have hmap := map_toLower_ne (r := s ++ '<' :: r) (by simp)
      rw [List.cons_append, startsEndTag_style,
        endsTag_append_seam (by decide) forall_mem_closesStyle, h s hs, Bool.false_or,
        beq_eq_false_iff_ne]
      exact hmap
    · exact Html.startsEndTag_of_ne (by simp [hc])

theorem contained_iff {t : List Char} :
    Contained t ↔ Html.LacksEndTag "style".toList t ∧ hidesTag t = false := by
  simp only [lacksEndTag_style_iff, hidesTag_eq_false_iff, Contained, breaksOut,
    Bool.or_eq_false_iff]
  exact forall₂_and

/-- No end tag starts in such a text, not even one that is cut off by the end of the text. -/
theorem startsEndTag_of_lacksEndTag {t : List Char} (h : Html.LacksEndTag "style".toList t)
    (hend : endsInTag t = false) {s : List Char} (hs : s <:+ t) :
    Html.startsEndTag "style".toList s = false := by
  cases s with
  | nil => rfl
  | cons c r =>
    by_cases hc : c = '<'
    · subst hc
      rw [startsEndTag_style, lacksEndTag_style_iff.1 h r hs, Bool.false_or, beq_eq_false_iff_ne]
      intro heq
      have hsuffix := hs.map Char.toLower
      rw [List.map_cons, heq] at hsuffix
      have hends : endsInTag t := List.isSuffixOf_iff_suffix.2 hsuffix
      rw [hends] at hend
      cases hend
    · exact Html.startsEndTag_of_ne (by simp [hc])

end Restyle.Css
