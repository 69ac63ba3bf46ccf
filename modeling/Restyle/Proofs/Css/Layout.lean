import Restyle.Proofs.Css.RoundTrip

/-!
# The lexemes of a declaration that is read back

A declaration that is read back is laid out as the printer writes it: its name, a colon, the lexemes
of its value without white space at their ends, and the mark `!important` if it is important
(`Declaration.readsBack_iff_layout`). White space, semicolons or another spelling of the mark would
make its lexemes longer than its text.
-/

namespace Restyle.Css

open Text Lexeme

/-! ## Lengths -/

theorem Lexeme.CutsInto.raw_eq {x : List Char} {ls : List Lexeme} (h : CutsInto x ls) :
    ∀ l ∈ ls, l.raw = l.source := by
  intro l hl
  obtain ⟨c, p, hsource, -⟩ := h.exists_source l hl
  rw [raw, if_neg]
  rintro ⟨-, hempty⟩
  rw [hempty] at hsource
  cases hsource

theorem toList_joined {ls : List Lexeme} (hraw : ∀ l ∈ ls, l.raw = l.source) :
    (joined ls).toList = written ls := by
  induction ls with
  | nil => rfl
  | cons l ls ih =>
    rw [joined_cons, String.toList_append, ih fun x hx => hraw x (List.mem_cons_of_mem l hx),
      hraw l List.mem_cons_self, written_cons]

theorem length_le_written {ls : List Lexeme} (h : ∀ l ∈ ls, l.source.toList ≠ []) :
    ls.length ≤ (written ls).length := by
  induction ls with
  | nil => exact Nat.le_refl 0
  | cons l ls ih =>
    have hl := List.length_pos_iff.2 (h l List.mem_cons_self)
    have ih := ih fun x hx => h x (List.mem_cons_of_mem l hx)
    rw [written_cons, List.length_append, List.length_cons]
    omega

/-! ## White space at the ends -/

/-- Whether a run neither starts nor ends with white space. -/
structure IsTrimmed (ls : List Lexeme) : Prop where
  /-- The first lexeme is no white space. -/
  head : ∀ l ∈ ls.head?, l.isSpace = false
  /-- The last lexeme is no white space. -/
  last : ∀ as l, ls = as ++ [l] → l.isSpace = false

theorem dropSpaceEnd_eq_self {ls : List Lexeme} (h : ∀ as l, ls = as ++ [l] → l.isSpace = false) :
    dropSpaceEnd ls = ls := by
  induction ls using List.reverseRecOn with
  | nil => rfl
  | append_singleton as l _ =>
    rw [dropSpaceEnd, List.reverse_concat, List.dropWhile_cons_of_neg (by simp [h as l rfl])]
    simp

theorem last_dropSpaceEnd (ls as : List Lexeme) (l : Lexeme) (h : dropSpaceEnd ls = as ++ [l]) :
    l.isSpace = false := by
  have hhead := List.head?_dropWhile_not Lexeme.isSpace ls.reverse
  rw [dropSpaceEnd, List.reverse_eq_iff, List.reverse_concat] at h
  rw [h] at hhead
  simpa using hhead

theorem IsTrimmed.trimSpace_eq {ls : List Lexeme} (h : IsTrimmed ls) : trimSpace ls = ls := by
  have hdrop : ls.dropWhile Lexeme.isSpace = ls := by
    cases ls with
    | nil => rfl
    | cons l ls => rw [List.dropWhile_cons_of_neg (by simp [h.head l rfl])]
  rw [trimSpace, hdrop, dropSpaceEnd_eq_self h.last]

theorem isTrimmed_trimSpace (ls : List Lexeme) : IsTrimmed (trimSpace ls) := by
  refine ⟨fun l hl => ?_, last_dropSpaceEnd _⟩
  obtain ⟨bs, hdrop, -⟩ := exists_dropSpaceEnd (ls.dropWhile Lexeme.isSpace)
  have hhead := List.head?_dropWhile_not Lexeme.isSpace ls
  obtain ⟨as, has⟩ := List.head?_eq_some_iff.1 hl
  rw [trimSpace] at has
  rw [hdrop, has] at hhead
  simpa using hhead

/-! ## The layout -/

namespace Declaration

/-- Whether a value goes on with the mark `!important`, or has no such mark at its end. -/
inductive EndsIn : Bool → List Lexeme → List Lexeme → Prop where
  /-- The mark follows. -/
  | important {value : List Lexeme} {bang word : Lexeme} {name : String}
      (isBang : bang.token = .delim '!') (isWord : word.token = .ident name)
      (isName : sameLetters name "important") : EndsIn true value [bang, word]
  /-- No mark is there. -/
  | plain {value : List Lexeme} (notMarked : splitImportant value = (value, false)) :
      EndsIn false value []

/-- The lexemes of a declaration that is written as the printer does it. -/
structure Layout (d : Declaration) (l c : Lexeme) (value mark : List Lexeme) : Prop where
  /-- The name. -/
  isName : ∃ name, l.token = .ident name
  /-- The name is written as it is. -/
  raw_eq : l.raw = d.name
  /-- The colon. -/
  isColon : c.token = .colon
  /-- All groups are closed. -/
  isRun : isRun endsValue [] ((value ++ mark).map token)
  /-- The value. -/
  values : Value.ofLexemes value = d.value
  /-- No white space stands around the value. -/
  isTrimmed : IsTrimmed value
  /-- The mark after the value. -/
  endsIn : EndsIn d.important value mark
  /-- The text. -/
  cutsInto : CutsInto d.css.toList (l :: c :: (value ++ mark))

theorem EndsIn.ofLexemes_eq {important : Bool} {value mark : List Lexeme}
    (h : EndsIn important value mark) (htrimmed : IsTrimmed value) {name : String}
    (hcustom : isCustomName name = false) :
    ofLexemes name (value ++ mark) = ⟨name, Value.ofLexemes value, important⟩ := by
  have hvalue := dropSpaceEnd_eq_self htrimmed.last
  cases h with
  | @important _ bang word word' isBang isWord isName =>
    have hbang : bang.isSpace = false := by simp [Lexeme.isSpace, isBang]
    have hword : word.isSpace = false := by simp [Lexeme.isSpace, isWord]
    have hall : IsTrimmed (value ++ [bang, word]) := by
      refine ⟨fun l hl => ?_, fun as l heq => ?_⟩
      · cases value with
        | nil =>
          obtain rfl := Option.some.inj hl
          exact hbang
        | cons v value => exact htrimmed.head l hl
      · have hlast := congrArg List.getLast? heq
        simp only [List.getLast?_append, List.getLast?_singleton] at hlast
        obtain rfl : word = l := by simpa using hlast
        exact hword
    have hspaces : ∀ l ∈ ([] : List Lexeme), l.isSpace := by simp
    have hsplit : splitImportant (trimSpace (value ++ [bang, word])) = (value, true) := by
      rw [hall.trimSpace_eq]
      exact splitImportant_of_mark value isBang hspaces isWord isName
    rw [Declaration.ofLexemes_eq hsplit, hvalue, hcustom]
    rfl
  | plain notMarked =>
    rw [List.append_nil]
    rw [← htrimmed.trimSpace_eq] at notMarked
    rw [Declaration.ofLexemes_eq notMarked, htrimmed.trimSpace_eq, hvalue, hcustom]
    rfl

theorem Layout.readsBack {d : Declaration} {l c : Lexeme} {value mark : List Lexeme}
    (h : Layout d l c value mark) (hcustom : d.isCustom = false) : d.readsBack := by
  obtain ⟨name, hname⟩ := h.isName
  have hspaces : ∀ l ∈ ([] : List Lexeme), l.isSpace := by simp
  have hends : ∀ l ∈ ([] : List Lexeme).head?, l.token = .semicolon := by simp
  have hreads := Reads.declaration hname hspaces h.isColon h.isRun hends .nil
  rw [h.endsIn.ofLexemes_eq h.isTrimmed (by rw [h.raw_eq]; exact hcustom), h.raw_eq, h.values,
    List.nil_append, List.append_nil] at hreads
  exact readsBack_iff.2 ⟨_, h.cutsInto, hreads⟩

/-- A declaration, with what comes before it and after it in its block. -/
theorem Reads.exists_of_mem {ls : List Lexeme} {ds : List Declaration} (h : Reads ls ds)
    {d : Declaration} (hd : d ∈ ds) :
    ∃ front l spaces c value rest name, ls = front ++ l :: (spaces ++ c :: (value ++ rest)) ∧
      l.token = .ident name ∧ (∀ s ∈ spaces, s.isSpace) ∧ c.token = .colon ∧
        Css.isRun endsValue [] (value.map token) ∧ (∀ e ∈ rest.head?, e.token = .semicolon) ∧
          d = ofLexemes l.raw value := by
  induction h with
  | nil => cases hd
  | @skip x ls ds _ _ ih =>
    obtain ⟨front, l, spaces, c, value, rest, name, rfl, h⟩ := ih hd
    exact ⟨x :: front, l, spaces, c, value, rest, name, rfl, h⟩
  | @declaration l c spaces value rest ds name isName areSpaces isColon isRun ends _ ih =>
    rcases List.mem_cons.1 hd with rfl | hd
    · exact ⟨[], l, spaces, c, value, rest, name, rfl, isName, areSpaces, isColon, isRun, ends, rfl⟩
    · obtain ⟨front, l', spaces', c', value', rest', name', rfl, h⟩ := ih hd
      exact ⟨l :: (spaces ++ c :: (value ++ front)), l', spaces', c', value', rest', name', by simp,
        h⟩

/-- The mark `!important` has ten characters at least. -/
theorem length_mark_le {bang word : Lexeme} {spaces : List Lexeme} {name : String}
    (hs : ∀ l ∈ bang :: (spaces ++ [word]), l.Spelled) (isBang : bang.token = .delim '!')
    (isWord : word.token = .ident name) (isName : sameLetters name "important") :
    10 + (written spaces).length ≤ (written (bang :: (spaces ++ [word]))).length := by
  have hbang := hs bang List.mem_cons_self
  have hword := hs word (by simp)
  rw [Spelled, isBang] at hbang
  rw [Spelled, isWord] at hword
  have hbang : bang.source.toList = ['!'] := hbang
  have hlength : name.toList.length = 9 := length_of_sameLetters isName
  have hword : name.toList.length ≤ weight false word.source.toList := hword
  have hle := List.countP_le_length (p := counts false) (l := word.source.toList)
  rw [weight] at hword
  rw [written_cons, written_append, written_cons, hbang]
  simp only [List.length_append, List.length_cons]
  omega

theorem eq_nil_of_length {ls : List Lexeme} (h : ∀ l ∈ ls, l.source.toList ≠ [])
    (hlength : (written ls).length = 0) : ls = [] := by
  have := length_le_written h
  exact List.length_eq_zero_iff.1 (by omega)

theorem length_cssAll {ls : List Lexeme} (hs : ∀ l ∈ ls, l.Spelled)
    (hraw : ∀ l ∈ ls, l.raw = l.source)
    (hclosed : (ls.map token).foldlM closersAfter [] = some []) :
    (Value.cssAll (Value.ofLexemes ls)).toList.length = (written ls).length := by
  rw [Value.cssAll_ofLexemes hs hclosed, toList_joined hraw]

theorem toList_css (d : Declaration) :
    d.css.toList = d.name.toList ++ ([':'] ++ ((Value.cssAll d.value).toList ++
      if d.important then "!important".toList else [])) := by
  cases h : d.important <;> simp [css, h]

theorem length_css (d : Declaration) :
    d.css.toList.length = d.name.toList.length + 1 + (Value.cssAll d.value).toList.length +
      if d.important then 10 else 0 := by
  rw [toList_css, List.length_append, List.length_append, List.length_append, ← Nat.add_assoc,
    ← Nat.add_assoc]
  cases d.important <;> rfl

/-- A declaration is no longer than the lexemes of its value, and shorter if any is left out. -/
structure Covers (d : Declaration) (ls value mark : List Lexeme) : Prop where
  /-- The mark after the value. -/
  endsIn : EndsIn d.important value mark
  /-- No white space stands around the value. -/
  isTrimmed : IsTrimmed value
  /-- The value. -/
  values : Value.ofLexemes value = d.value
  /-- Nothing is added. -/
  length_le : d.css.toList.length ≤ d.name.toList.length + 1 + (written ls).length
  /-- Nothing is left out of a text of the same length. -/
  eq_of_length_le : d.name.toList.length + 1 + (written ls).length ≤ d.css.toList.length →
    ls = value ++ mark

section

variable {name : String} {ls : List Lexeme}

theorem exists_covers_of_isTrimmed (hs : ∀ l ∈ ls, l.Spelled) (hraw : ∀ l ∈ ls, l.raw = l.source)
    (hne : ∀ l ∈ ls, l.source.toList ≠ []) (hcustom : isCustomName name = false)
    (hclosed : (ls.map token).foldlM closersAfter [] = some []) (htrimmed : IsTrimmed ls) :
    ∃ value mark, Covers (ofLexemes name ls) ls value mark := by
  rcases splitImportant_cases ls with hplain | ⟨before, bang, spaces, word, important, hsplit, rfl,
    isBang, areSpaces, isWord, isName⟩
  · have hlength := length_cssAll hs hraw hclosed
    have hd : ofLexemes name ls = ⟨name, Value.ofLexemes ls, false⟩ := by
      simpa using EndsIn.ofLexemes_eq (.plain hplain) htrimmed hcustom
    rw [hd]
    have hcss := length_css ⟨name, Value.ofLexemes ls, false⟩
    rw [hlength] at hcss
    exact ⟨ls, [], .plain hplain, htrimmed, rfl, hcss.le, fun _ => (List.append_nil ls).symm⟩
  · obtain ⟨after, hbefore, hafter⟩ := exists_dropSpaceEnd before
    have hlast := last_dropSpaceEnd before
    have hd : ofLexemes name (before ++ bang :: (spaces ++ [word])) =
        ⟨name, Value.ofLexemes (dropSpaceEnd before), true⟩ := by
      rw [← htrimmed.trimSpace_eq] at hsplit
      rw [Declaration.ofLexemes_eq hsplit, hcustom]
      rfl
    rw [hd]
    generalize dropSpaceEnd before = value at hbefore hlast
    subst hbefore
    have hsub : ∀ l ∈ value, l ∈ value ++ after ++ bang :: (spaces ++ [word]) := fun l hl => by
      simp [hl]
    rw [List.map_append, foldlM_append_neutral _ (closersAfter_of_mark isBang areSpaces isWord),
      List.map_append, foldlM_append_neutral _ (closersAfter_of_isSpace hafter)] at hclosed
    have hvalue := length_cssAll (fun l hl => hs l (hsub l hl)) (fun l hl => hraw l (hsub l hl))
      hclosed
    have hcss := length_css ⟨name, Value.ofLexemes value, true⟩
    have hmark :=
      length_mark_le (fun l hl => hs l (List.mem_append_right _ hl)) isBang isWord isName
    rw [hvalue, if_pos rfl] at hcss
    refine ⟨value, [bang, word], .important isBang isWord isName,
      ⟨fun l hl => htrimmed.head l ?_, hlast⟩, rfl, ?_, fun hge => ?_⟩
    · simp only [List.head?_append, Option.mem_def.1 hl, Option.some_or, Option.mem_def]
    · rw [hcss, written_append, written_append, List.length_append, List.length_append]
      omega
    · rw [hcss, written_append, written_append, List.length_append, List.length_append] at hge
      obtain rfl : after = [] := eq_nil_of_length (fun l hl => hne l (by simp [hl])) (by omega)
      obtain rfl : spaces = [] := eq_nil_of_length (fun l hl => hne l (by simp [hl])) (by omega)
      simp

/-- A declaration is no longer than the lexemes it is read from, and shorter if any is left out. -/
theorem exists_covers (hs : ∀ l ∈ ls, l.Spelled) (hraw : ∀ l ∈ ls, l.raw = l.source)
    (hne : ∀ l ∈ ls, l.source.toList ≠ []) (hcustom : isCustomName name = false)
    (hrun : Css.isRun endsValue [] (ls.map token)) :
    ∃ value mark, Covers (ofLexemes name ls) ls value mark := by
  obtain ⟨front, back, hsplit, -, -⟩ := exists_trimSpace ls
  have htrimmed := isTrimmed_trimSpace ls
  have hclosed := foldlM_trimSpace (foldlM_of_isRun hrun)
  have hlength := congrArg (fun ls => (written ls).length) hsplit
  simp only [written_append, List.length_append] at hlength
  have hsub : ∀ l ∈ trimSpace ls, l ∈ ls := fun l hl => by
    rw [hsplit]
    simp [hl]
  have heq : ofLexemes name (trimSpace ls) = ofLexemes name ls := by
    rw [ofLexemes, ofLexemes, htrimmed.trimSpace_eq]
  obtain ⟨value, mark, h⟩ := exists_covers_of_isTrimmed (fun l hl => hs l (hsub l hl))
    (fun l hl => hraw l (hsub l hl)) (fun l hl => hne l (hsub l hl)) hcustom hclosed htrimmed
  rw [heq] at h
  have hle := h.length_le
  refine ⟨value, mark, h.endsIn, h.isTrimmed, h.values, by omega, fun hge => ?_⟩
  obtain rfl : front = [] :=
    eq_nil_of_length (fun l hl => hne l (by rw [hsplit]; simp [hl])) (by omega)
  obtain rfl : back = [] :=
    eq_nil_of_length (fun l hl => hne l (by rw [hsplit]; simp [hl])) (by omega)
  rw [List.nil_append, List.append_nil] at hsplit
  rw [hsplit]
  exact h.eq_of_length_le (by omega)

end

theorem exists_layout {d : Declaration} (h : d.readsBack) (hcustom : d.isCustom = false) :
    ∃ l c value mark, Layout d l c value mark := by
  obtain ⟨ls, hcut, hreads⟩ := readsBack_iff.1 h
  have hne : ∀ l ∈ ls, l.source.toList ≠ [] := by
    intro l hl hnil
    obtain ⟨c, p, hsource, -⟩ := hcut.exists_source l hl
    rw [hnil] at hsource
    cases hsource
  obtain ⟨skipped, l, spaces, c, all, rest, name, rfl, isName, -, isColon, isRun, -, hd⟩ :=
    hreads.exists_of_mem (List.mem_singleton_self d)
  have hraw := hcut.raw_eq l (by simp)
  have hcolon := (hcut.spelled c (by simp)).toList_source (c := ':') isColon rfl
  have hname : l.raw = d.name := by rw [hd]; rfl
  have hcustom : isCustomName l.raw = false := by rw [hname]; exact hcustom
  obtain ⟨value, mark, hcovers⟩ := exists_covers (fun x hx => hcut.spelled x (by simp [hx]))
    (fun x hx => hcut.raw_eq x (by simp [hx])) (fun x hx => hne x (by simp [hx])) hcustom isRun
  have hlength := congrArg List.length hcut.written
  rw [← hd] at hcovers
  simp only [written_append, written_cons, List.length_append, hcolon,
    List.length_singleton] at hlength
  have hle := hcovers.length_le
  have hall := hcovers.eq_of_length_le
  rw [← hname, hraw] at hle hall
  obtain rfl : skipped = [] := eq_nil_of_length (fun x hx => hne x (by simp [hx])) (by omega)
  obtain rfl : spaces = [] := eq_nil_of_length (fun x hx => hne x (by simp [hx])) (by omega)
  obtain rfl : rest = [] := eq_nil_of_length (fun x hx => hne x (by simp [hx])) (by omega)
  obtain rfl := hall (by omega)
  refine ⟨l, c, value, mark, ⟨name, isName⟩, hname, isColon, isRun, hcovers.values,
    hcovers.isTrimmed, hcovers.endsIn, ?_⟩
  simpa using hcut

/-- A declaration, other than of a custom property, is read back if and only if its text is laid out
as the printer writes it. -/
theorem readsBack_iff_layout {d : Declaration} (hcustom : d.isCustom = false) :
    d.readsBack ↔ ∃ l c value mark, Layout d l c value mark :=
  ⟨fun h => exists_layout h hcustom, fun ⟨_, _, _, _, h⟩ => h.readsBack hcustom⟩

end Declaration

end Restyle.Css
