import Restyle.Proofs.Css.ReadsBack
import Restyle.Proofs.Css.Tiling
import Restyle.Proofs.Css.TrailingBlank
import Restyle.Revision.Session

/-!
# Style attributes as the block of a rule

A style attribute is read as the block of a placeholder rule. `BlockTiling` says how a style fills
that block, and `ClosedByPlaceholder` and `ClosedByStyle` say which brace closes it. Main statement:
a style that is accepted is one of the two, by whether a comment is left open, and one that is not
leaves the document as it is (`Revision.Session.inlineStyle_closed`).
-/

namespace Restyle

namespace Css

open Text Lexeme

/-! ## The placeholder rule -/

/-- A style attribute as the block of a placeholder rule. -/
def placeholder (style : String) : String :=
  "x \x7b " ++ style ++ " \x7d "

/-- The lexemes in front of the block of the placeholder rule. -/
def opening : List Lexeme :=
  [⟨.ident "x", "x", 0⟩, ⟨.whitespace, " ", 1⟩, ⟨.leftBrace, "\x7b", 2⟩]

/-- What comes after the brace that opens the block of the placeholder rule. -/
def inside (style : String) : List Char :=
  ' ' :: (style.toList ++ [' ', '\x7d', ' '])

theorem scan_placeholder (style : String) :
    scan (placeholder style) = opening ++ scanFrom false 3 (inside style) := by
  have hchars : (placeholder style).toList = 'x' :: ' ' :: '\x7b' :: inside style := by
    rw [placeholder, String.toList_append, String.toList_append, inside]
    simp
  have hname : Lexer.token 'x' (' ' :: '\x7b' :: inside style) =
      (.ident "x", ' ' :: '\x7b' :: inside style) := by
    have hread : Lexer.name ('x' :: ' ' :: '\x7b' :: inside style) =
        (['x'], ' ' :: '\x7b' :: inside style) :=
      Lexer.name_append (List.forall_mem_singleton.2 (by decide)) rfl
    exact Lexer.nameToken_of_name hread (by simp)
  have hword := @scanFrom_eq_of_skipComments false 0 [] ['x'] (' ' :: '\x7b' :: inside style) 'x'
    (Lexer.skipComments_cons (by decide) _) (by rw [hname]; rfl)
  have hspace := scanFrom_space (c := ' ') rfl true 1 ('\x7b' :: inside style)
  have hbrace := @scanFrom_eq_of_skipComments false 2 [] ['\x7b'] (inside style) '\x7b'
    (Lexer.skipComments_cons (by decide) _) rfl
  rw [hname] at hword
  rw [scan, hchars, opening]
  refine hword.trans (congrArg (List.cons _) ?_)
  refine hspace.trans (congrArg (List.cons _) ?_)
  exact hbrace

/-! ## What is read inside of it -/

theorem not_brace_of_isRun {stop : Token → Bool} {closers ts : List Token}
    (h : isRun stop closers ts) : ∀ t ∈ ts, t ≠ .leftBrace ∧ t ≠ .rightBrace := by
  induction ts generalizing closers with
  | nil => simp
  | cons t ts ih =>
    obtain ⟨-, closers', hafter, h⟩ := isRun_cons_iff.1 h
    refine List.forall_mem_cons.2 ⟨?_, ih h⟩
    constructor <;> rintro rfl <;> cases hafter

/-- No brace stands among declarations. -/
theorem Declaration.Reads.not_brace {ls : List Lexeme} {ds : List Declaration} (h : Reads ls ds) :
    ∀ l ∈ ls, l.token ≠ .leftBrace ∧ l.token ≠ .rightBrace := by
  induction h with
  | nil => simp
  | skip skipped rest ih =>
    refine List.forall_mem_cons.2 ⟨?_, ih⟩
    rcases skipped with h | h <;> simp [h]
  | @declaration l c spaces value rest ds name isName areSpaces isColon isRun ends others ih =>
    have hvalue := not_brace_of_isRun isRun
    intro x hx
    simp only [List.mem_cons, List.mem_append] at hx
    rcases hx with rfl | hx | rfl | hx | hx
    · simp [isName]
    · have hspace : x.token = .whitespace := by simpa [Lexeme.isSpace] using areSpaces x hx
      simp [hspace]
    · simp [isColon]
    · exact hvalue x.token (List.mem_map_of_mem hx)
    · exact ih x hx

theorem Rule.reads_nil_iff {top : Bool} {ls : List Lexeme} :
    Rule.Reads top ls [] ↔ ∀ l ∈ ls, isSkipped top l := by
  constructor
  · intro h
    generalize hrs : ([] : List Rule) = rs at h
    induction h with
    | nil => simp
    | skip skipped rest ih => exact List.forall_mem_cons.2 ⟨skipped, ih hrs⟩
    | style | last | statement | group | block => cases hrs
  · intro h
    induction ls with
    | nil => exact .nil
    | cons l ls ih =>
      rw [List.forall_mem_cons] at h
      exact .skip h.1 (ih h.2)

/-- The placeholder rule is read as one style rule if declarations and a closing brace come next,
and nothing after them that is not skipped. -/
theorem Rule.reads_opening_iff {ls : List Lexeme} {rule : StyleRule} :
    Rule.Reads true (opening ++ ls) [.style rule] ↔
      ∃ ds body b rest, ls = body ++ b :: rest ∧ b.token = .rightBrace ∧
        Declaration.Reads body ds ∧ (∀ l ∈ rest, isSkipped true l) ∧ rule = ⟨["x"], ds⟩ := by
  constructor
  · intro h
    generalize hls : opening ++ ls = ks at h
    generalize hrs : [Rule.style rule] = rs at h
    cases h with
    | nil => cases hrs
    | skip skipped =>
      obtain ⟨rfl, -⟩ := List.cons.inj hls
      cases skipped
    | last isAt | statement isAt | group isAt | block isAt =>
      obtain ⟨rfl, -⟩ := List.cons.inj hls
      cases isAt
    | @style _ l b r head body rest selectors ds _ notSkipped notAt isRun hasSelectors opens
        isBalanced closes inside others =>
      obtain ⟨rfl, hafter⟩ := List.cons.inj hls
      obtain ⟨hrule, rfl⟩ := List.cons.inj hrs
      obtain rfl := Rule.style.inj hrule
      cases head with
      | nil =>
        obtain ⟨rfl, -⟩ := List.cons.inj hafter
        cases opens
      | cons a head =>
        obtain ⟨rfl, hblock⟩ := List.cons.inj hafter
        cases head with
        | nil =>
          obtain ⟨rfl, rfl⟩ := List.cons.inj hblock
          have hselectors : selectors? [⟨.ident "x", "x", 0⟩, ⟨.whitespace, " ", 1⟩] =
              some ["x"] := by decide
          obtain rfl := Option.some.inj (hselectors.symm.trans hasSelectors)
          exact ⟨ds, body, r, rest, rfl, closes, inside, Rule.reads_nil_iff.1 others, rfl⟩
        | cons a head =>
          obtain ⟨rfl, -⟩ := List.cons.inj hblock
          exact absurd rfl (not_brace_of_isRun isRun .leftBrace (by simp)).1
  · rintro ⟨ds, body, b, rest, rfl, closes, inside, skipped, rfl⟩
    exact @Rule.Reads.style true ⟨.ident "x", "x", 0⟩ ⟨.leftBrace, "\x7b", 2⟩ b
      [⟨.whitespace, " ", 1⟩] body rest ["x"] ds [] rfl (by simp) rfl (by decide) rfl
      inside.isBalanced closes inside (Rule.reads_nil_iff.2 skipped)

theorem not_broken_of_isSkipped {top : Bool} {l : Lexeme} (h : Rule.isSkipped top l) :
    l.isBroken = false := by
  simp only [Rule.isSkipped, Lexeme.isSpace, Bool.and_eq_true, Bool.or_eq_true, decide_eq_true_eq]
    at h
  rcases h with h | ⟨-, h | h⟩ <;> simp [isBroken, h]

namespace Stylesheet

theorem parseInline_eq_ok_iff_exists {style : String} {sheet : Stylesheet} :
    parseInline style = .ok sheet ↔
      ∃ ds body b rest, scanFrom false 3 (inside style) = body ++ b :: rest ∧
        (∀ l ∈ body, l.isBroken = false) ∧ b.token = .rightBrace ∧ Declaration.Reads body ds ∧
        (∀ l ∈ rest, Rule.isSkipped true l) ∧ sheet = ⟨[.style ⟨["x"], ds⟩]⟩ := by
  have hsheet : parseInline style = .ok sheet ↔
      parse (placeholder style) = .ok sheet ∧ ∃ rule, sheet.rules = [.style rule] := by
    unfold parseInline
    rw [bind_eq_ok_iff]
    constructor
    · rintro ⟨sheet', hparse, h⟩
      split at h
      · rename_i rule hrules
        obtain rfl := Except.ok.inj h
        exact ⟨hparse, rule, hrules⟩
      · cases h
    · rintro ⟨hparse, rule, hrules⟩
      refine ⟨sheet, hparse, ?_⟩
      rw [hrules]
      rfl
  have hwhole : ∀ l ∈ opening, l.isBroken = false := by decide
  rw [hsheet, parse_eq_ok_iff, scan_placeholder, List.forall_mem_append]
  constructor
  · rintro ⟨⟨⟨-, hall⟩, hreads⟩, rule, hrules⟩
    rw [hrules] at hreads
    obtain ⟨ds, body, b, rest, hscan, hb, hbody, hrest, rfl⟩ := Rule.reads_opening_iff.1 hreads
    have hblock : ∀ l ∈ body, l.isBroken = false := fun l hl => hall l (by simp [hscan, hl])
    exact ⟨ds, body, b, rest, hscan, hblock, hb, hbody, hrest, by rw [← hrules]⟩
  · rintro ⟨ds, body, b, rest, hscan, hall, hb, hbody, hrest, rfl⟩
    have hreads := Rule.reads_opening_iff.2 ⟨ds, body, b, rest, hscan, hb, hbody, hrest, rfl⟩
    refine ⟨⟨⟨hwhole, fun l hl => ?_⟩, hreads⟩, _, rfl⟩
    rw [hscan, List.mem_append, List.mem_cons] at hl
    rcases hl with hl | rfl | hl
    · exact hall l hl
    · simp [isBroken, hb]
    · exact not_broken_of_isSkipped (hrest l hl)

end Stylesheet

/-! ## Comments at the ends -/

theorem AreComments.eq_nil_or_slash {g : List Char} (h : AreComments g) :
    g = [] ∨ (∃ z, g = '/' :: z) ∧ ∃ z, g = z ++ ['/'] := by
  obtain ⟨cs, hcs, rfl⟩ := h
  rcases cs.eq_nil_or_concat with rfl | ⟨cs, c, rfl⟩
  · exact .inl rfl
  · rw [List.concat_eq_append] at hcs ⊢
    right
    have hc := hcs c (by simp)
    obtain ⟨body, hbody, -⟩ := hc
    constructor
    · cases cs with
      | nil => exact ⟨_, by simpa using hbody⟩
      | cons a cs =>
        obtain ⟨body', hbody', -⟩ := hcs a (by simp)
        exact ⟨_, by rw [List.cons_append, List.flatten_cons, hbody']; rfl⟩
    · refine ⟨cs.flatten ++ '/' :: '*' :: (body ++ ['*']), ?_⟩
      simp [hbody]

theorem AreLastComments.eq_nil_or_slash {g : List Char} (h : AreLastComments g) :
    g = [] ∨ ∃ z, g = '/' :: z := by
  obtain ⟨comments, last, hcomments, hlast, rfl⟩ := h
  rcases hcomments.eq_nil_or_slash with rfl | ⟨⟨z, rfl⟩, -⟩
  · rcases hlast with rfl | ⟨body, rfl, -⟩
    · exact .inl rfl
    · exact .inr ⟨_, rfl⟩
  · exact .inr ⟨_, rfl⟩

theorem Tile.eq_of {tile : Tile} {t : Token} {cs : List Char} {n : Nat} (hgap : tile.gap = [])
    (htoken : tile.lexeme.token = t) (hsource : tile.lexeme.source.toList = cs)
    (hstart : tile.lexeme.start = n) : tile = ⟨[], t, String.ofList cs, n⟩ := by
  obtain ⟨gap, token, source, start⟩ := tile
  subst hgap htoken hsource hstart
  rw [String.ofList_toList]

/-- A tile has a text. -/
theorem Tile.IsSound.ne_nil {t : Tile} (h : t.IsSound) : t.gap ++ t.lexeme.source.toList ≠ [] := by
  intro hnil
  obtain ⟨hgap, hsource⟩ := List.append_eq_nil_iff.1 hnil
  rcases h.source with hne | ⟨-, hne⟩
  · exact hne (String.toList_eq_nil_iff.1 hsource)
  · exact hne hgap

/-- Whether a text does not end in a brace that closes, with a space after it or without one. -/
def Clear (s : List Char) : Prop :=
  ¬ ['\x7d'] <:+ s ∧ ¬ ['\x7d', ' '] <:+ s

theorem eq_of_suffix_concat {as bs : List Char} {c d : Char} (h : as ++ [c] <:+ bs ++ [d]) :
    c = d ∧ as <:+ bs := by
  obtain ⟨t, ht⟩ := h
  rw [← List.append_assoc] at ht
  obtain ⟨hfront, hlast⟩ := List.append_inj' ht rfl
  exact ⟨(List.cons.inj hlast).1, t, hfront⟩

theorem Clear.nil : Clear [] := by
  constructor <;> rintro h <;> simpa using h.length_le

theorem Clear.concat {s : List Char} (h : Clear s) {d : Char} (hd : d ≠ '\x7d') :
    Clear (s ++ [d]) := by
  constructor
  · intro hsuffix
    exact hd (@eq_of_suffix_concat [] _ _ _ hsuffix).1.symm
  · intro hsuffix
    exact h.1 (@eq_of_suffix_concat ['\x7d'] _ _ _ hsuffix).2

theorem Clear.append {s : List Char} (h : Clear s) {p : List Char} (hp : '\x7d' ∉ p) :
    Clear (s ++ p) := by
  induction p generalizing s with
  | nil => rwa [List.append_nil]
  | cons d p ih =>
    rw [List.mem_cons, not_or] at hp
    rw [List.append_cons]
    exact ih (h.concat (Ne.symm hp.1)) hp.2

theorem Clear.comments {s : List Char} (h : Clear s) {g : List Char} (hg : AreComments g) :
    Clear (s ++ g) := by
  rcases hg.eq_nil_or_slash with rfl | ⟨-, z, rfl⟩
  · rwa [List.append_nil]
  · rw [← List.append_assoc]
    constructor <;> intro hsuffix
    · cases (@eq_of_suffix_concat [] _ _ _ hsuffix).1
    · cases (@eq_of_suffix_concat ['\x7d'] _ _ _ hsuffix).1

/-- Tiles without a brace do not end in one. -/
theorem Clear.tiles {s : List Char} (h : Clear s) {ts : List Tile}
    (hgap : ∀ t ∈ ts, AreComments t.gap) (hsource : ∀ t ∈ ts, '\x7d' ∉ t.lexeme.source.toList) :
    Clear (s ++ Tile.text ts) := by
  induction ts generalizing s with
  | nil => rwa [Tile.text, List.flatMap_nil, List.append_nil]
  | cons t ts ih =>
    rw [List.forall_mem_cons] at hgap hsource
    rw [Tile.text_cons, ← List.append_assoc, ← List.append_assoc]
    exact ih ((h.comments hgap.1).append hsource.1) hgap.2 hsource.2

/-! ## The block of the placeholder rule -/

/-- How a style attribute fills the block of the placeholder rule: tiles that are read as
declarations, the brace that closes the block, tiles that are skipped, and the comments after them.
-/
structure BlockTiling (style : String) (ds : List Declaration) (tiles : List Tile) (brace : Tile)
    (after : List Tile) (last : List Char) : Prop where
  /-- The tiles are the lexemes of the placeholder rule. -/
  scan : Lexeme.scan (placeholder style) = opening ++ (tiles ++ brace :: after).map Tile.lexeme
  /-- They make up what comes after the brace that opens the block. -/
  tiling : Tiling 3 (inside style) (tiles ++ brace :: after) last
  /-- No string and no address is broken off. -/
  whole : ∀ t ∈ tiles, t.lexeme.isBroken = false
  /-- The block is read as the declarations. -/
  reads : Declaration.Reads (tiles.map Tile.lexeme) ds
  /-- The block is closed. -/
  closes : brace.lexeme.token = .rightBrace
  /-- What comes after it is skipped. -/
  skipped : ∀ t ∈ after, Rule.isSkipped true t.lexeme

/-- Whether the block is closed by the brace of the placeholder rule, which comes after the style
with its spaces. -/
structure ClosedByPlaceholder (style : String) (tiles : List Tile) (brace : Tile)
    (after : List Tile) : Prop where
  /-- The whole style is in the block, with a space on each side. -/
  text : Tile.text tiles = ' ' :: (style.toList ++ [' '])
  /-- The brace is the one after it. -/
  brace : brace = ⟨[], ⟨.rightBrace, "\x7d", bytes style + 5⟩⟩
  /-- The space at the end comes next. -/
  after : after = [⟨[], ⟨.whitespace, " ", bytes style + 6⟩⟩]
  /-- The space before the brace is white space, or a word whose last escape takes it. -/
  blank : ∀ t ∈ tiles.getLast?,
    t.lexeme.isSpace ∨ t.lexeme.token.isWord ∧ EndsInEscape style.toList

/-- Whether the block is closed by a brace of the style, and a comment of the style takes the brace
of the placeholder rule. -/
structure ClosedByStyle (style : String) (tiles : List Tile) (brace : Tile) (after : List Tile)
    (comments body last : List Char) : Prop where
  /-- The brace and what comes after it are in the style. -/
  text : ' ' :: style.toList =
    Tile.text (tiles ++ brace :: after) ++ (comments ++ '/' :: '*' :: body)
  /-- Comments come before the one that takes the brace. -/
  areComments : AreComments comments
  /-- That one is left open. -/
  isOpen : IsOpenComment ('/' :: '*' :: body)
  /-- It goes on to the end of the placeholder rule. -/
  last : last = comments ++ '/' :: '*' :: (body ++ [' ', '\x7d', ' '])

theorem Stylesheet.parseInline_eq_ok_iff_tiling {style : String} {sheet : Stylesheet} :
    parseInline style = .ok sheet ↔
      ∃ ds tiles brace after last, BlockTiling style ds tiles brace after last ∧
        sheet = ⟨[.style ⟨["x"], ds⟩]⟩ := by
  rw [parseInline_eq_ok_iff_exists]
  constructor
  · rintro ⟨ds, body, b, rest, hscan, hall, hb, hbody, hrest, hsheet⟩
    obtain ⟨tiles, last, htiles, htiling⟩ := tiling_scanFrom false 3 (inside style)
    rw [hscan] at htiles
    obtain ⟨tiles, more, rfl, rfl, hmore⟩ := List.map_eq_append_iff.1 htiles.symm
    obtain ⟨brace, after, rfl, rfl, rfl⟩ := List.map_eq_cons_iff.1 hmore
    refine ⟨ds, tiles, brace, after, last, ⟨?_, htiling, ?_, hbody, hb, ?_⟩, hsheet⟩
    · rw [scan_placeholder, hscan, htiles]
    · exact fun t ht => hall _ (List.mem_map_of_mem ht)
    · exact fun t ht => hrest _ (List.mem_map_of_mem ht)
  · rintro ⟨ds, tiles, brace, after, last, h, hsheet⟩
    have hscan := h.scan
    rw [scan_placeholder, List.append_right_inj, List.map_append, List.map_cons] at hscan
    exact ⟨ds, _, _, _, hscan, List.forall_mem_map.2 h.whole, h.closes, h.reads,
      List.forall_mem_map.2 h.skipped, hsheet⟩

namespace BlockTiling

variable {style : String} {ds : List Declaration} {tiles after : List Tile} {brace : Tile}
  {last : List Char} (h : BlockTiling style ds tiles brace after last)

include h

theorem scanFrom_eq :
    scanFrom false 3 (inside style) = (tiles ++ brace :: after).map Tile.lexeme := by
  have hscan := h.scan
  rwa [scan_placeholder, List.append_right_inj] at hscan

theorem spelled : ∀ t ∈ tiles ++ brace :: after, t.lexeme.Spelled := by
  have hwhole : ∀ l ∈ scanFrom false 3 (inside style), l.isBroken = false := by
    rw [h.scanFrom_eq, List.forall_mem_map]
    intro t ht
    rw [List.mem_append, List.mem_cons] at ht
    rcases ht with ht | rfl | ht
    · exact h.whole t ht
    · simp [isBroken, h.closes]
    · exact not_broken_of_isSkipped (h.skipped t ht)
  intro t ht
  refine spelled_scanFrom hwhole t.lexeme ?_
  rw [h.scanFrom_eq]
  exact List.mem_map_of_mem ht

theorem source_brace : brace.lexeme.source.toList = ['\x7d'] :=
  (h.spelled brace (by simp)).toList_source h.closes rfl

/-- What is skipped is white space or a comment mark of markup. -/
theorem skipped_cases : ∀ t ∈ after, t.lexeme.token = .whitespace ∨
    t.lexeme.source.toList = ['<', '!', '-', '-'] ∨ t.lexeme.source.toList = ['-', '-', '>'] := by
  intro t ht
  have hspelled := h.spelled t (by simp [ht])
  have hskipped := h.skipped t ht
  simp only [Rule.isSkipped, Lexeme.isSpace, Bool.true_and, Bool.or_eq_true, decide_eq_true_eq]
    at hskipped
  rw [Spelled] at hspelled
  rcases hskipped with hspace | hcdo | hcdc
  · exact .inl hspace
  · rw [hcdo] at hspelled
    exact .inr (.inl hspelled)
  · rw [hcdc] at hspelled
    exact .inr (.inr hspelled)

/-- What is skipped holds no brace. -/
theorem not_mem_source : ∀ t ∈ after, '\x7d' ∉ t.lexeme.source.toList := by
  intro t ht
  rcases h.skipped_cases t ht with hspace | hsource | hsource
  · intro hmem
    have hspelled := h.spelled t (by simp [ht])
    rw [Spelled, hspace] at hspelled
    cases hspelled _ hmem
  · simp [hsource]
  · simp [hsource]

/-- The block ends at a brace of the style or at that of the placeholder rule. -/
theorem split :
    (Tile.text tiles ++ brace.gap = ' ' :: (style.toList ++ [' ']) ∧
      Tile.text after ++ last = [' ']) ∨
    ∃ back, ' ' :: style.toList = Tile.text tiles ++ brace.gap ++ '\x7d' :: back ∧
      Tile.text after ++ last = back ++ [' ', '\x7d', ' '] := by
  have htext : (' ' :: style.toList) ++ [' ', '\x7d', ' '] =
      (Tile.text tiles ++ brace.gap) ++ '\x7d' :: (Tile.text after ++ last) := by
    have htext := h.tiling.text
    rw [Tile.text_append, Tile.text_cons, h.source_brace, inside] at htext
    simpa using htext
  rcases List.append_eq_append_iff.1 htext with ⟨more, hfront, hmore⟩ | ⟨more, hfront, hmore⟩
  · left
    rcases more with _ | ⟨a, _ | ⟨b, _ | ⟨c, more⟩⟩⟩
    · cases hmore
    · obtain ⟨rfl, hback⟩ := List.cons.inj hmore
      exact ⟨by rw [hfront]; rfl, (List.cons.inj hback).2.symm⟩
    · simp at hmore
    · simp at hmore
  · right
    cases more with
    | nil => cases hmore
    | cons a back =>
      obtain ⟨rfl, hback⟩ := List.cons.inj hmore
      exact ⟨back, hfront, hback⟩

/-- The spaces of the placeholder rule come right before its brace and right after it. -/
theorem eq_of_split (htext : Tile.text tiles ++ brace.gap = ' ' :: (style.toList ++ [' ']))
    (hafter : Tile.text after ++ last = [' ']) :
    last = [] ∧ brace.gap = [] ∧
      ∃ t, after = [t] ∧ t.gap = [] ∧ t.lexeme.source.toList = [' '] := by
  have hsound := h.tiling.sound
  have hnot : '/' ∉ Tile.text after ++ last := by simp [hafter]
  rw [List.mem_append, not_or] at hnot
  have hlast : last = [] := by
    rcases h.tiling.last.eq_nil_or_slash with hnil | ⟨z, rfl⟩
    · exact hnil
    · exact absurd List.mem_cons_self hnot.2
  have hgap : brace.gap = [] := by
    rcases (hsound brace (by simp)).gap.eq_nil_or_slash with hnil | ⟨-, z, hz⟩
    · exact hnil
    · rw [hz, ← List.append_assoc, ← List.cons_append] at htext
      cases (List.append_inj' htext rfl).2
  refine ⟨hlast, hgap, ?_⟩
  rw [hlast, List.append_nil] at hafter
  cases after with
  | nil => cases hafter
  | cons t ts =>
    have ht := hsound t (by simp)
    rw [Tile.text_cons] at hafter hnot
    have hgap : t.gap = [] := by
      rcases ht.gap.eq_nil_or_slash with hnil | ⟨⟨z, hz⟩, -⟩
      · exact hnil
      · simp [hz] at hnot
    have hne := ht.ne_nil
    rw [hgap, List.nil_append] at hafter hne
    obtain ⟨c, cs, hsource⟩ := List.exists_cons_of_ne_nil hne
    rw [hsource, List.cons_append, List.cons.injEq, List.append_eq_nil_iff] at hafter
    obtain ⟨rfl, rfl, hts⟩ := hafter
    refine ⟨t, ?_, hgap, hsource⟩
    cases ts with
    | nil => rfl
    | cons u us =>
      rw [Tile.text_cons, List.append_eq_nil_iff] at hts
      exact absurd hts.1 (hsound u (by simp)).ne_nil

/-- The space before the brace of the placeholder rule is white space, or a word takes it. -/
theorem blank (htext : Tile.text tiles = ' ' :: (style.toList ++ [' '])) :
    ∀ t ∈ tiles.getLast?,
      t.lexeme.isSpace ∨ t.lexeme.token.isWord ∧ EndsInEscape style.toList := by
  intro t ht
  obtain ⟨before, rfl⟩ := List.getLast?_eq_some_iff.1 ht
  rw [Tile.text_append, Tile.text_cons] at htext
  rcases t.lexeme.source.toList.eq_nil_or_concat with hsource | ⟨q, e, hsource⟩
  · left
    have hsound := (h.tiling.sound t (by simp)).source
    have hspace := hsound.resolve_left fun hne => hne (String.toList_eq_nil_iff.1 hsource)
    simp [Lexeme.isSpace, hspace.1]
  · rw [List.concat_eq_append] at hsource
    have hnil : Tile.text [] = [] := rfl
    rw [hsource, hnil, List.append_nil, ← List.append_assoc, ← List.append_assoc,
      ← List.cons_append] at htext
    obtain ⟨hfront, hlast⟩ := List.append_inj' htext rfl
    obtain ⟨rfl, -⟩ := List.cons.inj hlast
    have hscans := scans_scanFrom false 3 (inside style)
    rw [h.scanFrom_eq] at hscans
    have hls : ((before ++ [t]) ++ brace :: after).map Tile.lexeme =
        before.map Tile.lexeme ++ t.lexeme :: (brace :: after).map Tile.lexeme := by simp
    refine (hscans.blank hls (by simp) (h.whole t (by simp)) hsource rfl).imp (fun hspace => ?_)
      (And.imp_right fun hescape => ?_)
    · simp [Lexeme.isSpace, hspace]
    · have hstyle : EndsInEscape (' ' :: style.toList) := by
        rw [← hfront]
        exact hescape.append _
      obtain ⟨front, digits, heq, hdigits⟩ := hstyle
      cases front with
      | nil => cases heq
      | cons a front => exact ⟨front, digits, (List.cons.inj heq).2, hdigits⟩

/-- Nothing is left open if the block ends at the brace of the placeholder rule. -/
theorem closedByPlaceholder
    (htext : Tile.text tiles ++ brace.gap = ' ' :: (style.toList ++ [' ']))
    (hafter : Tile.text after ++ last = [' ']) :
    last = [] ∧ ClosedByPlaceholder style tiles brace after := by
  obtain ⟨hlast, hgap, t, rfl, ht, hsource⟩ := h.eq_of_split htext hafter
  have hsize : ' '.utf8Size = 1 := rfl
  have hplaced := h.tiling.placed
  have hbrace : brace.lexeme.start = bytes style + 5 := by
    rw [hplaced.start_eq, htext, ← List.cons_append, byteSize_append, byteSize, bytes]
    simp only [byteSize, hsize]
    omega
  have hspace : t.lexeme.start = bytes style + 6 := by
    rw [List.append_cons] at hplaced
    have hfront : Tile.text (tiles ++ [brace]) = ' ' :: (style.toList ++ [' ', '\x7d']) := by
      rw [Tile.text_append, Tile.text_cons, ← List.append_assoc, ← List.append_assoc, htext,
        h.source_brace]
      simp [Tile.text]
    have hsize' : '\x7d'.utf8Size = 1 := rfl
    rw [hplaced.start_eq, ht, List.append_nil, hfront, ← List.cons_append, byteSize_append, bytes]
    simp only [byteSize, hsize, hsize']
    omega
  have htoken : t.lexeme.token = .whitespace := by
    refine (h.skipped_cases t (by simp)).resolve_right ?_
    simp [hsource]
  rw [hgap, List.append_nil] at htext
  refine ⟨hlast, htext, Tile.eq_of hgap h.closes h.source_brace hbrace, ?_, h.blank htext⟩
  exact congrArg (fun tile => [tile]) (Tile.eq_of ht htoken hsource hspace)

/-- A comment is left open if the block ends at a brace of the style. -/
theorem closedByStyle {back : List Char}
    (htext : ' ' :: style.toList = Tile.text tiles ++ brace.gap ++ '\x7d' :: back)
    (hafter : Tile.text after ++ last = back ++ [' ', '\x7d', ' ']) :
    last ≠ [] ∧ ∃ comments body, ClosedByStyle style tiles brace after comments body last := by
  have hsound := h.tiling.sound
  obtain ⟨comments, rest, hcomments, hrest, rfl⟩ := h.tiling.last
  have hclear : Clear (Tile.text after ++ comments) := by
    have hgap : ∀ t ∈ after, AreComments t.gap := fun t ht => (hsound t (by simp [ht])).gap
    exact (Clear.nil.tiles hgap h.not_mem_source).comments hcomments
  rcases hrest with rfl | ⟨more, rfl, hopen⟩
  · rw [List.append_nil] at hafter
    rw [hafter] at hclear
    exact absurd ⟨back ++ [' '], by simp⟩ hclear.2
  have htail : [' ', '\x7d', ' '] <:+ '/' :: '*' :: more := by
    have hopens : '/' :: '*' :: more <:+ back ++ [' ', '\x7d', ' '] :=
      ⟨Tile.text after ++ comments, by rw [← hafter, List.append_assoc]⟩
    refine (List.suffix_or_suffix_of_suffix hopens (List.suffix_append _ _)).resolve_left
      fun hsuffix => ?_
    have := hsuffix.subset List.mem_cons_self
    simp at this
  obtain ⟨front, hfront⟩ := htail
  rcases front with _ | ⟨a, _ | ⟨b, body⟩⟩
  · cases hfront
  · simp at hfront
  simp only [List.cons_append, List.cons.injEq] at hfront
  obtain ⟨rfl, rfl, rfl⟩ := hfront
  have hback : back = Tile.text after ++ (comments ++ '/' :: '*' :: body) := by
    apply (List.append_left_inj [' ', '\x7d', ' ']).1
    rw [← hafter]
    simp
  refine ⟨by simp, comments, body, ?_, hcomments, ⟨body, rfl, fun hinfix => hopen ?_⟩, rfl⟩
  · rw [htext, hback, Tile.text_append, Tile.text_cons, h.source_brace]
    simp
  · exact hinfix.trans (List.infix_append' [] _ _)

/-- The block is closed by the brace of the placeholder rule, or by a brace of the style with a
comment left open after it. -/
theorem closed :
    last = [] ∧ ClosedByPlaceholder style tiles brace after ∨
      last ≠ [] ∧ ∃ comments body, ClosedByStyle style tiles brace after comments body last := by
  rcases h.split with ⟨htext, hafter⟩ | ⟨back, htext, hafter⟩
  · exact .inl (h.closedByPlaceholder htext hafter)
  · exact .inr (h.closedByStyle htext hafter)

theorem closedByPlaceholder_iff : ClosedByPlaceholder style tiles brace after ↔ last = [] := by
  rcases h.closed with ⟨hlast, hclosed⟩ | ⟨hlast, comments, body, hclosed⟩
  · exact iff_of_true hclosed hlast
  · refine iff_of_false (fun hplaceholder => ?_) hlast
    have htext := congrArg List.length hclosed.text
    rw [Tile.text_append, hplaceholder.text] at htext
    simp only [List.length_append, List.length_cons] at htext
    omega

theorem closedByStyle_iff :
    (∃ comments body, ClosedByStyle style tiles brace after comments body last) ↔ last ≠ [] := by
  rcases h.closed with ⟨hlast, -⟩ | ⟨hlast, hclosed⟩
  · refine iff_of_false ?_ (fun hne => hne hlast)
    rintro ⟨comments, body, hclosed⟩
    simp [hclosed.last] at hlast
  · exact iff_of_true hclosed hlast

/-- No brace stands in the block. -/
theorem not_brace :
    ∀ t ∈ tiles, t.lexeme.token ≠ .leftBrace ∧ t.lexeme.token ≠ .rightBrace :=
  fun _ ht => h.reads.not_brace _ (List.mem_map_of_mem ht)

end BlockTiling

end Css

/-! ## Style attributes -/

namespace Revision.Session

open Css

/-- A source that cannot be read is left out, and the document stays as it is. -/
theorem reviseAttribute_of_error (k : PassKind) (t : HiddenTarget) {s : Session} {id : NodeId}
    {style : String} {e : ParseError} (hstyle : s.dom.attributeValue? id "style" = some style)
    (herror : Stylesheet.parseInline style = .error e) :
    s.reviseAttribute k t id = s.skip id .styleAttribute e := by
  simp only [reviseAttribute, hstyle, herror]

/-- A style attribute is accepted if and only if it fills the block of the placeholder rule, which
holds no brace then. The brace of the placeholder rule closes the block, with the whole style before
it, if and only if no comment is left open; otherwise a brace of the style does, and a comment of
the style takes that of the placeholder rule. What is not accepted is left out, and the document
stays as it is. -/
theorem inlineStyle_closed (style : String) :
    (∀ sheet, Stylesheet.parseInline style = .ok sheet ↔
      ∃ ds tiles brace after last, BlockTiling style ds tiles brace after last ∧
        sheet = ⟨[.style ⟨["x"], ds⟩]⟩) ∧
    (∀ ds tiles brace after last, BlockTiling style ds tiles brace after last →
      (∀ t ∈ tiles, t.lexeme.token ≠ .leftBrace ∧ t.lexeme.token ≠ .rightBrace) ∧
      (ClosedByPlaceholder style tiles brace after ↔ last = []) ∧
      ((∃ comments body, ClosedByStyle style tiles brace after comments body last) ↔ last ≠ [])) ∧
    ∀ (k : PassKind) (t : HiddenTarget) (s : Session) (id : NodeId) (e : ParseError),
      s.dom.attributeValue? id "style" = some style → Stylesheet.parseInline style = .error e →
        s.reviseAttribute k t id = s.skip id .styleAttribute e ∧
          (s.reviseAttribute k t id).dom = s.dom := by
  refine ⟨fun sheet => Stylesheet.parseInline_eq_ok_iff_tiling, ?_, ?_⟩
  · intro ds tiles brace after last h
    exact ⟨h.not_brace, h.closedByPlaceholder_iff, h.closedByStyle_iff⟩
  · intro k t s id e hstyle herror
    have hskip := reviseAttribute_of_error k t hstyle herror
    exact ⟨hskip, by rw [hskip]; rfl⟩

/-- A brace in a string does not close the block. -/
theorem inlineStyle_closed_quoted :
    Stylesheet.parseInline "content:'\x7d'" =
        .ok ⟨[.style ⟨["x"], [⟨"content", [.other "'\x7d'"], false⟩]⟩]⟩ ∧
      ∃ ds tiles brace after last, BlockTiling "content:'\x7d'" ds tiles brace after last ∧
        ClosedByPlaceholder "content:'\x7d'" tiles brace after := by
  have hread : Stylesheet.parseInline "content:'\x7d'" =
      .ok ⟨[.style ⟨["x"], [⟨"content", [.other "'\x7d'"], false⟩]⟩]⟩ := by decide +kernel
  obtain ⟨ds, tiles, brace, after, last, h, -⟩ :=
    ((inlineStyle_closed "content:'\x7d'").1 _).1 hread
  obtain ⟨-, hplaceholder, hstyle⟩ := (inlineStyle_closed "content:'\x7d'").2.1 _ _ _ _ _ h
  refine ⟨hread, ds, tiles, brace, after, last, h, hplaceholder.2 ?_⟩
  -- There is no comment that could take the brace of the placeholder rule.
  by_contra hlast
  obtain ⟨comments, body, hclosed⟩ := hstyle.2 hlast
  have hslash : '/' ∈ ' ' :: "content:'\x7d'".toList := by
    rw [hclosed.text]
    simp
  exact absurd hslash (by decide)

/-- An open comment after a brace of the style takes the brace of the placeholder rule. -/
theorem inlineStyle_closed_early :
    Stylesheet.parseInline "color:red\x7d/*" =
        .ok ⟨[.style ⟨["x"], [⟨"color", [.identifier "red"], false⟩]⟩]⟩ ∧
      ¬ ∃ ds tiles brace after last,
        BlockTiling "color:red\x7d/*" ds tiles brace after last ∧
          ClosedByPlaceholder "color:red\x7d/*" tiles brace after := by
  refine ⟨by decide +kernel, ?_⟩
  rintro ⟨ds, tiles, brace, after, last, h, hclosed⟩
  have hends : (Lexeme.scan (placeholder "color:red\x7d/*")).getLast? =
      some ⟨.rightBrace, "\x7d", 13⟩ := by
    decide +kernel
  rw [h.scan, hclosed.after] at hends
  simp at hends

end Revision.Session

end Restyle
