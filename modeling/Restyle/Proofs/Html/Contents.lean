import Restyle.Proofs.Dom.TreeOrder
import Restyle.Proofs.Html.TidyDocument

/-!
# The nodes of a built document

`contentsFrom` reads off a list of tokens which nodes they describe: each run of characters is one
text, and each other token adds what it stands for. Main statement: the document that is built from
the tokens has these nodes below its root, numbered in tree order, and no others (`lists_build`).
What carries the induction is that the next node always comes last in tree order, as the innermost
open element lies at the last place of the tree.
-/

namespace Restyle

namespace Attribute

theorem loop_eq_foldl (as table : List Attribute) :
    List.eraseDupsBy.loop (fun a b => a.name == b.name) as table.reverse =
      as.foldl (fun table a => if mem a.name table then table else table ++ [a]) table := by
  induction as generalizing table with
  | nil => simp [List.eraseDupsBy.loop]
  | cons a as ih =>
    have hmem : table.reverse.any (a.name == ·.name) = mem a.name table := by
      simp only [List.any_reverse, mem, BEq.comm (a := a.name)]
    rw [List.eraseDupsBy.loop, List.foldl_cons]
    simp only [hmem]
    cases mem a.name table with
    | true => exact ih table
    | false =>
      have happend := ih (table ++ [a])
      rwa [List.reverse_append] at happend

/-- The first of the attributes with one name is kept. -/
theorem firstWins_eq (as : List Attribute) :
    firstWins as = as.eraseDupsBy fun a b => a.name == b.name :=
  (loop_eq_foldl as []).symm

end Attribute

/-- Whether a node has no place for children: it is no document, and no element with content. -/
def Content.isLeaf : Content → Bool
  | document => false
  | element e => isVoidTag e.tag
  | _ => true

namespace Dom

/-- Whether a tree has exactly the given nodes below its document, numbered from 1 on in tree
order. -/
structure Lists (d : Dom) (contents : List Content) : Prop where
  /-- The nodes are linked to a tree. -/
  wellFormed : d.WellFormed
  /-- The nodes below the document, in tree order, are all nodes but the document itself. -/
  inOrder : d.descendants root = List.range' 1 (d.size - 1)
  /-- In that order they stand for this. -/
  contents : (d.descendants root).map d.content? = contents.map some
  /-- What has no place for children has none. -/
  leaf : ∀ i c, d.content? i = some c → c.isLeaf → d.children i = []

theorem Lists.empty : Dom.empty.Lists [] where
  wellFormed := .empty
  inOrder := rfl
  contents := rfl
  leaf i _ _ _ := by
    cases i <;> simp [Dom.empty, children, node?]

/-- The node that new nodes are put into has a place for them. -/
theorem Growing.isLeaf_current {d : Dom} {frames : List Html.Frame} (h : Growing d frames)
    {c : Content} (hc : d.content? (current frames) = some c) : c.isLeaf = false := by
  cases frames with
  | nil =>
    obtain rfl : c = .document := Option.some.inj (hc.symm.trans h.root)
    rfl
  | cons f outer =>
    obtain ⟨⟨attributes, hf⟩, hvoid, -⟩ := h.spine
    obtain rfl : c = .element ⟨f.tag, attributes⟩ := Option.some.inj (hc.symm.trans hf)
    exact hvoid

/-- A node that is put at the open end comes last. -/
theorem Lists.addChild {d : Dom} {contents : List Content} {frames : List Html.Frame}
    (h : d.Lists contents) (hgrowing : Growing d frames) (x : Content) :
    (d.addChild (current frames) x).Lists (contents ++ [x]) := by
  have hlt := hgrowing.current_lt
  have hpos := h.wellFormed.size_pos
  have hdescendants := h.wellFormed.descendants_addChild (x := x) hlt hgrowing.lastWithin
  exact {
    wellFormed := h.wellFormed.addChild hlt x
    inOrder := by
      have hconcat := List.range'_1_concat (s := 1) (n := d.size - 1)
      rw [Nat.add_sub_cancel' hpos, Nat.sub_add_cancel hpos] at hconcat
      rw [hdescendants, size_addChild hlt, h.inOrder, Nat.add_sub_cancel, hconcat]
    contents := by
      have hold : (d.descendants root).map (d.addChild (current frames) x).content? =
          (d.descendants root).map d.content? := by
        refine List.map_congr_left fun i hi => content?_addChild hlt ?_
        exact Nat.ne_of_lt (lt_size_of_above (h.wellFormed.mem_descendants_iff.1 hi))
      have hnew : (d.addChild (current frames) x).content? d.size = some x := by
        rw [content?, node?_addChild hlt, if_pos rfl]
        rfl
      rw [hdescendants, List.map_append, hold, h.contents, List.map_append, List.map_singleton,
        List.map_singleton, hnew]
    leaf := by
      intro i c hc hleaf
      rw [children_addChild hlt]
      by_cases hi : i = d.size
      · rw [hi, if_neg (Nat.ne_of_gt hlt), children_eq_nil_of_size_le (Nat.le_refl _)]
      · rw [content?_addChild hlt hi] at hc
        split_ifs with hcurrent
        · subst hcurrent
          rw [hgrowing.isLeaf_current hc] at hleaf
          cases hleaf
        · exact h.leaf i c hc hleaf }

end Dom

namespace Html

/-! ## What tokens describe -/

/-- The character, if the token is one. -/
def Token.character? : Token → Option Char
  | character c => some c
  | _ => none

/-- The characters before the first token that is none. -/
def leadingText (ts : List Token) : List Char :=
  (ts.takeWhile (·.character?.isSome)).filterMap Token.character?

/-- The tokens from the first one on that is no character. -/
def afterText (ts : List Token) : List Token :=
  ts.dropWhile (·.character?.isSome)

/-- The text node of a run of characters, if there are any. -/
def textOf (cs : List Char) : List Content :=
  if cs.isEmpty then [] else [.text (String.ofList cs)]

/-- The nodes that a token stands for within the given open tags, text apart. -/
def added (tags : List String) : Token → List Content
  | .doctype name => if tags.isEmpty then [.doctype (name.getD "")] else []
  | .comment data => [.comment data]
  | .startTag tag _ attributes =>
    [.element ⟨tag, attributes.eraseDupsBy fun a b => a.name == b.name⟩]
  | _ => []

/-- The nodes that tokens describe within the given open tags, up to the end of the text. -/
def contentsFrom (tags : List String) (ts : List Token) : List Content :=
  textOf (leadingText ts) ++
    match _h : afterText ts with
    | [] | .endOfFile :: _ => []
    | t :: rest => added tags t ++ contentsFrom (openAfter tags t) rest
termination_by ts.length
decreasing_by
  have hle := List.length_dropWhile_le (·.character?.isSome) ts
  rw [← afterText, _h, List.length_cons] at hle
  exact hle

theorem leadingText_append_afterText (ts : List Token) :
    (leadingText ts).map .character ++ afterText ts = ts := by
  induction ts with
  | nil => rfl
  | cons t ts ih =>
    cases t with
    | character c => exact congrArg (Token.character c :: ·) ih
    | _ => rfl

theorem character?_head_afterText {ts rest : List Token} {t : Token}
    (h : afterText ts = t :: rest) : t.character? = none := by
  have hhead := List.head?_dropWhile_not (·.character?.isSome) ts
  rw [← afterText, h] at hhead
  simpa using hhead

namespace Builder

open Dom

variable {b : Builder} {contents : List Content}

/-! ## One token -/

theorem lists_insert (hgrowing : Growing b.dom b.frames) (h : b.dom.Lists contents)
    (x : Content) : (b.insert x).dom.Lists (contents ++ [x]) := by
  rw [insert, current_eq]
  exact h.addChild hgrowing x

/-- The pending text becomes one node. -/
theorem lists_flush (hgrowing : Growing b.dom b.frames) (h : b.dom.Lists contents) :
    b.flush.dom.Lists (contents ++ textOf b.pending.reverse) := by
  unfold flush textOf
  rw [List.isEmpty_reverse]
  split_ifs
  · rwa [List.append_nil]
  · exact lists_insert hgrowing h _

theorem endTag_pending (position : Nat) (tag : String) :
    (b.endTag position tag).pending = b.pending := by
  unfold endTag
  split
  · dsimp only
    split_ifs <;> rfl
  · rfl

theorem step_pending {t : Token} (ht : t.character? = none) (position : Nat) :
    (b.step position t).pending = [] := by
  cases t with
  | character c => cases ht
  | doctype name =>
    rw [step]
    split_ifs <;> exact flush_pending
  | comment data => exact flush_pending
  | startTag tag selfClosing attributes => rw [step, startTag_pending, flush_pending]
  | endTag tag => rw [step, endTag_pending, flush_pending]
  | endOfFile => exact flush_pending

/-- A token ends the text before it and adds its nodes. -/
theorem lists_step (hgrowing : Growing b.dom b.frames) (h : b.dom.Lists contents) {t : Token}
    (ht : t.character? = none) (position : Nat) :
    (b.step position t).dom.Lists (contents ++ textOf b.pending.reverse ++ added b.tags t) := by
  have hflush := lists_flush hgrowing h
  have hgrowing' := growing_flush hgrowing
  cases t with
  | character c => cases ht
  | doctype name =>
    have hempty : b.flush.frames.isEmpty = b.tags.isEmpty := by
      rw [flush_frames, tags, List.isEmpty_map]
    simp only [step, added, hempty]
    split_ifs
    · exact lists_insert hgrowing' hflush _
    · rw [List.append_nil]
      exact hflush
  | comment data => exact lists_insert hgrowing' hflush _
  | startTag tag selfClosing attributes =>
    have hclose := becomes_close hgrowing' flush_pending (closeImplied_suffix tag b.flush.frames)
    rw [step, startTag_dom, added, ← Attribute.firstWins_eq]
    exact lists_insert hclose.growing hflush _
  | endTag tag =>
    simp only [step, endTag_dom, added, List.append_nil]
    exact hflush
  | endOfFile =>
    simp only [added, List.append_nil]
    exact hflush

/-! ## All tokens -/

/-- A run adds the nodes of its tokens. -/
theorem lists_run (hgrowing : Growing b.dom b.frames) (h : b.dom.Lists contents)
    (hpending : b.pending = []) (position : Nat) (ts : List Token) :
    (b.run position ts).dom.Lists (contents ++ contentsFrom b.tags ts) := by
  induction hn : ts.length using Nat.strongRecOn generalizing b contents position ts with
  | ind n ih =>
    let b' : Builder := { b with pending := (leadingText ts).reverse }
    have hflush : b'.flush.dom.Lists (contents ++ textOf (leadingText ts)) := by
      have := lists_flush (b := b') hgrowing h
      rwa [List.reverse_reverse] at this
    have hrun : b.run position ts = b'.run (position + (leadingText ts).length) (afterText ts) := by
      conv_lhs => rw [← leadingText_append_afterText ts]
      rw [run_characters, hpending, List.append_nil]
    rw [hrun, contentsFrom]
    split
    · rename_i hrest
      rw [hrest, List.append_nil]
      exact hflush
    · rename_i hrest
      rw [hrest, List.append_nil]
      exact hflush
    · rename_i t rest hne hrest
      have hlength : rest.length < n := by
        rw [← hn, ← leadingText_append_afterText ts, hrest]
        simp only [List.length_append, List.length_cons]
        omega
      have hstep := becomes_step (b := b') hgrowing (position + (leadingText ts).length) t
      have hchar := character?_head_afterText hrest
      have hlists := lists_step (b := b') hgrowing h hchar (position + (leadingText ts).length)
      rw [List.reverse_reverse] at hlists
      have hrest' := ih _ hlength hstep.growing hlists (step_pending hchar _)
        (position + (leadingText ts).length + 1) rest rfl
      rw [hstep.tags, List.append_assoc, List.append_assoc] at hrest'
      rw [hrest, run.eq_3 _ _ _ _ hne]
      exact hrest'

end Builder

/-- A document that is built from tokens has exactly the nodes that they describe, in order. -/
theorem lists_build (ts : List Token) : (build ts).dom.Lists (contentsFrom [] ts) :=
  Builder.lists_run (b := .empty) .empty .empty rfl 0 ts

end Html

end Restyle
