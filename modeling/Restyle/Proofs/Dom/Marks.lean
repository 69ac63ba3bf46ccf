import Mathlib.Data.List.Basic
import Mathlib.Tactic.ByContra
import Mathlib.Tactic.SplitIfs
import Restyle.Dom.Markup

/-!
# Markup in pieces

The markup of a document as a list of marks: tags, single characters of text, comments and document
types. `Dom.marks` follows `Dom.markup` step by step, and a mark is written by itself
(`toList_markup`). Where children have larger numbers than their parents, the bound on the depth
plays no part (`outerMarks_eq`).
-/

namespace Restyle

/-- A piece of markup. -/
inductive Mark where
  /-- A start tag. -/
  | start (e : Element)
  /-- An end tag. -/
  | close (tag : String)
  /-- A character of text, with the tag of the element around it. -/
  | text (parent : Option String) (c : Char)
  /-- A comment. -/
  | comment (data : String)
  /-- A document type. -/
  | doctype (name : String)
deriving DecidableEq, Repr

/-- How a mark is written. -/
def Mark.markup : Mark → List Char
  | start e => e.startTag.toList
  | close tag => ("</" ++ tag ++ ">").toList
  | text parent c =>
    if (parent.map verbatimTags.contains).getD false then [c] else (Text.escapeChar c).toList
  | comment data => ("<!--" ++ data ++ "-->").toList
  | doctype name => ("<!DOCTYPE " ++ name ++ ">").toList

namespace Dom

variable (d : Dom)

/-- The marks of a node, from those of what is below it. -/
def nodeMarks (n : Node) (inner : List Mark) : List Mark :=
  match n.content with
  | .document => inner
  | .doctype name => [.doctype name]
  | .comment data => [.comment data]
  | .text data => data.toList.map (.text (n.parent.bind d.tag?))
  | .element e => if isVoidTag e.tag then [.start e] else .start e :: (inner ++ [.close e.tag])

/-- The marks of a node and of what is below it, down to the given depth. -/
def marksTo : Nat → NodeId → List Mark
  | 0, _ => []
  | depth + 1, id =>
    match d.node? id with
    | none => []
    | some n => d.nodeMarks n (n.children.flatMap (marksTo depth))

/-- The marks of a node with what is below it. -/
def outerMarks (id : NodeId) : List Mark :=
  d.marksTo d.size id

/-- The marks of the document. -/
def marks : List Mark :=
  (d.children root).flatMap d.outerMarks

variable {d}

theorem toList_join_map {α : Type} (f : α → String) (xs : List α) :
    (String.join (xs.map f)).toList = xs.flatMap fun x => (f x).toList := by
  rw [String.toList_join, List.flatMap_map]

theorem toList_escape (parent : Option String) (data : String) :
    (if (parent.map verbatimTags.contains).getD false then data else Text.escape data).toList =
      (data.toList.map (Mark.text parent)).flatMap Mark.markup := by
  rw [List.flatMap_map]
  simp only [Mark.markup]
  split_ifs
  · rw [List.flatMap_singleton' data.toList]
  · rw [Text.escape, toList_join_map]

theorem toList_markupTo (depth : Nat) (id : NodeId) :
    (d.markupTo depth id).toList = (d.marksTo depth id).flatMap Mark.markup := by
  induction depth generalizing id with
  | zero => rfl
  | succ depth ih =>
    rw [markupTo, marksTo]
    cases d.node? id with
    | none => rfl
    | some n =>
      have inner : (String.join (n.children.map (d.markupTo depth))).toList =
          (n.children.flatMap (d.marksTo depth)).flatMap Mark.markup := by
        rw [toList_join_map, List.flatMap_assoc]
        simp only [ih]
      dsimp only
      unfold nodeMarks
      cases n.content with
      | document => exact inner
      | doctype name => simp [Mark.markup]
      | comment data => simp [Mark.markup]
      | text data => exact toList_escape (n.parent.bind d.tag?) data
      | element e =>
        dsimp only
        split_ifs
        · simp [Mark.markup]
        · simp only [String.toList_append, inner, List.flatMap_cons, List.flatMap_append,
            Mark.markup, Element.endTag, List.flatMap_nil, List.append_nil, List.append_assoc]

/-- The markup of the document is that of its marks. -/
theorem toList_markup : d.markup.toList = d.marks.flatMap Mark.markup := by
  rw [markup, innerMarkup, toList_join_map, marks, List.flatMap_assoc]
  exact congrArg (List.flatMap · _) (funext fun id => toList_markupTo d.size id)

/-! ## Children with larger numbers -/

/-- Whether every child has a larger number than its parent and is a node. -/
def Ordered (d : Dom) : Prop :=
  ∀ i c : Nat, c ∈ d.children i → i < c ∧ c < d.size

theorem node?_eq_none {i : Nat} (h : d.size ≤ i) : d.node? i = none :=
  Array.getElem?_eq_none h

theorem marksTo_eq_of_size_le {i : Nat} (h : d.size ≤ i) (depth : Nat) :
    d.marksTo depth i = [] := by
  cases depth with
  | zero => rfl
  | succ depth => rw [marksTo, node?_eq_none h]

/-- Below a node the number of nodes with larger numbers bounds the depth. -/
theorem marksTo_congr (hd : d.Ordered) {m n : Nat} {i : Nat} (hm : d.size ≤ m + i)
    (hn : d.size ≤ n + i) : d.marksTo m i = d.marksTo n i := by
  induction m generalizing n i with
  | zero => rw [marksTo_eq_of_size_le (by omega), marksTo_eq_of_size_le (by omega)]
  | succ m ih =>
    cases n with
    | zero => rw [marksTo_eq_of_size_le (by omega), marksTo_eq_of_size_le (by omega)]
    | succ n =>
      rw [marksTo, marksTo]
      cases hi : d.node? i with
      | none => rfl
      | some node =>
        dsimp only
        congr 1
        apply List.flatMap_congr
        intro c hc
        have hlt := hd i c (by simpa [children, hi] using hc)
        exact ih (by omega) (by omega)

theorem outerMarks_eq (hd : d.Ordered) {i : Nat} {n : Node} (hi : d.node? i = some n) :
    d.outerMarks i = d.nodeMarks n (n.children.flatMap d.outerMarks) := by
  have hsize : i < d.size := by
    by_contra h
    rw [node?_eq_none (by omega)] at hi
    cases hi
  unfold outerMarks
  rw [marksTo_congr (n := d.size - 1 + 1) hd (by omega) (by omega), marksTo, hi]
  dsimp only
  congr 1
  apply List.flatMap_congr
  intro c hc
  have hlt := hd i c (by simpa [children, hi] using hc)
  exact marksTo_congr hd (by omega) (by omega)

end Dom

end Restyle
