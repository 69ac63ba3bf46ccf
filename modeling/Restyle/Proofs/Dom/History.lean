import Restyle.Proofs.Dom.Moves
import Restyle.Proofs.Html.TidyDocument

/-!
# Histories of a document tree

A `Change` is one operation on a table of nodes, with any numbers at all. A change keeps the table
well-formed unless it puts a node below itself, and setting a text does that too where the text is
given to the number that the new text node is about to get (`wellFormed_apply_iff`). Main statement:
a history that moves no node below itself keeps the table well-formed at every moment if and only if
no text is given to the next number, and it changes no node but in the attributes that it sets and
removes (`afterAll_wellFormed_iff`).
-/

namespace Restyle

/-- What a node stands for, with its attributes changed if it is an element. -/
def Content.mapAttributes (f : List Attribute → List Attribute) : Content → Content
  | element e => element { e with attributes := f e.attributes }
  | c => c

theorem Attribute.find?_erase_of_ne {name other : String} (hne : name ≠ other)
    (as : List Attribute) : find? other (erase name as) = find? other as := by
  unfold find? erase
  induction as with
  | nil => rfl
  | cons a as ih =>
    rw [List.eraseP_cons]
    cases ha : a.name == name with
    | true =>
      have hother : (a.name == other) = false := beq_eq_false_iff_ne.2 (beq_iff_eq.1 ha ▸ hne)
      rw [cond_true, List.find?_cons, hother]
    | false =>
      rw [cond_false, List.find?_cons, List.find?_cons]
      split
      · rfl
      · exact ih

/-- An operation on a document tree. -/
inductive Change where
  /-- A node is made. -/
  | add (c : Content)
  /-- A node becomes the last child of another one. -/
  | append (parent child : NodeId)
  /-- A node is taken off the given parent. -/
  | removeChild (parent child : NodeId)
  /-- A node is taken off its parent. -/
  | detach (id : NodeId)
  /-- The children of a node are replaced by a text. -/
  | setText (id : NodeId) (text : String)
  /-- An attribute of an element gets a value. -/
  | setAttribute (id : NodeId) (name value : String)
  /-- An attribute of an element is dropped. -/
  | removeAttribute (id : NodeId) (name : String)
deriving DecidableEq, Repr

namespace Change

/-- The tree after a change. -/
def apply (d : Dom) : Change → Dom
  | add c => d.add c
  | append parent child => d.append parent child
  | removeChild parent child => d.removeChild parent child
  | detach id => d.detach id
  | setText id text => d.setText id text
  | setAttribute id name value => d.setAttribute id name value
  | removeAttribute id name => d.removeAttribute id name

/-- Whether a change moves no node below itself. -/
def isAllowed (d : Dom) : Change → Bool
  | append parent child => child != parent && !d.isDescendantOf parent child
  | _ => true

/-- Whether a change gives a text to the number of the next node. -/
def textsNext (d : Dom) : Change → Bool
  | setText id text => id == d.size && !text.isEmpty
  | _ => false

/-- What a change makes of a node that is there. -/
def onContent (i : NodeId) : Change → Content → Content
  | setAttribute id name value, c =>
    if id = i then c.mapAttributes (Attribute.set name value) else c
  | removeAttribute id name, c => if id = i then c.mapAttributes (Attribute.erase name) else c
  | _, c => c

/-- Whether a change sets or removes the given attribute of a node. -/
def names (i : NodeId) (name : String) : Change → Bool
  | setAttribute id n _ | removeAttribute id n => id == i && n == name
  | _ => false

end Change

namespace Dom

/-- The tree after some changes. -/
def afterAll (d : Dom) (xs : List Change) : Dom :=
  xs.foldl Change.apply d

/-- Whether no change, at its time, moves a node below itself. -/
def allAllowed (d : Dom) : List Change → Bool
  | [] => true
  | x :: xs => x.isAllowed d && allAllowed (x.apply d) xs

/-- Whether a change, at its time, gives a text to the number of the next node. -/
def textsNext (d : Dom) : List Change → Bool
  | [] => false
  | x :: xs => x.textsNext d || textsNext (x.apply d) xs

variable {d : Dom}

/-- Following the parents ends. -/
theorem WellFormed.wellFounded (hd : d.WellFormed) : WellFounded d.IsParent := by
  refine Subrelation.wf (fun {p c} h => ?_) (measure fun id => (d.ancestors id).length).wf
  show (d.ancestors p).length < (d.ancestors c).length
  rw [hd.length_ancestors_child h]
  exact Nat.lt_succ_self _

/-! ## Texts that are set -/

section

variable (d) (id : NodeId) (text : String)

/-- The tree without the children of a node. -/
def bare : Dom :=
  (d.children id).foldl (fun d c => d.removeChild id c) d

theorem setText_eq :
    d.setText id text =
      if text.isEmpty then d.bare id else ((d.bare id).add (.text text)).append id d.size := by
  rw [setText, addChild, size_foldl_removeChild]
  rfl

theorem size_bare : (d.bare id).size = d.size :=
  size_foldl_removeChild d id _

theorem size_le_setText : d.size ≤ (d.setText id text).size := by
  rw [setText_eq]
  split_ifs
  · rw [size_bare]
  · rw [size_append, size_add, size_bare]
    exact Nat.le_succ _

theorem content?_setText {i : Nat} (hi : i < d.size) :
    (d.setText id text).content? i = d.content? i := by
  have hbare : (d.bare id).content? i = d.content? i := content?_foldl_removeChild d id _ i
  rw [setText_eq]
  split_ifs
  · exact hbare
  · rw [content?_append, content?_add _ _ (by rw [size_bare]; exact Nat.ne_of_lt hi), hbare]

end

theorem WellFormed.bare (hd : d.WellFormed) (id : NodeId) : (d.bare id).WellFormed :=
  (Trims.foldl_removeChild hd id _).wellFormed

/-- A new text node is its own parent where the text is given to its number. -/
theorem WellFormed.setText_iff (hd : d.WellFormed) (id : NodeId) (text : String) :
    (d.setText id text).WellFormed ↔ ¬ (id = d.size ∧ text ≠ "") := by
  have hbare := hd.bare id
  have hadd := hbare.add (.text text)
  have hsize : ((d.bare id).add (.text text)).size = d.size + 1 := by rw [size_add, size_bare]
  rw [setText_eq]
  split_ifs with hempty
  · rw [String.isEmpty_iff] at hempty
    simp [hbare, hempty]
  · rw [String.isEmpty_iff] at hempty
    constructor
    · rintro h ⟨rfl, -⟩
      have hself := parent?_append (d := (d.bare d.size).add (.text text)) (p := d.size)
        (c := d.size) (by omega) (by omega) d.size
      rw [if_pos rfl] at hself
      exact h.acyclic d.size (.single hself)
    · intro h
      refine hadd.append (fun hid => h ⟨hid.symm, hempty⟩) fun habove => ?_
      -- The new node has no children yet.
      obtain ⟨c, hc, -⟩ := above_iff_child.1 habove
      rw [parent?_add] at hc
      have hlt := hbare.parent_lt _ _ hc
      rw [size_bare] at hlt
      exact Nat.lt_irrefl _ hlt

/-! ## One change -/

theorem content?_modifyElement_eq (id : NodeId) (f : List Attribute → List Attribute) (i : Nat) :
    (d.modifyElement id fun e => { e with attributes := f e.attributes }).content? i =
      if id = i then (d.content? i).map (·.mapAttributes f) else d.content? i := by
  simp only [modifyElement, modifyContent, content?, node?_modify, eq_comm (a := id)]
  split_ifs
  · cases d.node? i with
    | none => rfl
    | some n =>
      obtain ⟨x, -, -⟩ := n
      cases x <;> rfl
  · rfl

theorem size_le_apply (x : Change) : d.size ≤ (x.apply d).size := by
  cases x with
  | add c => exact (size_add d c).symm ▸ Nat.le_succ _
  | append p c => exact (size_append d p c).ge
  | removeChild p c => exact (size_removeChild d p c).ge
  | detach id => exact (size_detach d id).ge
  | setText id text => exact size_le_setText d id text
  | setAttribute id | removeAttribute id => exact (size_modifyElement d id _).ge

/-- A change leaves every node what it is, attributes aside. -/
theorem content?_apply (x : Change) {i : Nat} {c : Content} (h : d.content? i = some c) :
    (x.apply d).content? i = some (x.onContent i c) := by
  have hi := lt_size_of_content? h
  cases x with
  | add c => exact (content?_add d c (Nat.ne_of_lt hi)).trans h
  | append p c => exact (content?_append d p c i).trans h
  | removeChild p c => exact (content?_removeChild d p c i).trans h
  | detach id => exact (content?_detach d id i).trans h
  | setText id text => exact (content?_setText d id text hi).trans h
  | setAttribute id name value =>
    refine (content?_modifyElement_eq id _ i).trans ?_
    rw [h, Change.onContent]
    split_ifs <;> rfl
  | removeAttribute id name =>
    refine (content?_modifyElement_eq id _ i).trans ?_
    rw [h, Change.onContent]
    split_ifs <;> rfl

/-- The attributes that a change does not name keep their values. -/
theorem get?_onContent {x : Change} {i : NodeId} {name : String} (h : x.names i name = false)
    (c : Content) :
    (x.onContent i c).element?.bind (·.get? name) = c.element?.bind (·.get? name) := by
  cases x with
  | setAttribute id n value =>
    rw [Change.onContent]
    split_ifs with hid
    · have hne : n ≠ name := by simpa [Change.names, hid] using h
      cases c with
      | element e => exact Attribute.find?_set_of_ne hne value e.attributes
      | _ => rfl
    · rfl
  | removeAttribute id n =>
    rw [Change.onContent]
    split_ifs with hid
    · have hne : n ≠ name := by simpa [Change.names, hid] using h
      cases c with
      | element e => exact Attribute.find?_erase_of_ne hne e.attributes
      | _ => rfl
    · rfl
  | _ => rfl

theorem attributeValue?_apply {x : Change} {i : NodeId} {name : String} (hi : i < d.size)
    (h : x.names i name = false) :
    (x.apply d).attributeValue? i name = d.attributeValue? i name := by
  obtain ⟨n, hn⟩ := exists_node hi
  have hcontent : d.content? i = some n.content := by
    rw [content?, hn]
    rfl
  simp only [attributeValue?, element?, content?_apply x hcontent, hcontent, Option.bind_some]
  exact get?_onContent h n.content

theorem wellFormed_apply_iff (hd : d.WellFormed) {x : Change} (hx : x.isAllowed d) :
    (x.apply d).WellFormed ↔ x.textsNext d = false := by
  cases x with
  | add c => exact iff_of_true (hd.add c) rfl
  | append p c =>
    simp only [Change.isAllowed, isDescendantOf, Bool.and_eq_true, bne_iff_ne, Bool.not_eq_true',
      ← Bool.not_eq_true, List.contains_iff_mem, hd.mem_ancestors_iff] at hx
    exact iff_of_true (hd.append hx.1 hx.2) rfl
  | removeChild p c => exact iff_of_true (hd.removeChild p c) rfl
  | detach id => exact iff_of_true (hd.detach id) rfl
  | setText id text =>
    refine (hd.setText_iff id text).trans ?_
    rw [Change.textsNext, ← Bool.not_eq_true, Bool.and_eq_true, beq_iff_eq, Bool.not_eq_true',
      ← Bool.not_eq_true, String.isEmpty_iff]
  | setAttribute id | removeAttribute id => exact iff_of_true (hd.modifyElement id _) rfl

/-! ## Many changes -/

theorem wellFormed_afterAll_iff (hd : d.WellFormed) {xs : List Change} (hxs : d.allAllowed xs) :
    (∀ ys, ys <+: xs → (d.afterAll ys).WellFormed) ↔ d.textsNext xs = false := by
  induction xs generalizing d with
  | nil =>
    refine iff_of_true (fun ys hys => ?_) rfl
    rw [List.prefix_nil.1 hys]
    exact hd
  | cons x xs ih =>
    rw [allAllowed, Bool.and_eq_true] at hxs
    have hstep := wellFormed_apply_iff hd hxs.1
    rw [textsNext, Bool.or_eq_false_iff, ← hstep]
    constructor
    · intro h
      have hx := h [x] (List.prefix_append [x] xs)
      exact ⟨hx, (ih hx hxs.2).1 fun ys hys => h (x :: ys) (List.cons_prefix_cons.2 ⟨rfl, hys⟩)⟩
    · rintro ⟨hx, hrest⟩ ys hys
      cases ys with
      | nil => exact hd
      | cons y ys =>
        obtain ⟨rfl, hprefix⟩ := List.cons_prefix_cons.1 hys
        exact (ih hx hxs.2).2 hrest ys hprefix

theorem size_le_afterAll (d : Dom) (xs : List Change) : d.size ≤ (d.afterAll xs).size := by
  induction xs generalizing d with
  | nil => exact Nat.le_refl _
  | cons x xs ih => exact (size_le_apply x).trans (ih (x.apply d))

theorem content?_afterAll (xs : List Change) {i : Nat} {c : Content} (h : d.content? i = some c) :
    (d.afterAll xs).content? i = some (xs.foldl (fun c x => x.onContent i c) c) := by
  induction xs generalizing d c with
  | nil => exact h
  | cons x xs ih => exact ih (content?_apply x h)

theorem attributeValue?_afterAll {xs : List Change} {i : NodeId} {name : String} (hi : i < d.size)
    (h : xs.any (·.names i name) = false) :
    (d.afterAll xs).attributeValue? i name = d.attributeValue? i name := by
  induction xs generalizing d with
  | nil => rfl
  | cons x xs ih =>
    rw [List.any_cons, Bool.or_eq_false_iff] at h
    exact (ih (Nat.lt_of_lt_of_le hi (size_le_apply x)) h.2).trans (attributeValue?_apply hi h.1)

/-- A history from the empty tree or from a tree that a text describes, in which no node is moved
below itself: the table stays well-formed and has no cycle at every moment if and only if no text is
given to the number of the next node. In any case no number goes, and of a node only the attributes
change that are set or removed. -/
theorem afterAll_wellFormed_iff (hd : d = .empty ∨ ∃ html, d = (Html.parse html).dom)
    {xs : List Change} (hxs : d.allAllowed xs) :
    ((∀ ys, ys <+: xs → (d.afterAll ys).WellFormed ∧ WellFounded (d.afterAll ys).IsParent) ↔
        d.textsNext xs = false) ∧
      ∀ ys zs, xs = ys ++ zs →
        (d.afterAll ys).size ≤ (d.afterAll xs).size ∧
        (∀ i c, (d.afterAll ys).content? i = some c →
          (d.afterAll xs).content? i = some (zs.foldl (fun c x => x.onContent i c) c)) ∧
        ∀ i name, i < (d.afterAll ys).size → zs.any (·.names i name) = false →
          (d.afterAll xs).attributeValue? i name = (d.afterAll ys).attributeValue? i name := by
  have hwell : d.WellFormed := by
    rcases hd with rfl | ⟨html, rfl⟩
    · exact .empty
    · exact (Html.tidy_parse html).wellFormed
  refine ⟨?_, ?_⟩
  · rw [← wellFormed_afterAll_iff hwell hxs]
    exact ⟨fun h ys hys => (h ys hys).1, fun h ys hys => ⟨h ys hys, (h ys hys).wellFounded⟩⟩
  · rintro ys zs rfl
    have hsplit : d.afterAll (ys ++ zs) = (d.afterAll ys).afterAll zs := List.foldl_append
    rw [hsplit]
    exact ⟨size_le_afterAll _ zs, fun i c => content?_afterAll zs,
      fun i name => attributeValue?_afterAll⟩

theorem afterAll_wellFormed_moved :
    Dom.empty.allAllowed [.add (.text "a"), .append 0 1, .setText 0 "b", .append 2 1] ∧
      (Dom.empty.afterAll
        [.add (.text "a"), .append 0 1, .setText 0 "b", .append 2 1]).WellFormed :=
  have allowed :
      Dom.empty.allAllowed [.add (.text "a"), .append 0 1, .setText 0 "b", .append 2 1] := by
    decide
  ⟨allowed, (((afterAll_wellFormed_iff (.inl rfl) allowed).1.2 (by decide)) _
    (List.prefix_refl _)).1⟩

/-- A text given to the number of the next node makes that node its own parent. -/
theorem afterAll_setText_next :
    Dom.empty.allAllowed [.setText 1 "a"] ∧
      (Dom.empty.afterAll [.setText 1 "a"]).parent? 1 = some 1 ∧
      ¬ (Dom.empty.afterAll [.setText 1 "a"]).WellFormed := by
  have hparent : (Dom.empty.afterAll [.setText 1 "a"]).parent? 1 = some 1 := by
    decide
  exact ⟨by decide, hparent, fun h => h.acyclic 1 (.single hparent)⟩

end Dom

end Restyle
