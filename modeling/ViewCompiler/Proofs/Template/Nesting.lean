import ViewCompiler.Proofs.Template.Pieces
import ViewCompiler.Template.Document

/-!
# Documents of nested elements

A document is written from a flat list of pieces. All that is kept from one piece to the next is
how many elements are open and whether there has been an element at all. If the pieces are those of
a tree of elements, the text is nested as the tree is (`Dialect.document_nested`): each element is
written at its depth in the tree, with what is inside it between its two tags, and the attributes
of the outermost element are on that element only.

The induction is on the tree, and what is written after the element stays general: a depth is the
same after an element as before (`Dialect.write_pieces`).

The number of open elements is cut off at zero. That this is never needed is said of the pieces
alone: no part at the front of them closes more than it opens, and in all they close as much as
they open (`Piece.Balanced`). A list with the first property brings the depth to the difference of
the two numbers (`Piece.Ahead.foldl_levelAfter`).
-/

namespace ViewCompiler

/-- A tree of elements for nodes with numbers below `size`. An element with nothing inside may also
have two tags. -/
inductive ElementTree (size : Nat) where
  | closed (node : Fin size)
  | nested (node : Fin size) (inside : List (ElementTree size))

namespace ElementTree

variable {size : Nat}

/-- Induction on a tree of elements, with the hypothesis for all elements inside. -/
theorem induction {P : ElementTree size → Prop} (hclosed : ∀ i, P (closed i))
    (hnested : ∀ i inside, (∀ e ∈ inside, P e) → P (nested i inside)) : ∀ e, P e
  | closed i => hclosed i
  | nested i inside => hnested i inside fun e _ ↦ induction hclosed hnested e

/-- The pieces of an element: one, or two around those of what is inside. -/
def pieces : ElementTree size → List Piece
  | closed i => [.selfClosing i]
  | nested i inside => .opening i :: (inside.flatMap pieces ++ [.closing i])

theorem pieces_nested (i : Fin size) (inside : List (ElementTree size)) :
    (nested i inside).pieces = .opening i :: (inside.flatMap pieces ++ [.closing i]) := by
  rw [pieces]

/-- A piece for the element comes first. -/
theorem exists_pieces (e : ElementTree size) : ∃ p r, e.pieces = p :: r ∧ p.node? ≠ none := by
  cases e with
  | closed i => exact ⟨_, _, by rw [pieces], by simp [Piece.node?]⟩
  | nested i inside => exact ⟨_, _, pieces_nested i inside, by simp [Piece.node?]⟩

end ElementTree

/-! ### Open elements -/

namespace Piece

def isOpening : Piece → Bool
  | opening _ => true
  | _ => false

def isClosing : Piece → Bool
  | closing _ => true
  | _ => false

/-- How many elements some pieces open. -/
def openings (l : List Piece) : Nat := l.countP isOpening

/-- How many elements some pieces close. -/
def closings (l : List Piece) : Nat := l.countP isClosing

theorem openings_append (l r : List Piece) : openings (l ++ r) = openings l + openings r :=
  List.countP_append

theorem closings_append (l r : List Piece) : closings (l ++ r) = closings l + closings r :=
  List.countP_append

theorem openings_opening (i : NodeId) (l : List Piece) :
    openings (.opening i :: l) = openings l + 1 :=
  List.countP_cons_of_pos rfl

/-- No part at the front closes more elements than it opens. -/
def Ahead (l : List Piece) : Prop :=
  ∀ before after, l = before ++ after → closings before ≤ openings before

/-- **Elements are opened before they are closed**, and in the end none is open. -/
structure Balanced (l : List Piece) : Prop where
  ahead : Ahead l
  even : closings l = openings l

namespace Balanced

variable {l r : List Piece}

theorem nil : Balanced [] := by
  refine ⟨fun before after h ↦ ?_, rfl⟩
  obtain ⟨rfl, -⟩ := List.append_eq_nil_iff.1 h.symm
  exact Nat.le_refl _

theorem selfClosing (i : NodeId) : Balanced [.selfClosing i] := by
  refine ⟨fun before after h ↦ ?_, rfl⟩
  rcases List.singleton_eq_append_iff.1 h with ⟨rfl, -⟩ | ⟨rfl, -⟩ <;> exact Nat.le_refl _

theorem append (h : Balanced l) (hr : Balanced r) : Balanced (l ++ r) where
  ahead before after heq := by
    rcases List.append_eq_append_iff.1 heq with ⟨more, rfl, hmore⟩ | ⟨more, hmore, -⟩
    · have hlast := hr.ahead more after hmore
      have heven := h.even
      rw [closings_append, openings_append]
      omega
    · exact h.ahead before more hmore
  even := by rw [closings_append, openings_append, h.even, hr.even]

/-- **Two tags around pieces.** -/
theorem around (h : Balanced l) (i j : NodeId) :
    Balanced (.opening i :: (l ++ [.closing j])) where
  ahead before after heq := by
    rcases List.cons_eq_append_iff.1 heq with ⟨rfl, -⟩ | ⟨inner, rfl, hinner⟩
    · exact Nat.le_refl _
    show closings inner ≤ _
    rw [openings_opening]
    rcases List.append_eq_append_iff.1 hinner with ⟨more, rfl, hmore⟩ | ⟨more, hmore, -⟩
    · -- all that is inside is here, and at most the end tag
      have hlast : closings more ≤ 1 := by
        have hle : closings more ≤ closings [.closing j] := by
          rw [hmore, closings_append]
          exact Nat.le_add_right _ _
        exact hle
      have heven := h.even
      rw [closings_append, openings_append]
      omega
    · exact Nat.le_succ_of_le (h.ahead inner more hmore)
  even := by
    show closings (l ++ [.closing j]) = _
    rw [openings_opening, closings_append, openings_append, h.even]
    rfl

theorem flatMap {α : Type} {f : α → List Piece} {as : List α} (h : ∀ a ∈ as, Balanced (f a)) :
    Balanced (as.flatMap f) := by
  induction as with
  | nil => exact nil
  | cons a as ih =>
    rw [List.flatMap_cons]
    exact (h a List.mem_cons_self).append (ih fun b hb ↦ h b (List.mem_cons_of_mem _ hb))

end Balanced

/-- The number of open elements after a piece, as the writer counts. -/
def levelAfter (depth : Nat) : Piece → Nat
  | opening _ => depth + 1
  | closing _ => depth - 1
  | _ => depth

/-- **The count is never cut off.** -/
theorem Ahead.foldl_levelAfter {l : List Piece} (h : Ahead l) :
    l.foldl levelAfter 0 + closings l = openings l := by
  induction l using List.reverseRecOn with
  | nil => rfl
  | append_singleton l p ih =>
    have hl : l.foldl levelAfter 0 + closings l = openings l := ih fun before after heq ↦
      h before (after ++ [p]) (by rw [heq, List.append_assoc])
    have hle := h (l ++ [p]) [] (List.append_nil _).symm
    rw [closings_append, openings_append] at hle ⊢
    rw [List.foldl_append]
    cases p with
    | opening i =>
      show l.foldl levelAfter 0 + 1 + (closings l + 0) = openings l + 1
      omega
    | closing i =>
      have hlt : closings l + 1 ≤ openings l + 0 := hle
      show l.foldl levelAfter 0 - 1 + (closings l + 1) = openings l + 0
      omega
    | selfClosing i => exact hl
    | slot place => exact hl
    | raw text => exact hl

end Piece

theorem ElementTree.balanced_pieces {size : Nat} (e : ElementTree size) :
    Piece.Balanced e.pieces := by
  induction e using ElementTree.induction with
  | hclosed i =>
    rw [pieces]
    exact .selfClosing i
  | hnested i inside ih =>
    rw [pieces_nested]
    exact (Piece.Balanced.flatMap ih).around i i

/-! ### Nested text -/

/-- The node with a number that there is. -/
def NodeTree.nodeAt (t : NodeTree) (i : Fin t.size) : Node :=
  (t.get? i).get (by rw [Option.isSome_iff_ne_none, Ne, get?_eq_none_iff]; exact Nat.not_le.2 i.2)

theorem NodeTree.get?_nodeAt (t : NodeTree) (i : Fin t.size) : t.get? i = some (t.nodeAt i) :=
  (Option.some_get _).symm

namespace Dialect

variable (d : Dialect) (t : NodeTree)

/-- An attribute on a line of its own. -/
def attributeText (depth : Nat) (a : String × String) : String :=
  "\n" ++ Xml.indent depth ++ a.1 ++ "=\"" ++ Xml.escape a.2 ++ "\""

/-- The start of an element without its end: the name, then `first` attributes, the reference to
its style, and its own attributes in the order of their names. -/
def headText (depth : Nat) (first : List (String × String)) (n : Node) : String :=
  Xml.indent depth ++ "<" ++ d.elementTag t n ++
    String.join (first.map (attributeText (depth + 1))) ++
    n.styleRef.elim "" (fun style ↦
      attributeText (depth + 1) (d.styleAttribute, "@style/" ++ style)) ++
    String.join (n.attributes.entries.map (attributeText (depth + 1)))

/-- **The text of a tree of elements** at a depth, of which the outermost one has the attributes
`first`. -/
def nestedText (depth : Nat) (first : List (String × String)) : ElementTree t.size → String
  | .closed i => d.headText t depth first (t.nodeAt i) ++ " />\n"
  | .nested i inside =>
    d.headText t depth first (t.nodeAt i) ++ ">\n" ++
      String.join (inside.map (nestedText (depth + 1) [])) ++
      Xml.indent depth ++ "</" ++ d.elementTag t (t.nodeAt i) ++ ">\n"

theorem startTag_eq (depth : Nat) (outermost : Bool) (n : Node) (finish : String) :
    d.startTag t depth outermost n finish =
      d.headText t depth (if outermost then d.rootAttributes else []) n ++ finish ++ "\n" := by
  have hstyle : String.join ((n.styleRef.toList.map fun style ↦
      (d.styleAttribute, "@style/" ++ style)).map (attributeText (depth + 1))) =
      n.styleRef.elim "" fun style ↦
        attributeText (depth + 1) (d.styleAttribute, "@style/" ++ style) := by
    cases n.styleRef with
    | none => rfl
    | some style => simp
  show line depth ("<" ++ d.elementTag t n ++
    String.join ((d.writtenAttributes n outermost).map (attributeText (depth + 1))) ++ finish) = _
  rw [writtenAttributes, List.map_append, List.map_append, String.join_append, String.join_append,
    hstyle, headText, line]
  simp only [String.append_assoc]

variable {t}

/-- **The pieces of an element are written as the element is**, and what follows is written at the
same depth. -/
theorem write_pieces (e : ElementTree t.size) (depth : Nat) (outermost : Bool) (r : List Piece) :
    d.write t depth outermost (e.pieces ++ r) =
      d.nestedText t depth (if outermost then d.rootAttributes else []) e ++
        d.write t depth false r := by
  induction e using ElementTree.induction generalizing depth outermost r with
  | hclosed i =>
    rw [ElementTree.pieces, List.singleton_append, write, t.get?_nodeAt, nestedText, Option.map_some,
      Option.getD_some, startTag_eq]
    simp only [String.append_assoc]
    rfl
  | hnested i inside ih =>
    have hinside : ∀ es ⊆ inside, ∀ r, d.write t (depth + 1) false
        (es.flatMap ElementTree.pieces ++ r) =
          String.join (es.map (d.nestedText t (depth + 1) [])) ++ d.write t (depth + 1) false r := by
      intro es hes r
      induction es with
      | nil => simp
      | cons e es ihes =>
        obtain ⟨he, hes⟩ := List.cons_subset.1 hes
        rw [List.flatMap_cons, List.append_assoc, ih e he, ihes hes, List.map_cons,
          String.join_cons, String.append_assoc]
        rfl
    rw [ElementTree.pieces_nested, List.cons_append, List.append_assoc, write,
      hinside inside (List.Subset.refl _), List.singleton_append, write, t.get?_nodeAt, nestedText,
      Option.map_some, Option.getD_some, Option.map_some, Option.getD_some, startTag_eq, line,
      Nat.add_sub_cancel]
    simp only [String.append_assoc]
    rfl

/-- **What has been written is left behind**: the rest depends on the number of open elements, and
on whether there has been one. -/
theorem write_append (before after : List Piece) (depth : Nat) (outermost : Bool) :
    d.write t depth outermost (before ++ after) = d.write t depth outermost before ++
      d.write t (before.foldl Piece.levelAfter depth)
        (outermost && before.all fun p ↦ p.node?.isNone) after := by
  induction before generalizing depth outermost with
  | nil => simp [write]
  | cons p r ih =>
    cases p <;> simp [write, ih, Piece.levelAfter, Piece.node?, String.append_assoc]

/-- **The text of a tree of elements is nested as the tree is.** Wherever the pieces are cut, the
rest of them is written with as many open elements as have been opened and not been closed, and in
the end there is none. -/
theorem document_nested (t : NodeTree) (e : ElementTree t.size) :
    d.document t e.pieces = Xml.declaration ++ "\n" ++ d.nestedText t 0 d.rootAttributes e ∧
      (∀ before after, e.pieces = before ++ after →
        Piece.closings before ≤ Piece.openings before ∧
        d.write t 0 true e.pieces = d.write t 0 true before ++
          d.write t (Piece.openings before - Piece.closings before) before.isEmpty after) ∧
      Piece.closings e.pieces = Piece.openings e.pieces := by
  have hbalanced := e.balanced_pieces
  refine ⟨?_, fun before after heq ↦ ⟨hbalanced.ahead before after heq, ?_⟩, hbalanced.even⟩
  · have hwrite := d.write_pieces e 0 true []
    rw [List.append_nil, write, String.append_empty] at hwrite
    rw [document, hwrite]
    rfl
  · have hahead : Piece.Ahead before := fun front more hfront ↦
      hbalanced.ahead front (more ++ after) (by rw [heq, hfront, List.append_assoc])
    have hlevel := hahead.foldl_levelAfter
    have houter : (before.all fun p ↦ p.node?.isNone) = before.isEmpty := by
      obtain - | ⟨q, front⟩ := before
      · rfl
      · obtain ⟨p, r, hpieces, hnode⟩ := e.exists_pieces
        obtain ⟨rfl, -⟩ := List.cons.inj (hpieces.symm.trans heq)
        simp [Option.isNone_iff_eq_none, hnode]
    rw [heq, write_append, Bool.true_and, houter, ← hlevel, Nat.add_sub_cancel]

end Dialect

end ViewCompiler
