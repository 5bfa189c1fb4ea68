import ViewCompiler.Proofs.Template.Pieces
import ViewCompiler.Template.Document

/-!
# Documents as markup

The text of a document is one string. `Dialect.markup` is the same document with its tags kept
apart, each with the node that it is written for and with all its attributes, and `Markup.text`
writes it down. The two agree on every document of which the nodes exist (`Dialect.document_eq`), so
what is said of the elements of a document can be said of its markup.
-/

namespace ViewCompiler

/-- The start of an element. -/
structure Tag where
  /-- The node that the element is written for. -/
  node : NodeId
  name : String
  /-- All attributes, in the order in which they are written. -/
  attributes : List (String × String)
  deriving DecidableEq

/-- A part of a document. -/
inductive Markup where
  | opening (tag : Tag)
  /-- An element with nothing inside. -/
  | selfClosing (tag : Tag)
  | closing (name : String)
  | lines (l : List String)
  deriving DecidableEq

namespace Markup

def tag? : Markup → Option Tag
  | opening tag => some tag
  | selfClosing tag => some tag
  | _ => none

/-- The elements of a document. -/
def tags (l : List Markup) : List Tag := l.filterMap tag?

/-- The text of the start of an element. -/
def startTag (depth : Nat) (tag : Tag) (finish : String) : String :=
  let attributes := tag.attributes.map fun (name, value) =>
    "\n" ++ Xml.indent (depth + 1) ++ name ++ "=\"" ++ Xml.escape value ++ "\""
  Dialect.line depth ("<" ++ tag.name ++ String.join attributes ++ finish)

/-- Writes markup from a depth on. -/
def write : Nat → List Markup → String
  | _, [] => ""
  | depth, .opening tag :: r => startTag depth tag ">" ++ write (depth + 1) r
  | depth, .selfClosing tag :: r => startTag depth tag " />" ++ write depth r
  | depth, .closing name :: r =>
    Dialect.line (depth - 1) ("</" ++ name ++ ">") ++ write (depth - 1) r
  | depth, .lines l :: r => String.join (l.map (Dialect.line depth)) ++ write depth r

/-- The text of a document. -/
def text (l : List Markup) : String := Xml.declaration ++ "\n" ++ write 0 l

end Markup

/-- The node that is mentioned in a piece. -/
def Piece.mentioned? : Piece → Option NodeId
  | opening i => some i
  | selfClosing i => some i
  | closing i => some i
  | _ => none

namespace Dialect

/-- The start of a node's element. -/
def tag (d : Dialect) (t : NodeTree) (outermost : Bool) (n : Node) : Tag :=
  ⟨n.id, d.elementTag t n, d.writtenAttributes n outermost⟩

/-- The markup for a piece. -/
def markupOf (d : Dialect) (t : NodeTree) (outermost : Bool) : Piece → Option Markup
  | .opening i => (t.get? i).map fun n => .opening (d.tag t outermost n)
  | .selfClosing i => (t.get? i).map fun n => .selfClosing (d.tag t outermost n)
  | .closing i => (t.get? i).map fun n => .closing (d.elementTag t n)
  | .raw text => some (.lines (Text.lines text))
  | .slot place => some (.lines [place.marker])

/-- The markup for pieces; `outermost` until there has been an element. -/
def markup (d : Dialect) (t : NodeTree) : Bool → List Piece → List Markup
  | _, [] => []
  | outermost, p :: r =>
    (d.markupOf t outermost p).toList ++ d.markup t (outermost && p.node?.isNone) r

section

variable (d : Dialect) {t : NodeTree}

theorem write_eq {pieces : List Piece}
    (hlt : ∀ p ∈ pieces, ∀ i, p.mentioned? = some i → i < t.size) (depth : Nat) (outermost : Bool) :
    d.write t depth outermost pieces = Markup.write depth (d.markup t outermost pieces) := by
  induction pieces generalizing depth outermost with
  | nil => rfl
  | cons p r ih =>
    have hr := ih fun q hq ↦ hlt q (List.mem_cons_of_mem _ hq)
    have hp := hlt p List.mem_cons_self
    cases p with
    | opening i =>
      obtain ⟨n, hn⟩ := NodeTree.exists_get? (hp i rfl)
      simp only [write, markup, markupOf, hn, Option.map_some, Option.getD_some, Option.toList_some,
        Piece.node?, Option.isNone_some, Bool.and_false, hr]
      rfl
    | selfClosing i =>
      obtain ⟨n, hn⟩ := NodeTree.exists_get? (hp i rfl)
      simp only [write, markup, markupOf, hn, Option.map_some, Option.getD_some, Option.toList_some,
        Piece.node?, Option.isNone_some, Bool.and_false, hr]
      rfl
    | closing i =>
      obtain ⟨n, hn⟩ := NodeTree.exists_get? (hp i rfl)
      simp only [write, markup, markupOf, hn, Option.map_some, Option.getD_some, Option.toList_some,
        Piece.node?, Option.isNone_none, Bool.and_true, hr]
      rfl
    | raw text =>
      simp only [write, markup, markupOf, Option.toList_some, Piece.node?, Option.isNone_none,
        Bool.and_true, hr]
      rfl
    | slot place =>
      simp only [write, markup, markupOf, Option.toList_some, Piece.node?, Option.isNone_none,
        Bool.and_true, hr, List.singleton_append, Markup.write, List.map_singleton]
      simp

/-- **The text of a document is that of its markup.** -/
theorem document_eq {pieces : List Piece}
    (hlt : ∀ p ∈ pieces, ∀ i, p.mentioned? = some i → i < t.size) :
    d.document t pieces = Markup.text (d.markup t true pieces) := by
  rw [document, Markup.text, d.write_eq hlt]

theorem tag?_markupOf (outermost : Bool) (p : Piece) :
    (d.markupOf t outermost p).bind Markup.tag? =
      (p.node?.bind t.get?).map (d.tag t outermost) := by
  cases p with
  | opening i =>
    rw [markupOf, Piece.node?, Option.bind_some]
    cases t.get? i <;> rfl
  | selfClosing i =>
    rw [markupOf, Piece.node?, Option.bind_some]
    cases t.get? i <;> rfl
  | closing i =>
    rw [markupOf]
    cases t.get? i <;> rfl
  | raw text => rfl
  | slot place => rfl

theorem tags_markup_cons (outermost : Bool) (p : Piece) (r : List Piece) :
    Markup.tags (d.markup t outermost (p :: r)) =
      ((p.node?.bind t.get?).map (d.tag t outermost)).toList ++
        Markup.tags (d.markup t (outermost && p.node?.isNone) r) := by
  rw [markup, Markup.tags, List.filterMap_append, ← d.tag?_markupOf]
  cases d.markupOf t outermost p with
  | none => rfl
  | some m => cases h : m.tag? <;> simp [h, Markup.tags]

/-- **The elements are those of the nodes**, in their order. -/
theorem map_node_tags {pieces : List Piece} (outermost : Bool)
    (hlt : ∀ i ∈ pieces.filterMap Piece.node?, i < t.size) :
    (Markup.tags (d.markup t outermost pieces)).map Tag.node = pieces.filterMap Piece.node? := by
  induction pieces generalizing outermost with
  | nil => rfl
  | cons p r ih =>
    rw [tags_markup_cons, List.map_append]
    cases hp : p.node? with
    | none =>
      rw [List.filterMap_cons_none hp] at hlt ⊢
      rw [ih _ hlt]
      rfl
    | some i =>
      rw [List.filterMap_cons_some hp] at hlt ⊢
      obtain ⟨n, hn⟩ := NodeTree.exists_get? (hlt i List.mem_cons_self)
      rw [ih _ fun j hj ↦ hlt j (List.mem_cons_of_mem _ hj), Option.bind_some, hn]
      exact congrArg (· :: _) (NodeTree.id_of_get? hn)

/-- **Every element is that of a node**, and every node that begins with a piece has an element. -/
theorem mem_tags_markup {pieces : List Piece} {outermost : Bool} {g : Tag}
    (h : g ∈ Markup.tags (d.markup t outermost pieces)) :
    ∃ i ∈ pieces.filterMap Piece.node?, ∃ n, t.get? i = some n ∧ ∃ first, g = d.tag t first n := by
  induction pieces generalizing outermost with
  | nil => exact absurd h List.not_mem_nil
  | cons p r ih =>
    rw [tags_markup_cons, List.mem_append] at h
    rcases h with h | h
    · obtain ⟨n, hn, rfl⟩ := Option.map_eq_some_iff.1 (Option.mem_toList.1 h)
      obtain ⟨i, hi, hget⟩ := Option.bind_eq_some_iff.1 hn
      exact ⟨i, List.mem_filterMap.2 ⟨p, List.mem_cons_self, hi⟩, n, hget, outermost, rfl⟩
    · obtain ⟨i, hi, hg⟩ := ih h
      obtain ⟨q, hq, hnode⟩ := List.mem_filterMap.1 hi
      exact ⟨i, List.mem_filterMap.2 ⟨q, List.mem_cons_of_mem _ hq, hnode⟩, hg⟩

theorem exists_tag {pieces : List Piece} (outermost : Bool) {i : NodeId}
    (hi : i ∈ pieces.filterMap Piece.node?) {n : Node} (hn : t.get? i = some n) :
    ∃ first, d.tag t first n ∈ Markup.tags (d.markup t outermost pieces) := by
  obtain ⟨p, hp, hnode⟩ := List.mem_filterMap.1 hi
  induction pieces generalizing outermost with
  | nil => exact absurd hp List.not_mem_nil
  | cons q r ih =>
    rw [tags_markup_cons]
    rcases List.mem_cons.1 hp with rfl | hp
    · refine ⟨outermost, List.mem_append_left _ ?_⟩
      rw [hnode, Option.bind_some, hn]
      exact List.mem_singleton_self _
    · obtain ⟨first, hmem⟩ := ih (outermost && q.node?.isNone)
        (List.mem_filterMap.2 ⟨p, hp, hnode⟩) hp
      exact ⟨first, List.mem_append_right _ hmem⟩

end

end Dialect

/-- Parts of two documents that are the same but for their tags, which are related. -/
inductive Markup.Like (R : Tag → Tag → Prop) : Markup → Markup → Prop
  | opening {g g' : Tag} (tags : R g g') : Like R (.opening g) (.opening g')
  | selfClosing {g g' : Tag} (tags : R g g') : Like R (.selfClosing g) (.selfClosing g')
  | closing (name : String) : Like R (.closing name) (.closing name)
  | lines (l : List String) : Like R (.lines l) (.lines l)

/-- **The same pieces with different trees** make the same document but for the tags. -/
theorem Dialect.like_markup (d : Dialect) {t t' : NodeTree} {R : Tag → Tag → Prop}
    {pieces : List Piece}
    (h : ∀ p ∈ pieces, ∀ i, p.mentioned? = some i → ∃ n n', t.get? i = some n ∧
      t'.get? i = some n' ∧ d.elementTag t n = d.elementTag t' n' ∧
      ∀ outermost, R (d.tag t outermost n) (d.tag t' outermost n')) (outermost : Bool) :
    List.Forall₂ (Markup.Like R) (d.markup t outermost pieces) (d.markup t' outermost pieces) := by
  induction pieces generalizing outermost with
  | nil => exact .nil
  | cons p r ih =>
    refine List.rel_append ?_ (ih (fun q hq ↦ h q (List.mem_cons_of_mem _ hq)) _)
    have hp := h p List.mem_cons_self
    cases p with
    | opening i =>
      obtain ⟨n, n', hn, hn', -, htag⟩ := hp i rfl
      rw [markupOf, markupOf, hn, hn']
      exact .cons (.opening (htag outermost)) .nil
    | selfClosing i =>
      obtain ⟨n, n', hn, hn', -, htag⟩ := hp i rfl
      rw [markupOf, markupOf, hn, hn']
      exact .cons (.selfClosing (htag outermost)) .nil
    | closing i =>
      obtain ⟨n, n', hn, hn', hname, -⟩ := hp i rfl
      rw [markupOf, markupOf, hn, hn', Option.map_some, Option.map_some, hname]
      exact .cons (.closing _) .nil
    | raw text => exact .cons (.lines _) .nil
    | slot place => exact .cons (.lines _) .nil

/-! ### Outlines -/

namespace Outline

variable {texts : SortedMap NodeId String} (hnone : ∀ i, texts.get? i = none)

include hnone

/-- The pieces of an outline mention its nodes only. -/
theorem mem_ids_of_mentioned {o : Outline} {p : Piece} (hp : p ∈ o.pieces texts) {i : NodeId}
    (hi : p.mentioned? = some i) : i ∈ o.ids := by
  induction o using Outline.induction with
  | h j below ih =>
    rw [pieces, hnone] at hp
    dsimp only at hp
    rw [ids_node, List.mem_cons, List.mem_flatMap]
    split at hp
    · rw [List.mem_singleton.1 hp] at hi
      exact .inl (Option.some.inj hi).symm
    · rw [List.mem_append, List.mem_cons, List.mem_flatMap, List.mem_singleton] at hp
      rcases hp with (rfl | ⟨b, hb, hp⟩) | rfl
      · exact .inl (Option.some.inj hi).symm
      · exact .inr ⟨b, hb, ih b hb hp⟩
      · exact .inl (Option.some.inj hi).symm

/-- Every piece mentions a node. -/
theorem exists_mentioned {o : Outline} {p : Piece} (hp : p ∈ o.pieces texts) :
    ∃ i, p.mentioned? = some i := by
  induction o using Outline.induction with
  | h j below ih =>
    rw [pieces, hnone] at hp
    dsimp only at hp
    split at hp
    · exact ⟨j, by rw [List.mem_singleton.1 hp]; rfl⟩
    · rw [List.mem_append, List.mem_cons, List.mem_flatMap, List.mem_singleton] at hp
      rcases hp with (rfl | ⟨b, hb, hp⟩) | rfl
      · exact ⟨j, rfl⟩
      · exact ih b hb hp
      · exact ⟨j, rfl⟩

theorem textual (t : NodeTree) : Textual t texts :=
  ⟨fun i s h ↦ absurd ((hnone i).symm.trans h) (by simp),
    fun i s h ↦ absurd ((hnone i).symm.trans h) (by simp)⟩

/-- Without replaced nodes, all nodes of an outline are in its pieces. -/
theorem nodes_eq_ids {t : NodeTree} {o : Outline} (ho : o.Follows t.order) :
    (o.pieces texts).filterMap Piece.node? = o.ids := by
  rw [nodes_pieces (textual hnone t) ho]
  exact List.filter_eq_self.2 fun i _ ↦ by rw [hnone]; rfl

end Outline

end ViewCompiler
