import Mathlib.Data.List.Find
import ViewCompiler.Android
import ViewCompiler.Proofs.Layout.Renumbered
import ViewCompiler.Proofs.Template.Markup

/-!
# Views under other numbers

The number of a node is part of the name of its view only if another view refers to it. So the
attributes and the element name of a node are the same in a tree that holds it under another number,
where such nodes keep theirs (`Android.attributes_renumbered`, `Android.elementTag_renumbered`).
-/

namespace ViewCompiler

open NodeTree

namespace Android

variable {slug : String → String}

/-- Whether a node is in a container that aligns its members on a baseline. -/
def isAligned (t : NodeTree) (n : Node) : Bool :=
  (n.renderParent.bind t.get?).any fun p ↦ p.container == .relative

/-- Whether a node has a label. -/
def isLabelled (t : NodeTree) (n : Node) : Bool :=
  t.toList.any fun other ↦ other.companion == some n.id

theorem viewName?_eq (t : NodeTree) (n : Node) :
    viewName? slug t n = ((n.source? "id").bind (idName? slug)).or
      (if isAligned t n || isLabelled t n then some ("view_" ++ toString n.id) else none) := by
  unfold viewName? isAligned isLabelled
  cases (n.source? "id").bind (idName? slug) with
  | some name => rfl
  | none => cases n.renderParent.bind t.get? <;> rfl

/-- The member in front of another one. -/
def previousIn (members : List NodeId) (i : NodeId) : Option NodeId :=
  (members.idxOf? i).bind fun k ↦ if k = 0 then none else members[k - 1]?

theorem previousIn_map {f : NodeId → NodeId} (hf : Function.Injective f) (members : List NodeId)
    (i : NodeId) : previousIn (members.map f) (f i) = (previousIn members i).map f := by
  have hindex : (members.map f).idxOf? (f i) = members.idxOf? i := by
    rw [List.idxOf?, List.idxOf?, List.findIdx?_map]
    refine congrArg (List.findIdx? · members) (funext fun j ↦ ?_)
    simp [hf.eq_iff]
  rw [previousIn, previousIn, hindex]
  cases members.idxOf? i with
  | none => rfl
  | some k =>
    rw [Option.bind_some, Option.bind_some, List.getElem?_map]
    split <;> rfl

theorem mem_of_previousIn {members : List NodeId} {i j : NodeId}
    (hj : previousIn members i = some j) : j ∈ members := by
  obtain ⟨k, -, hk⟩ := Option.bind_eq_some_iff.1 hj
  split at hk
  · exact absurd hk (by simp)
  · exact List.mem_of_getElem? hk

/-- The member whose baseline another one follows. -/
def anchorIn (t : NodeTree) (members : List NodeId) (i : NodeId) : Option NodeId :=
  (members.find? fun j ↦ (t.get? j).any fun m ↦ m.flags.contains .baselineAnchor).filter
    fun j ↦ j ≠ i

theorem mem_of_anchorIn {t : NodeTree} {members : List NodeId} {i j : NodeId}
    (hj : anchorIn t members i = some j) : j ∈ members :=
  List.mem_of_find?_eq_some (Option.filter_eq_some_iff.1 hj).1

theorem alignment_eq {t : NodeTree} {p : Node} {members : List NodeId}
    (hmembers : t.renderOrder p.id = .ok members) (n : Node) :
    alignment slug t n p = view slug t "layout_toEndOf" (previousIn members n.id) ++
      view slug t "layout_alignBaseline" (anchorIn t members n.id) := by
  unfold alignment
  dsimp only
  rw [hmembers]
  rfl

variable {f : NodeId → NodeId} {t t' : NodeTree} (h : Renumbered f t t')

include h

/-- What a node renders in. -/
theorem parent_cases {i : NodeId} {m : Node} (hm : t.get? i = some m) (depth : Nat) :
    (m.renderParent.bind t.get? = none ∧
        (m.moved f depth).renderParent.bind t'.get? = none) ∨
      ∃ p depth', m.renderParent.bind t.get? = some p ∧ t.get? p.id = some p ∧
        (m.moved f depth).renderParent.bind t'.get? = some (p.moved f depth') := by
  have hlink : (m.moved f depth).renderParent = m.renderParent.map f := rfl
  rw [hlink]
  cases hparent : m.renderParent with
  | none => exact .inl ⟨rfl, rfl⟩
  | some q =>
    have hq : t.renderParent? i = some q := by
      rw [renderParent?, place_of_get? hm, Node.place, hparent]
    obtain ⟨p, hp⟩ := exists_get? (h.parents i q hq)
    obtain ⟨depth', hp'⟩ := h.nodes q p hp
    exact .inr ⟨p, depth', hp, id_of_get? hp ▸ hp, hp'⟩

/-- A node that is named after its number keeps it. -/
theorem id_eq_of_named {m : Node} (hm : t.get? m.id = some m)
    (hnamed : (isAligned t m || isLabelled t m) = true) : f m.id = m.id := by
  rcases Bool.or_eq_true_iff.1 hnamed with haligned | hlabelled
  · obtain ⟨p, hp, hcontainer⟩ := (Option.any_eq_true _ _).1 haligned
    obtain ⟨q, hq, hp⟩ := Option.bind_eq_some_iff.1 hp
    refine h.aligned m.id q ?_ ?_
    · rw [renderParent?, place_of_get? hm, Node.place, hq]
    · rw [container?, hp, Option.map_some, beq_iff_eq.1 hcontainer]
  · obtain ⟨other, hother, hlabel⟩ := List.any_eq_true.1 hlabelled
    obtain ⟨j, hj⟩ := List.mem_iff_getElem?.1 hother
    exact (h.companions j other m.id ((Array.getElem?_toList ..).symm.trans hj)
      (beq_iff_eq.1 hlabel)).2

/-- **The name of a view.** -/
theorem viewName?_renumbered {i : NodeId} {m : Node} (hm : t.get? i = some m) (depth : Nat) :
    viewName? slug t' (m.moved f depth) = viewName? slug t m := by
  obtain rfl := id_of_get? hm
  have haligned : isAligned t' (m.moved f depth) = isAligned t m := by
    rw [isAligned, isAligned]
    rcases parent_cases h hm depth with ⟨hnone, hnone'⟩ | ⟨p, depth', hp, -, hp'⟩
    · rw [hnone, hnone']
    · rw [hp, hp']
      rfl
  have hlabelled : isLabelled t' (m.moved f depth) = isLabelled t m :=
    h.any_companion (lt_size_of_get? hm)
  rw [viewName?_eq, viewName?_eq, haligned, hlabelled]
  cases hnamed : isAligned t m || isLabelled t m with
  | false => rfl
  | true =>
    rw [show (m.moved f depth).id = m.id from id_eq_of_named h hm hnamed]
    rfl

/-- **A reference to a view.** -/
theorem view_renumbered (slug : String → String) (name : String) {target : Option NodeId}
    (hlt : ∀ i, target = some i → i < t.size) :
    view slug t' name (target.map f) = view slug t name target := by
  cases target with
  | none => rfl
  | some i =>
    obtain ⟨m, hm⟩ := exists_get? (hlt i rfl)
    obtain ⟨depth, hm'⟩ := h.nodes i m hm
    rw [view, view, Option.map_some, Option.bind_some, Option.bind_some, hm, hm', Option.bind_some,
      Option.bind_some, viewName?_renumbered h hm]

theorem anchorIn_renumbered {members : List NodeId} (hmembers : ∀ i ∈ members, i < t.size)
    (i : NodeId) : anchorIn t' (members.map f) (f i) = (anchorIn t members i).map f := by
  have hanchor : ∀ j ∈ members,
      ((t'.get? (f j)).any fun m ↦ m.flags.contains .baselineAnchor) =
        (t.get? j).any fun m ↦ m.flags.contains .baselineAnchor := fun j hj ↦ by
    obtain ⟨m, hm⟩ := exists_get? (hmembers j hj)
    obtain ⟨depth, hm'⟩ := h.nodes j m hm
    rw [hm, hm']
    rfl
  have hother : ((fun j ↦ decide (j ≠ f i)) ∘ f) = fun j ↦ decide (j ≠ i) := funext fun j ↦
    decide_eq_decide.2 h.injective.ne_iff
  have hfind : members.find? ((fun j ↦ (t'.get? j).any fun m ↦
      m.flags.contains .baselineAnchor) ∘ f) = members.find? fun j ↦ (t.get? j).any fun m ↦
        m.flags.contains .baselineAnchor := List.find?_congr hanchor
  rw [anchorIn, anchorIn, List.find?_map, Option.filter_map, hother, hfind]

/-- **How a member is tied to its siblings.** -/
theorem alignment_renumbered {m p : Node} (hp : t.get? p.id = some p) (depth depth' : Nat) :
    alignment slug t' (m.moved f depth) (p.moved f depth') = alignment slug t m p := by
  have hlt := lt_size_of_get? hp
  have hmembers : ∀ i ∈ t.order p.id, i < t.size := fun i hi ↦ h.members p.id i (mem_order.1 hi)
  have horder : t.renderOrder p.id = .ok (t.order p.id) := renderOrder_eq hlt
  have horder' : t'.renderOrder (p.moved f depth').id = .ok ((t.order p.id).map f) :=
    (h.renderOrder hlt).trans (congrArg (Except.map (List.map f)) horder)
  rw [alignment_eq horder, alignment_eq horder', show (m.moved f depth).id = f m.id from rfl,
    previousIn_map h.injective, anchorIn_renumbered h hmembers,
    view_renumbered h slug _ fun i hi ↦ hmembers i (mem_of_previousIn hi),
    view_renumbered h slug _ fun i hi ↦ hmembers i (mem_of_anchorIn hi)]

variable (s : Screen)

/-- **What its container needs to know of a member.** -/
theorem placement_renumbered {m p : Node} (hp : t.get? p.id = some p) (depth depth' : Nat) :
    placement slug s t' (m.moved f depth) (p.moved f depth') = placement slug s t m p := by
  rw [placement, placement, alignment_renumbered h hp]
  rfl

/-- **The attributes of a node** with its record. -/
theorem nodeAttributes_renumbered {i : NodeId} {m : Node} (hm : t.get? i = some m) (depth : Nat) :
    nodeAttributes slug s t' (m.moved f depth) = nodeAttributes slug s t m := by
  have hlt := lt_size_of_get? hm
  have hid : m.id = i := id_of_get? hm
  have hleaf : ((t'.renderOrder (m.moved f depth).id).toOption.getD []).isEmpty =
      ((t.renderOrder m.id).toOption.getD []).isEmpty := by
    rw [show (m.moved f depth).id = f m.id from rfl, hid, h.renderOrder hlt, renderOrder_eq hlt]
    exact List.isEmpty_map
  have hlabel : view slug t' "labelFor" (m.moved f depth).companion =
      view slug t "labelFor" m.companion := by
    have hlabel := view_renumbered h slug "labelFor" fun j hj ↦
      (h.companions i m j hm hj).1
    rwa [show m.companion.map f = m.companion from ?_] at hlabel
    cases hcompanion : m.companion with
    | none => rfl
    | some j => exact congrArg some (h.companions i m j hm hcompanion).2
  rw [nodeAttributes, nodeAttributes, viewName?_renumbered h hm, hleaf, hlabel]
  -- nothing else looks at numbers, but for what the node renders in
  rcases parent_cases h hm depth with ⟨hnone, hnone'⟩ | ⟨p, depth', hp, hp', hmoved⟩
  · rw [hnone, hnone']
    rfl
  · rw [hp, hmoved]
    simp only [Option.toList_some, List.flatMap_cons, List.flatMap_nil,
      placement_renumbered h s hp']
    rfl

/-- **The attributes of a node** are the same under another number. -/
theorem attributes_renumbered {i : NodeId} (hi : i < t.size) :
    attributes slug s t' (f i) = attributes slug s t i := by
  obtain ⟨m, hm⟩ := exists_get? hi
  obtain ⟨depth, hm'⟩ := h.nodes i m hm
  rw [attributes, attributes, hm, hm']
  exact nodeAttributes_renumbered h s hm depth

/-- And so is its element name. -/
theorem elementTag_renumbered {i : NodeId} {m : Node} (hm : t.get? i = some m) (depth : Nat) :
    (dialect slug s).elementTag t' (m.moved f depth) = (dialect slug s).elementTag t m := by
  obtain rfl := id_of_get? hm
  have hlt := lt_size_of_get? hm
  rw [Dialect.elementTag, Dialect.elementTag, show (m.moved f depth).id = f m.id from rfl,
    h.renderOrder hlt, renderOrder_eq hlt]
  cases t.order m.id <;> rfl

end Android

/-! ### Documents -/

/-- A piece for a node under another number. A slot is left as it is. -/
def Piece.renumber (f : NodeId → NodeId) : Piece → Piece
  | opening i => opening (f i)
  | closing i => closing (f i)
  | selfClosing i => selfClosing (f i)
  | slot place => slot place
  | raw text => raw text

theorem Outline.pieces_map (f : NodeId → NodeId) (o : Outline) :
    (o.map f).pieces .empty = (o.pieces .empty).map (Piece.renumber f) := by
  have hnone : ∀ i : NodeId, (SortedMap.empty : SortedMap NodeId String).get? i = none :=
    fun _ ↦ rfl
  induction o using Outline.induction with
  | h i below ih =>
    rw [map_node, pieces, pieces]
    simp only [hnone, List.isEmpty_map]
    split
    · rfl
    · rw [List.flatMap_map, List.map_append, List.map_cons, List.map_flatMap, List.flatMap_congr ih]
      rfl

namespace Dialect

/-- Two nodes of which the element is the same. -/
def Alike (d : Dialect) (t t' : NodeTree) (i j : NodeId) : Prop :=
  ∃ n n', t.get? i = some n ∧ t'.get? j = some n' ∧ d.elementTag t' n' = d.elementTag t n ∧
    n'.styleRef = n.styleRef ∧ n'.attributes = n.attributes

variable {d : Dialect} {t t' : NodeTree}

theorem Alike.startTag_eq {i j : NodeId} (h : d.Alike t t' i j) (depth : Nat) (outermost : Bool)
    (finish : String) : ((t'.get? j).map fun n ↦ d.startTag t' depth outermost n finish) =
      (t.get? i).map fun n ↦ d.startTag t depth outermost n finish := by
  obtain ⟨n, n', hn, hn', htag, hstyle, hattributes⟩ := h
  rw [hn, hn', Option.map_some, Option.map_some, startTag, startTag, writtenAttributes,
    writtenAttributes, htag, hstyle, hattributes]

theorem Alike.endTag_eq {i j : NodeId} (h : d.Alike t t' i j) (depth : Nat) :
    ((t'.get? j).map fun n ↦ line depth ("</" ++ d.elementTag t' n ++ ">")) =
      (t.get? i).map fun n ↦ line depth ("</" ++ d.elementTag t n ++ ">") := by
  obtain ⟨n, n', hn, hn', htag, -⟩ := h
  rw [hn, hn', Option.map_some, Option.map_some, htag]

/-- **Pieces are written in the same way** if their elements are the same. -/
theorem write_renumbered {f : NodeId → NodeId} {pieces : List Piece}
    (h : ∀ p ∈ pieces, ∀ i, p.mentioned? = some i → d.Alike t t' i (f i)) (depth : Nat)
    (outermost : Bool) : d.write t' depth outermost (pieces.map (Piece.renumber f)) =
      d.write t depth outermost pieces := by
  induction pieces generalizing depth outermost with
  | nil => rfl
  | cons p r ih =>
    have hrest := ih fun q hq ↦ h q (List.mem_cons_of_mem _ hq)
    rw [List.map_cons]
    cases p with
    | slot place => rw [Piece.renumber, write, write, hrest]
    | raw text => rw [Piece.renumber, write, write, hrest]
    | opening i =>
      have hi := h _ List.mem_cons_self i rfl
      rw [Piece.renumber, write, write, hrest, hi.startTag_eq]
    | selfClosing i =>
      have hi := h _ List.mem_cons_self i rfl
      rw [Piece.renumber, write, write, hrest, hi.startTag_eq]
    | closing i =>
      have hi := h _ List.mem_cons_self i rfl
      rw [Piece.renumber, write, write, hrest, hi.endTag_eq]

/-- **A document under other numbers** is the same text. -/
theorem document_renumbered {f : NodeId → NodeId} {pieces : List Piece}
    (h : ∀ p ∈ pieces, ∀ i, p.mentioned? = some i → d.Alike t t' i (f i)) :
    d.document t' (pieces.map (Piece.renumber f)) = d.document t pieces := by
  rw [document, document, write_renumbered h]

end Dialect

end ViewCompiler
