import ViewCompiler.Proofs.Layout.Aligned
import ViewCompiler.Proofs.Layout.Output
import ViewCompiler.Proofs.Layout.Spacing

/-!
# Trees under other numbers

`Renumbered f t t'` says that the second tree holds the nodes of the first, each under the number
that `f` gives it; it may hold others too, which the nodes of the first do not refer to. The depths
in the output may differ, since they are found by a walk over all nodes.

What a node looks like does depend on its number where it is named after it. So `f` must leave the
numbers of such nodes as they are: of those that are aligned on a baseline, and of those that have a
label. All other numbers may change.

The nodes inside a node come out in the same order in both trees (`Renumbered.order`), and so the
outlines of the second tree are those of the first (`Renumbered.follows`).
-/

namespace ViewCompiler

open NodeTree

/-! ### Sorting -/

section

variable {α : Type} {le le' : α → α → Bool}

theorem insertOrdered_congr {a : α} {l : List α} (h : ∀ b ∈ l, le a b = le' a b) :
    insertOrdered le a l = insertOrdered le' a l := by
  induction l with
  | nil => rfl
  | cons b r ih =>
    rw [insertOrdered, insertOrdered, h b List.mem_cons_self,
      ih fun c hc ↦ h c (List.mem_cons_of_mem _ hc)]

/-- Sorting looks at the elements of the list only. -/
theorem stableSort_congr {l : List α} (h : ∀ a ∈ l, ∀ b ∈ l, le a b = le' a b) :
    stableSort le l = stableSort le' l := by
  induction l with
  | nil => rfl
  | cons a r ih =>
    have hrest := ih fun b hb c hc ↦ h b (List.mem_cons_of_mem _ hb) c (List.mem_cons_of_mem _ hc)
    rw [stableSort, stableSort, hrest]
    exact insertOrdered_congr fun b hb ↦
      h a List.mem_cons_self b (List.mem_cons_of_mem _ (mem_stableSort.1 hb))

end

/-! ### Outlines under other numbers -/

namespace Outline

/-- An outline with other numbers. -/
def map (f : NodeId → NodeId) : Outline → Outline
  | node id below => node (f id) (below.map (map f))

theorem map_node (f : NodeId → NodeId) (i : NodeId) (below : List Outline) :
    (node i below).map f = node (f i) (below.map (map f)) := by
  rw [map]

theorem id_map (f : NodeId → NodeId) (o : Outline) : (o.map f).id = f o.id := by
  cases o
  rw [map_node]
  rfl

theorem ids_map (f : NodeId → NodeId) (o : Outline) : (o.map f).ids = o.ids.map f := by
  induction o using Outline.induction with
  | h i below ih =>
    rw [map_node, ids_node, ids_node, List.map_cons, List.flatMap_map, List.map_flatMap,
      List.flatMap_congr ih]

theorem flatMap_ids_map (f : NodeId → NodeId) (os : List Outline) :
    (os.map (map f)).flatMap ids = (os.flatMap ids).map f := by
  rw [List.flatMap_map, List.map_flatMap, List.flatMap_congr fun o _ ↦ ids_map f o]

/-- **A node has one outline.** -/
theorem eq_of_follows {children : NodeId → List NodeId} {o o' : Outline} (h : o.Follows children)
    (h' : o'.Follows children) (hid : o.id = o'.id) : o = o' := by
  induction o using Outline.induction generalizing o' with
  | h i below ih =>
    obtain ⟨i', below'⟩ := o'
    obtain rfl : i = i' := hid
    obtain ⟨hids, hbelow⟩ := follows_node.1 h
    obtain ⟨hids', hbelow'⟩ := follows_node.1 h'
    refine congrArg (node i) (List.ext_getElem? fun k ↦ ?_)
    have hk : (below.map id)[k]? = (below'.map id)[k]? := by rw [hids, hids']
    rw [List.getElem?_map, List.getElem?_map] at hk
    cases hb : below[k]? with
    | none =>
      rw [hb] at hk
      exact (Option.map_eq_none_iff.1 hk.symm).symm
    | some b =>
      rw [hb] at hk
      obtain ⟨b', hb', hsame⟩ := Option.map_eq_some_iff.1 hk.symm
      have hmem := List.mem_of_getElem? hb
      rw [hb', ih b hmem (hbelow b hmem) (hbelow' b' (List.mem_of_getElem? hb')) hsame.symm]

/-- Nodes have one list of outlines. -/
theorem eq_of_follows_all {children : NodeId → List NodeId} {os os' : List Outline}
    (h : ∀ o ∈ os, o.Follows children) (h' : ∀ o ∈ os', o.Follows children)
    (hids : os.map id = os'.map id) : os = os' := by
  induction os generalizing os' with
  | nil => exact (List.map_eq_nil_iff.1 hids.symm).symm
  | cons o r ih =>
    cases os' with
    | nil => exact absurd hids (by simp)
    | cons o' r' =>
      obtain ⟨hid, hrest⟩ := List.cons.inj hids
      rw [eq_of_follows (h o List.mem_cons_self) (h' o' List.mem_cons_self) hid,
        ih (fun b hb ↦ h b (List.mem_cons_of_mem _ hb))
          (fun b hb ↦ h' b (List.mem_cons_of_mem _ hb)) hrest]

end Outline

/-! ### Trees -/

/-- A node under another number, at a depth in the output. -/
def Node.moved (f : NodeId → NodeId) (depth : Nat) (m : Node) : Node :=
  { m.renumber f with renderDepth := depth }

/-- The second tree holds the nodes of the first under other numbers, except for those that are
named after their numbers. -/
structure Renumbered (f : NodeId → NodeId) (t t' : NodeTree) : Prop where
  injective : Function.Injective f
  nodes : ∀ i m, t.get? i = some m → ∃ depth, t'.get? (f i) = some (m.moved f depth)
  parents : ∀ i p, t.renderParent? i = some p → p < t.size
  members : ∀ i, ∀ c ∈ t.renderMembers i, c < t.size
  aligned : ∀ i p, t.renderParent? i = some p → t.container? p = some .relative → f i = i
  companions : ∀ i m j, t.get? i = some m → m.companion = some j → j < t.size ∧ f j = j
  /-- A node is labelled in the second tree only if it is in the first. -/
  labelled : ∀ i < t.size, ∀ j m, t'.get? j = some m → m.companion = some (f i) →
    ∃ j m, t.get? j = some m ∧ m.companion = some i

namespace Renumbered

variable {f : NodeId → NodeId} {t t' : NodeTree} (h : Renumbered f t t')

include h

theorem lt_size {i : NodeId} (hi : i < t.size) : f i < t'.size := by
  obtain ⟨m, hm⟩ := exists_get? hi
  obtain ⟨depth, hm'⟩ := h.nodes i m hm
  exact lt_size_of_get? hm'

theorem position {i : NodeId} (hi : i < t.size) : t'.position (f i) = t.position i := by
  obtain ⟨m, hm⟩ := exists_get? hi
  obtain ⟨depth, hm'⟩ := h.nodes i m hm
  rw [NodeTree.position, NodeTree.position, hm, hm']
  rfl

theorem renderMembers {i : NodeId} (hi : i < t.size) :
    t'.renderMembers (f i) = (t.renderMembers i).map f := by
  obtain ⟨m, hm⟩ := exists_get? hi
  obtain ⟨depth, hm'⟩ := h.nodes i m hm
  rw [renderMembers_of_get? hm, renderMembers_of_get? hm']
  rfl

/-- **The nodes inside a node** come out in the same order. -/
theorem order {i : NodeId} (hi : i < t.size) : t'.order (f i) = (t.order i).map f := by
  rw [NodeTree.order, NodeTree.order, h.renderMembers hi, stableSort_map]
  refine congrArg (List.map f) (stableSort_congr fun a ha b hb ↦ ?_)
  rw [h.position (h.members i a ha), h.position (h.members i b hb)]

theorem renderOrder {i : NodeId} (hi : i < t.size) :
    t'.renderOrder (f i) = (t.renderOrder i).map (List.map f) := by
  rw [renderOrder_eq hi, renderOrder_eq (h.lt_size hi), h.order hi]
  rfl

/-- **Outlines** are the same. -/
theorem follows {o : Outline} (ho : o.Follows t.order) (hlt : ∀ i ∈ o.ids, i < t.size) :
    (o.map f).Follows t'.order := by
  induction o using Outline.induction with
  | h i below ih =>
    obtain ⟨hids, hbelow⟩ := Outline.follows_node.1 ho
    rw [Outline.ids_node] at hlt
    rw [Outline.map_node]
    refine Outline.follows_node.2 ⟨?_, fun b' hb' ↦ ?_⟩
    · rw [h.order (hlt i List.mem_cons_self), ← hids, List.map_map, List.map_map]
      exact List.map_congr_left fun b _ ↦ Outline.id_map f b
    · obtain ⟨b, hb, rfl⟩ := List.mem_map.1 hb'
      exact ih b hb (hbelow b hb) fun j hj ↦
        hlt j (List.mem_cons_of_mem _ (List.mem_flatMap.2 ⟨b, hb, hj⟩))

/-- Whether a node has a label. -/
theorem any_companion {i : NodeId} (hi : i < t.size) :
    (t'.toList.any fun m ↦ m.companion == some (f i)) =
      t.toList.any fun m ↦ m.companion == some i := by
  have hmem : ∀ {t : NodeTree} {i : NodeId}, (t.toList.any fun m ↦ m.companion == some i) = true ↔
      ∃ j m, t.get? j = some m ∧ m.companion = some i := fun {t i} ↦ by
    rw [List.any_eq_true]
    constructor
    · rintro ⟨m, hm, hlabel⟩
      obtain ⟨j, hj⟩ := List.mem_iff_getElem?.1 hm
      exact ⟨j, m, (Array.getElem?_toList ..).symm.trans hj, beq_iff_eq.1 hlabel⟩
    · rintro ⟨j, m, hm, hlabel⟩
      exact ⟨m, List.mem_of_getElem? ((Array.getElem?_toList ..).trans hm), beq_iff_eq.2 hlabel⟩
  refine Bool.eq_iff_iff.2 (hmem.trans (Iff.trans ⟨?_, ?_⟩ hmem.symm))
  · rintro ⟨j, m, hm, hlabel⟩
    exact h.labelled i hi j m hm hlabel
  · rintro ⟨j, m, hm, hlabel⟩
    obtain ⟨depth, hm'⟩ := h.nodes j m hm
    exact ⟨f j, _, hm', hlabel.trans (congrArg some (h.companions j m i hm hlabel).2.symm)⟩

end Renumbered

/-! ### Depths in the output -/

namespace NodeTree

/-- The same nodes at other depths in the output. -/
def Deepened (t t' : NodeTree) : Prop :=
  ∀ i, ∃ depth, t'.get? i = (t.get? i).map fun n ↦ { n with renderDepth := depth }

variable {t t' t'' : NodeTree}

theorem Deepened.refl (t : NodeTree) : Deepened t t := fun i ↦ by
  cases hn : t.get? i with
  | none => exact ⟨0, rfl⟩
  | some n => exact ⟨n.renderDepth, rfl⟩

theorem Deepened.trans (h : Deepened t t') (h' : Deepened t' t'') : Deepened t t'' := fun i ↦ by
  obtain ⟨depth, hi⟩ := h i
  obtain ⟨depth', hi'⟩ := h' i
  exact ⟨depth', by rw [hi', hi, Option.map_map]; rfl⟩

theorem deepened_visitLevel (depth : Nat) (s : NodeTree × List NodeId × List NodeId) (id : NodeId) :
    Deepened s.1 (visitLevel depth s id).1 := by
  rw [visitLevel]
  split
  · exact .refl _
  · split
    · exact .refl _
    · intro i
      dsimp only
      rw [get?_modify]
      split
      · exact ⟨depth, rfl⟩
      · exact Deepened.refl s.1 i

theorem deepened_visitLevels (t : NodeTree) (seen : List NodeId) (depth fuel : Nat)
    (level : List NodeId) : Deepened t (t.visitLevels seen depth fuel level) := by
  induction fuel generalizing t seen depth level with
  | zero => cases level <;> exact .refl t
  | succ fuel ih =>
    cases level with
    | nil => exact .refl t
    | cons id r =>
      have hlevel : ∀ (ids : List NodeId) (s : NodeTree × List NodeId × List NodeId),
          Deepened s.1 (ids.foldl (visitLevel depth) s).1 := fun ids ↦ by
        induction ids with
        | nil => exact fun s ↦ .refl s.1
        | cons i ids ih => exact fun s ↦ (deepened_visitLevel depth s i).trans (ih _)
      exact (hlevel (id :: r) (t, seen, [])).trans (ih _ _ _ _)

/-- **The walk for the depths** changes nothing else. -/
theorem deepened_computeRenderDepths (t : NodeTree) : Deepened t t.computeRenderDepths :=
  deepened_visitLevels _ _ _ _ _

namespace Deepened

variable (h : Deepened t t')

include h

/-- What is not a depth is the same. -/
theorem map_get? {α : Type} {g : Node → α}
    (hg : ∀ n depth, g { n with renderDepth := depth } = g n) (i : NodeId) :
    (t'.get? i).map g = (t.get? i).map g := by
  obtain ⟨depth, hi⟩ := h i
  rw [hi, Option.map_map]
  exact congrArg (Option.map · (t.get? i)) (funext fun n ↦ hg n depth)

theorem size_eq : t'.size = t.size := by
  have hnone : ∀ i, t'.get? i = none ↔ t.get? i = none := fun i ↦ by
    obtain ⟨depth, hi⟩ := h i
    rw [hi, Option.map_eq_none_iff]
  exact Nat.le_antisymm (get?_eq_none_iff.1 ((hnone _).2 (get?_eq_none_iff.2 (Nat.le_refl _))))
    (get?_eq_none_iff.1 ((hnone _).1 (get?_eq_none_iff.2 (Nat.le_refl _))))

theorem place_eq (i : NodeId) : t'.place i = t.place i := by
  rw [place, place, h.map_get? (g := Node.place) fun _ _ ↦ rfl]

theorem renderParent?_eq (i : NodeId) : t'.renderParent? i = t.renderParent? i :=
  congrArg Place.renderParent (h.place_eq i)

theorem renderMembers_eq (i : NodeId) : t'.renderMembers i = t.renderMembers i :=
  congrArg Place.renderChildren (h.place_eq i)

theorem container?_eq (i : NodeId) : t'.container? i = t.container? i :=
  h.map_get? (g := Node.container) (fun _ _ ↦ rfl) i

theorem label_iff {i j : NodeId} : (∃ m, t'.get? i = some m ∧ m.companion = some j) ↔
    ∃ m, t.get? i = some m ∧ m.companion = some j := by
  have hlabel : ∀ {t : NodeTree}, (∃ m, t.get? i = some m ∧ m.companion = some j) ↔
      (t.get? i).map Node.companion = some (some j) := Option.map_eq_some_iff.symm
  rw [hlabel, hlabel, h.map_get? (g := Node.companion) fun _ _ ↦ rfl]

end Deepened

end NodeTree

/-- **Trees with the depths of their nodes.** -/
theorem Renumbered.deepened {f : NodeId → NodeId} {t t' u u' : NodeTree} (h : Renumbered f t t')
    (hu : Deepened t u) (hu' : Deepened t' u') : Renumbered f u u' where
  injective := h.injective
  nodes i m hm := by
    obtain ⟨depth, hi⟩ := hu i
    rw [hm] at hi
    obtain ⟨n, hn, rfl⟩ := Option.map_eq_some_iff.1 hi.symm
    obtain ⟨depth', hn'⟩ := h.nodes i n hn
    obtain ⟨depth'', hi'⟩ := hu' (f i)
    exact ⟨depth'', by rw [hi', hn']; rfl⟩
  parents i p hp := by
    rw [hu.renderParent?_eq] at hp
    exact hu.size_eq ▸ h.parents i p hp
  members i c hc := by
    rw [hu.renderMembers_eq] at hc
    exact hu.size_eq ▸ h.members i c hc
  aligned i p hp hcontainer := by
    rw [hu.renderParent?_eq] at hp
    rw [hu.container?_eq] at hcontainer
    exact h.aligned i p hp hcontainer
  companions i m j hm hj := by
    obtain ⟨n, hn, hlabel⟩ := hu.label_iff.1 ⟨m, hm, hj⟩
    exact hu.size_eq ▸ h.companions i n j hn hlabel
  labelled i hi j m hm hj := by
    obtain ⟨n, hn, hlabel⟩ := hu'.label_iff.1 ⟨m, hm, hj⟩
    obtain ⟨k, n', hn', hlabel'⟩ := h.labelled i (hu.size_eq ▸ hi) j n hn hlabel
    exact ⟨k, hu.label_iff.2 ⟨n', hn', hlabel'⟩⟩

end ViewCompiler
