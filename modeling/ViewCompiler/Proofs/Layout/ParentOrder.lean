import ViewCompiler.Proofs.Layout.Arranging
import ViewCompiler.Proofs.Layout.Footprint

/-!
# The runs of several documents in one list

`NodeTree.parentOrder` lists the nodes with a run of all documents in the order in which they are
classified. It is made from the layout, which classification does not change. So it does not matter
at which stage it is looked up (`LayoutForest.classificationOrder_congr`), and documents that are
classified one after another are one list of runs (`Classify.exists_runs_append`,
`Arranged.exists_runs`).
-/

namespace ViewCompiler

open NodeTree

namespace NodeTree

/-- The nodes with a run of some documents, in the order in which they are classified. -/
def parentOrder (t : NodeTree) (roots : List NodeId) : List NodeId :=
  roots.flatMap fun root ↦ (t.classificationOrder root).toOption.getD []

theorem parentOrder_append (t : NodeTree) (roots roots' : List NodeId) :
    t.parentOrder (roots ++ roots') = t.parentOrder roots ++ t.parentOrder roots' :=
  List.flatMap_append

/-- What the order of classification is made from. -/
def linked (ids : List NodeId) (t : NodeTree) : List (NodeId × Links) :=
  ids.filterMap fun i ↦ (t.links? i).map fun l ↦ (i, l)

theorem map_links_lookup (t : NodeTree) (ids : List NodeId) :
    (t.lookup ids).map (fun n ↦ (n.id, n.links)) = linked ids t := by
  rw [lookup, linked, List.map_filterMap]
  refine List.filterMap_congr fun i _ ↦ ?_
  rw [links?]
  cases hn : t.get? i with
  | none => rfl
  | some n =>
    obtain rfl := id_of_get? hn
    rfl

theorem linked_congr {t t' : NodeTree} {ids : List NodeId}
    (h : ∀ i ∈ ids, t'.links? i = t.links? i) : linked ids t' = linked ids t :=
  List.filterMap_congr fun i hi ↦ by rw [h i hi]

/-- **The order of classification** of nodes depends on their numbers and their links. -/
theorem order_eq_linked (t : NodeTree) (ids : List NodeId) :
    (stableSort (fun a b : Node ↦
        decide (b.depth < a.depth ∨ (a.depth = b.depth ∧ a.id ≤ b.id)))
      ((t.lookup ids).filter fun n ↦ !n.excluded && !n.layoutChildren.isEmpty)).map Node.id =
    (stableSort (fun a b : NodeId × Links ↦
        decide (b.2.depth < a.2.depth ∨ (a.2.depth = b.2.depth ∧ a.1 ≤ b.1)))
      ((linked ids t).filter fun e ↦ !e.2.excluded && !e.2.layoutChildren.isEmpty)).map
        Prod.fst := by
  rw [← map_links_lookup, List.filter_map, stableSort_map, List.map_map]
  rfl

end NodeTree

namespace LayoutForest

variable {t t' : NodeTree} (h : LayoutForest t) (h' : LayoutForest t')

include h h'

/-- **The order of a document** is the same in trees with the same layout below its root. -/
theorem classificationOrder_congr {root : NodeId} (hlt : root < t.size) (hlt' : root < t'.size)
    (hlinks : ∀ i, Inside t.layoutRun root i → t'.links? i = t.links? i) :
    t'.classificationOrder root = t.classificationOrder root := by
  obtain ⟨o, rfl, ho⟩ := h.forest.exists_outline root
  have hsame : ∀ i ∈ o.ids, t'.links? i = t.links? i := fun i hi ↦
    hlinks i ((Outline.mem_ids_iff ho).1 hi)
  have ho' : o.Follows t'.layoutRun := ho.congr fun i hi ↦ by
    rw [layoutRun, layoutRun, hsame i hi]
  rw [classificationOrder, classificationOrder, h.layoutSubtree_eq ho hlt,
    h'.layoutSubtree_eq ho' hlt']
  show Except.ok _ = Except.ok _
  rw [order_eq_linked, order_eq_linked, linked_congr hsame]

end LayoutForest

/-- Groups that have been made since do not matter. -/
theorem Extended.classificationOrder_eq {t t' : NodeTree} (h : Extended t t')
    (hforest : LayoutForest t) {root : NodeId} (hlt : root < t.size) :
    t'.classificationOrder root = t.classificationOrder root :=
  hforest.classificationOrder_congr (h.layoutForest hforest) hlt
    (Nat.lt_of_lt_of_le hlt h.size_le) fun i hi ↦ h.links i (hforest.lt_size_of_inside hlt hi)

namespace Sown

variable {t : NodeTree} (h : Sown t) {roots : List NodeId}
  (hroots : ∀ root ∈ roots, t.kind? root = some .root)

include h

theorem exists_parents {root : NodeId} (hroot : t.kind? root = some .root) :
    ∃ xs, t.classificationOrder root = .ok xs ∧ xs.Nodup ∧
      ∀ x, x ∈ xs ↔ Inside t.layoutRun root x ∧ t.layoutRun x ≠ [] := by
  obtain ⟨xs, hok, hnodup, hmem, -⟩ := h.forest.exists_classificationOrder (lt_size_of_kind? hroot)
    fun l hl ↦ (h.top root l hl (by
      rw [kind?_of_links? hl] at hroot
      rw [Option.some.inj hroot]
      rfl)).1
  exact ⟨xs, hok, hnodup, hmem⟩

/-- A root is in no run. -/
theorem not_mem_layoutRun_of_root {root : NodeId} (hroot : t.kind? root = some .root)
    (p : NodeId) : root ∉ t.layoutRun p := fun hp ↦ by
  rcases h.forest.kind?_of_mem hp with hk | hk <;> exact absurd (hk.symm.trans hroot) (by decide)

include hroots

/-- **The nodes in the order** are those of the documents that have a run. -/
theorem mem_parentOrder {x : NodeId} : x ∈ t.parentOrder roots ↔
    ∃ root ∈ roots, Inside t.layoutRun root x ∧ t.layoutRun x ≠ [] := by
  rw [parentOrder, List.mem_flatMap]
  refine exists_congr fun root ↦ and_congr_right fun hroot ↦ ?_
  obtain ⟨xs, hok, -, hmem⟩ := h.exists_parents (hroots root hroot)
  rw [hok]
  exact hmem x

/-- Every node is classified once, since documents have no nodes in common. -/
theorem nodup_parentOrder (hnodup : roots.Nodup) : (t.parentOrder roots).Nodup := by
  induction roots with
  | nil => exact .nil
  | cons root r ih =>
    obtain ⟨hroot, hr⟩ := List.nodup_cons.1 hnodup
    have hrest : ∀ root' ∈ r, t.kind? root' = some .root := fun root' hroot' ↦
      hroots root' (List.mem_cons_of_mem _ hroot')
    have hkind := hroots root List.mem_cons_self
    obtain ⟨xs, hok, hxs, hmem⟩ := h.exists_parents hkind
    rw [parentOrder, List.flatMap_cons, hok]
    refine hxs.append (ih hrest hr) fun x hx hx' ↦ ?_
    obtain ⟨root', hroot', hin, -⟩ := (h.mem_parentOrder hrest).1 hx'
    have heq := eq_of_inside_outermost h.forest.forest.parent
      (h.not_mem_layoutRun_of_root hkind) (h.not_mem_layoutRun_of_root (hrest root' hroot'))
      ((hmem x).1 hx).1 hin
    exact hroot (heq ▸ hroot')

/-- Elements and texts are classified, and roots. -/
theorem kind?_of_mem_parentOrder {x : NodeId} (hx : x ∈ t.parentOrder roots) :
    ∃ k, t.kind? x = some k ∧ k ≠ .group ∧ k ≠ .host := by
  obtain ⟨root, hroot, hin, -⟩ := (h.mem_parentOrder hroots).1 hx
  exact h.forest.kind?_of_inside (hroots root hroot) hin

end Sown

namespace Classify

variable {c : LayoutConfig} {t : NodeTree}

/-- Runs before others. -/
theorem runs_append {xs ys : List NodeId} {o₁ o₂ : ClassifyOutcome} {t₁ t₂ : NodeTree}
    (hxs : runs c t xs = .ok (o₁, t₁)) (hys : runs c t₁ ys = .ok (o₂, t₂)) :
    runs c t (xs ++ ys) = .ok (o₁.append o₂, t₂) := by
  induction xs generalizing t o₁ with
  | nil =>
    rw [runs] at hxs
    obtain ⟨rfl, rfl⟩ := Prod.mk.inj (Except.ok.inj hxs)
    exact hys
  | cons x r ih =>
    obtain ⟨o, t', o', hfirst, hrest, rfl⟩ := runs_cons_cases hxs
    rw [ClassifyOutcome.append_assoc]
    exact runs_cons hfirst (ih hrest)

/-- Runs after others. -/
theorem exists_runs_append {xs ys : List NodeId} {o : ClassifyOutcome} {t' : NodeTree} :
    runs c t (xs ++ ys) = .ok (o, t') → ∃ o₁ t₁ o₂, runs c t xs = .ok (o₁, t₁) ∧
      runs c t₁ ys = .ok (o₂, t') := by
  induction xs generalizing t o with
  | nil => exact fun hok ↦ ⟨.empty, t, o, rfl, hok⟩
  | cons x r ih =>
    intro hok
    obtain ⟨o₁, t₁, o₂, hfirst, hrest, -⟩ := runs_cons_cases hok
    obtain ⟨o₃, t₃, o₄, hxs, hys⟩ := ih hrest
    exact ⟨o₁.append o₃, t₃, o₄, runs_cons hfirst hxs, hys⟩

end Classify

/-- **Runs one after another** are all carried out. -/
theorem Arranged.exists_runs {moved : List (NodeId × NodeId)} {settled : List NodeId}
    {t : NodeTree} (h : Arranged moved settled t) (c : LayoutConfig) {xs : List NodeId}
    (hkinds : ∀ x ∈ xs, ∃ k, t.kind? x = some k ∧ k ≠ .group ∧ k ≠ .host) :
    ∃ o t', Classify.runs c t xs = .ok (o, t') ∧ Arranged moved (xs.reverse ++ settled) t' ∧
      Extended t t' := by
  induction xs generalizing t settled with
  | nil => exact ⟨.empty, t, rfl, h, .of_links fun _ ↦ rfl⟩
  | cons x r ih =>
    obtain ⟨k, hk, hgroup, hhost⟩ := hkinds x List.mem_cons_self
    obtain ⟨ds, t₁, hok, harranged, hext, -⟩ := h.exists_run c hk hgroup hhost
    obtain ⟨o, t₂, hrest, harranged', hext'⟩ := ih harranged fun y hy ↦ by
      obtain ⟨k, hk, hne⟩ := hkinds y (List.mem_cons_of_mem _ hy)
      exact ⟨k, hext.kind?_eq hk, hne⟩
    refine ⟨ClassifyOutcome.append ⟨ds, []⟩ o, t₂, ?_, ?_, hext.trans hext'⟩
    · exact Classify.runs_cons hok hrest
    · rw [List.reverse_cons, List.append_assoc]
      exact harranged'

end ViewCompiler
