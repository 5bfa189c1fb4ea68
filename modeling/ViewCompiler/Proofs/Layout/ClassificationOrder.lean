import ViewCompiler.Proofs.Layout.LayoutForest
import ViewCompiler.Proofs.Layout.Placement

/-!
# The order of classification

The nodes of a document that have a run are classified the deepest first
(`LayoutForest.exists_classificationOrder`), so that a node comes before the one whose run it is in.
-/

namespace ViewCompiler

namespace NodeTree

variable {t : NodeTree}

theorem depthOf_of_get? {i : NodeId} {n : Node} (h : t.get? i = some n) :
    t.depthOf i = n.depth := by
  rw [depthOf, links?_of_get? h]
  rfl

theorem mem_lookup {ids : List NodeId} {n : Node} :
    n ∈ t.lookup ids ↔ n.id ∈ ids ∧ t.get? n.id = some n := by
  rw [lookup, List.mem_filterMap]
  constructor
  · rintro ⟨i, hi, hn⟩
    obtain rfl := id_of_get? hn
    exact ⟨hi, hn⟩
  · rintro ⟨hi, hn⟩
    exact ⟨n.id, hi, hn⟩

/-- Nodes that are ordered by depth, and by number where depths are equal, come the deepest
first. -/
theorem pairwise_depth_stableSort {before : Node → Node → Bool} (hbefore : before = fun a b ↦
      decide (b.depth < a.depth ∨ (a.depth = b.depth ∧ a.id ≤ b.id))) (l : List Node) :
    (stableSort before l).Pairwise fun a b ↦ b.depth ≤ a.depth := by
  subst hbefore
  refine (pairwise_stableSort (fun a b ↦ ?_) (fun a b c hab hbc ↦ ?_) l).imp fun {a b} hab ↦ ?_
  · rw [decide_eq_true_iff, decide_eq_true_iff]
    exact (show ∀ d e i j : Nat, (e < d ∨ d = e ∧ i ≤ j) ∨ (d < e ∨ e = d ∧ j ≤ i) by omega)
      a.depth b.depth a.id b.id
  · rw [decide_eq_true_iff] at hab hbc ⊢
    exact (show ∀ d e f i j k : Nat, (e < d ∨ d = e ∧ i ≤ j) → (f < e ∨ e = f ∧ j ≤ k) →
      f < d ∨ d = f ∧ i ≤ k by omega) a.depth b.depth c.depth a.id b.id c.id hab hbc
  · rw [decide_eq_true_iff] at hab
    omega

end NodeTree

namespace LayoutForest

variable {t : NodeTree} (h : LayoutForest t)

include h

/-- No node of a document is excluded. -/
theorem not_excluded {root x : NodeId} (hroot : ∀ l, t.links? root = some l → l.excluded = false)
    (hx : Inside t.layoutRun root x) : ∀ l, t.links? x = some l → l.excluded = false := by
  intro l hl
  rcases Relation.ReflTransGen.cases_tail hx with rfl | ⟨p, -, hp⟩
  · exact hroot l hl
  · obtain ⟨l', hl', -, -, -, hexcluded, -⟩ := h.member hp
    rwa [Option.some.inj (hl.symm.trans hl')]

/-- **The nodes with a run, the deepest first.** -/
theorem exists_classificationOrder {root : NodeId} (hlt : root < t.size)
    (hroot : ∀ l, t.links? root = some l → l.excluded = false) :
    ∃ xs, t.classificationOrder root = .ok xs ∧ xs.Nodup ∧
      (∀ x, x ∈ xs ↔ Inside t.layoutRun root x ∧ t.layoutRun x ≠ []) ∧
      xs.Pairwise fun a b ↦ t.depthOf b ≤ t.depthOf a := by
  obtain ⟨o, rfl, ho⟩ := h.forest.exists_outline root
  have hsize : ∀ i ∈ o.ids, i < t.size := fun i hi ↦
    h.lt_size_of_inside hlt ((Outline.mem_ids_iff ho).1 hi)
  let parents := (t.lookup o.ids).filter fun n ↦ !n.excluded && !n.layoutChildren.isEmpty
  let before (a b : Node) : Bool := decide (b.depth < a.depth ∨ (a.depth = b.depth ∧ a.id ≤ b.id))
  have hok : t.classificationOrder o.id = .ok ((stableSort before parents).map Node.id) := by
    rw [NodeTree.classificationOrder, h.layoutSubtree_eq ho hlt]
    rfl
  have hperm := (perm_stableSort before parents).map Node.id
  refine ⟨_, hok, ?_, fun x ↦ ?_, ?_⟩
  · refine hperm.nodup_iff.2 ((h.forest.nodup_ids ho).sublist ?_)
    rw [← NodeTree.map_id_lookup hsize]
    exact List.filter_sublist.map Node.id
  · rw [hperm.mem_iff, List.mem_map, ← Outline.mem_ids_iff ho]
    constructor
    · rintro ⟨n, hn, rfl⟩
      obtain ⟨hmem, hrun⟩ := List.mem_filter.1 hn
      obtain ⟨hmem, hget⟩ := NodeTree.mem_lookup.1 hmem
      refine ⟨hmem, ?_⟩
      rw [NodeTree.layoutRun_of_get? hget]
      exact fun hnil ↦ by simp [hnil] at hrun
    · rintro ⟨hmem, hrun⟩
      obtain ⟨n, hget⟩ := NodeTree.exists_get? (hsize x hmem)
      obtain rfl := NodeTree.id_of_get? hget
      have hexcluded : n.excluded = false :=
        h.not_excluded hroot ((Outline.mem_ids_iff ho).1 hmem) _ (NodeTree.links?_of_get? hget)
      rw [NodeTree.layoutRun_of_get? hget] at hrun
      exact ⟨n, List.mem_filter.2 ⟨NodeTree.mem_lookup.2 ⟨hmem, hget⟩, by simp [hexcluded, hrun]⟩,
        rfl⟩
  · have hsorted : (stableSort before parents).Pairwise fun a b ↦ b.depth ≤ a.depth :=
      NodeTree.pairwise_depth_stableSort rfl parents
    refine List.pairwise_map.2 (hsorted.imp_of_mem fun {a b} ha hb hab ↦ ?_)
    have hdepth : ∀ n ∈ stableSort before parents, t.depthOf n.id = n.depth := fun n hn ↦
      NodeTree.depthOf_of_get?
        (NodeTree.mem_lookup.1 (List.mem_filter.1 (mem_stableSort.1 hn)).1).2
    rwa [hdepth a ha, hdepth b hb]

end LayoutForest

end ViewCompiler
