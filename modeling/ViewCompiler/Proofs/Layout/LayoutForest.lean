import ViewCompiler.Proofs.Layout.Ascents
import ViewCompiler.Proofs.Outline

/-!
# The layout as a forest

`LayoutForest` is what the layout runs of a tree satisfy: a member is younger than the node whose
run it is in, one deeper, and knows it as its layout parent. So the runs make a forest in the sense
of `Forest`, the walk downwards lists the outline of a node (`LayoutForest.layoutSubtree_eq`), and
the walk upwards ends at the node from which it can be reached (`LayoutForest.exists_upward`).

Both walks guard themselves against loops and are given a number of steps; in a forest neither
matters.
-/

namespace ViewCompiler

namespace NodeTree

variable {t t' : NodeTree}

def depthOf (t : NodeTree) (i : NodeId) : Nat := ((t.links? i).map Links.depth).getD 0

def kind? (t : NodeTree) (i : NodeId) : Option NodeKind := (t.links? i).map Links.kind

theorem kind?_of_links? {i : NodeId} {l : Links} (h : t.links? i = some l) :
    t.kind? i = some l.kind := by
  rw [kind?, h, Option.map_some]

theorem lt_size_of_kind? {i : NodeId} {k : NodeKind} (h : t.kind? i = some k) : i < t.size := by
  obtain ⟨l, hl, -⟩ := Option.map_eq_some_iff.1 h
  exact lt_size_of_links? hl

theorem layoutRun_of_get? {i : NodeId} {n : Node} (h : t.get? i = some n) :
    t.layoutRun i = n.layoutChildren := by
  rw [layoutRun, links?_of_get? h]
  rfl

theorem documentParent?_of_get? {i : NodeId} {n : Node} (h : t.get? i = some n) :
    t.documentParent? i = n.documentParent := by
  rw [documentParent?, links?_of_get? h]
  rfl

theorem descendLayout_nil (fuel : Nat) (seen : List NodeId) :
    t.descendLayout fuel seen [] = .ok seen.reverse := by
  rw [descendLayout]

theorem descendLayout_cons {fuel : Nat} {seen stack : List NodeId} {i : NodeId}
    (hseen : seen.contains i = false) (hi : i < t.size) :
    t.descendLayout (fuel + 1) seen (i :: stack) =
      t.descendLayout fuel (i :: seen) (t.layoutRun i ++ stack) := by
  obtain ⟨n, hn⟩ := exists_get? hi
  rw [descendLayout, hseen, if_neg Bool.false_ne_true, hn, layoutRun_of_get? hn]

theorem lt_size_of_mem_layoutRun {p c : NodeId} (h : c ∈ t.layoutRun p) : p < t.size := by
  cases hl : t.links? p with
  | none => simp [layoutRun, hl] at h
  | some l => exact lt_size_of_links? hl

end NodeTree

/-- What the layout runs of a tree satisfy. -/
structure LayoutForest (t : NodeTree) : Prop where
  nodup : ∀ p, (t.layoutRun p).Nodup
  member : ∀ {p c}, c ∈ t.layoutRun p → ∃ l, t.links? c = some l ∧ p < c ∧
    l.documentParent = some p ∧ l.depth = t.depthOf p + 1 ∧ l.excluded = false ∧
    (l.kind = .element ∨ l.kind = .text)

/-- Two trees of which the second has more nodes, with no runs. -/
structure Extended (t t' : NodeTree) : Prop where
  links : ∀ i < t.size, t'.links? i = t.links? i
  run : ∀ i l, t.size ≤ i → t'.links? i = some l → l.layoutChildren = []

namespace Extended

variable {t t' : NodeTree} (h : Extended t t')

include h

theorem layoutRun_eq : t'.layoutRun = t.layoutRun := by
  funext i
  rcases Nat.lt_or_ge i t.size with hi | hi
  · rw [NodeTree.layoutRun, NodeTree.layoutRun, h.links i hi]
  · have hnone : t.links? i = none := NodeTree.links?_eq_none_iff.2 hi
    rw [NodeTree.layoutRun, NodeTree.layoutRun, hnone]
    cases hl : t'.links? i with
    | none => rfl
    | some l => simp [h.run i l hi hl]

/-- **Nodes without runs do not matter for the layout.** -/
theorem layoutForest (hforest : LayoutForest t) : LayoutForest t' where
  nodup p := h.layoutRun_eq ▸ hforest.nodup p
  member {p c} hc := by
    rw [h.layoutRun_eq] at hc
    obtain ⟨l, hl, hmember⟩ := hforest.member hc
    refine ⟨l, (h.links c (NodeTree.lt_size_of_links? hl)).trans hl, ?_⟩
    rwa [NodeTree.depthOf, h.links p (NodeTree.lt_size_of_mem_layoutRun hc)]

end Extended

theorem Extended.size_le {t t' : NodeTree} (h : Extended t t') : t.size ≤ t'.size := by
  refine Nat.le_of_not_lt fun hlt ↦ ?_
  obtain ⟨n, hn⟩ := NodeTree.exists_get? hlt
  have hl := (h.links _ hlt).trans (NodeTree.links?_of_get? hn)
  exact Nat.lt_irrefl _ (NodeTree.lt_size_of_links? hl)

theorem Extended.trans {t t' t'' : NodeTree} (h : Extended t t') (h' : Extended t' t'') :
    Extended t t'' where
  links i hi := (h'.links i (Nat.lt_of_lt_of_le hi h.size_le)).trans (h.links i hi)
  run i l hi hl := by
    rcases Nat.lt_or_ge i t'.size with hi' | hi'
    · exact h.run i l hi ((h'.links i hi').symm.trans hl)
    · exact h'.run i l hi' hl

theorem Extended.of_links {t t' : NodeTree} (h : ∀ i, t'.links? i = t.links? i) :
    Extended t t' where
  links i _ := h i
  run i l hi hl := by
    rw [h, NodeTree.links?_eq_none_iff.2 hi] at hl
    exact absurd hl (by simp)

theorem NodeTree.Unmoved.extended {t t' : NodeTree} (h : Unmoved t t') : Extended t t' :=
  .of_links h.links

/-- A new node has no run. -/
theorem NodeTree.extended_alloc (t : NodeTree) (kind : NodeKind) (tag : String) :
    Extended t (t.alloc kind tag).2 := by
  refine ⟨fun i hi ↦ ?_, fun i l hi hl ↦ ?_⟩
  · rw [links?_alloc, if_neg (Nat.ne_of_lt hi)]
  · rw [links?_alloc] at hl
    split at hl
    · rw [← Option.some.inj hl]
    · rw [links?_eq_none_iff.2 hi] at hl
      exact absurd hl (by simp)

namespace LayoutForest

variable {t : NodeTree} (h : LayoutForest t)

include h

theorem documentParent {p c : NodeId} (hc : c ∈ t.layoutRun p) : t.documentParent? c = some p := by
  obtain ⟨l, hl, -, hparent, -⟩ := h.member hc
  rw [NodeTree.documentParent?, hl]
  exact hparent

theorem lt_size {p c : NodeId} (hc : c ∈ t.layoutRun p) : c < t.size := by
  obtain ⟨l, hl, -⟩ := h.member hc
  exact NodeTree.lt_size_of_links? hl

theorem depth_eq {p c : NodeId} (hc : c ∈ t.layoutRun p) : t.depthOf c = t.depthOf p + 1 := by
  obtain ⟨l, hl, -, -, hdepth, -⟩ := h.member hc
  rw [NodeTree.depthOf, hl]
  exact hdepth

/-- The members of runs are elements and texts. -/
theorem kind?_of_mem {p c : NodeId} (hc : c ∈ t.layoutRun p) :
    t.kind? c = some .element ∨ t.kind? c = some .text := by
  obtain ⟨l, hl, -, -, -, -, hkind⟩ := h.member hc
  rw [NodeTree.kind?_of_links? hl]
  exact hkind.imp (congrArg some) (congrArg some)

/-- There are no groups and no hosts in the layout of a document. -/
theorem kind?_of_inside {root x : NodeId} (hroot : t.kind? root = some .root)
    (hx : Inside t.layoutRun root x) : ∃ k, t.kind? x = some k ∧ k ≠ .group ∧ k ≠ .host := by
  rcases Relation.ReflTransGen.cases_tail hx with rfl | ⟨p, -, hp⟩
  · exact ⟨_, hroot, by decide, by decide⟩
  · rcases h.kind?_of_mem hp with hk | hk <;> exact ⟨_, hk, by decide, by decide⟩

/-- **The layout runs make a forest.** -/
theorem forest : Forest t.layoutRun where
  nodup := h.nodup
  parent hp hq := Option.some.inj ((h.documentParent hp).symm.trans (h.documentParent hq))
  wellFounded := by
    refine Subrelation.wf (fun {c p} hc ↦ ?_) (InvImage.wf (fun i ↦ t.size - i) Nat.lt_wfRel.wf)
    obtain ⟨l, -, hlt, -⟩ := h.member hc
    have hsize := h.lt_size hc
    exact Nat.sub_lt_sub_left (Nat.lt_trans hlt hsize) hlt

theorem lt_size_of_inside {p x : NodeId} (hp : p < t.size) (hx : Inside t.layoutRun p x) :
    x < t.size := by
  rcases Relation.ReflTransGen.cases_tail hx with rfl | ⟨q, -, hq⟩
  · exact hp
  · exact h.lt_size hq

/-- **The walk downwards lists an outline.** -/
theorem layoutSubtree_eq {o : Outline} (ho : o.Follows t.layoutRun) (hlt : o.id < t.size) :
    t.layoutSubtree o.id = .ok o.ids :=
  Outline.walk_root NodeTree.descendLayout_nil NodeTree.descendLayout_cons ho
    (h.forest.nodup_ids ho) fun _ hi ↦ h.lt_size_of_inside hlt ((Outline.mem_ids_iff ho).1 hi)

/-- **The walk upwards** from a node goes through nodes inside of which it is, and ends at the
outermost one. -/
theorem exists_upward {root x : NodeId} (hroot : t.documentParent? root = none)
    (hx : Inside t.layoutRun root x) :
    ∃ l, Upward t.documentParent? x l ∧ l.getLast? = some root ∧
      ∀ y ∈ l, Inside t.layoutRun root y := by
  induction hx with
  | refl => exact ⟨[root], .last hroot, rfl, by simpa using .refl⟩
  | @tail p c hp hc ih =>
    obtain ⟨l, hup, hlast, hmem⟩ := ih
    refine ⟨c :: l, .step (h.documentParent hc) hup, ?_, ?_⟩
    · rw [List.getLast?_cons, hlast]
      rfl
    · exact List.forall_mem_cons.2 ⟨hp.tail hc, hmem⟩

theorem ancestors_eq {root x : NodeId} (hlt : root < t.size) {l : List NodeId}
    (hup : Upward t.documentParent? x l) (hmem : ∀ y ∈ l, Inside t.layoutRun root y) :
    t.ancestors x = .ok l.tail := by
  have hlink : t.documentParent? = fun i ↦ (t.get? i).bind Node.documentParent := by
    funext i
    cases hn : t.get? i with
    | none => rw [NodeTree.documentParent?, NodeTree.links?, hn]; rfl
    | some n => exact NodeTree.documentParent?_of_get? hn
  rw [hlink] at hup
  rw [NodeTree.ancestors,
    NodeTree.chain_eq_of_upward hup fun y hy ↦ h.lt_size_of_inside hlt (hmem y hy)]
  rfl

/-- **The ancestors** of a node are what its links lead to. -/
theorem ancestors_of_upward {root x : NodeId} (hlt : root < t.size)
    (hroot : t.documentParent? root = none) (hx : Inside t.layoutRun root x) {above : List NodeId}
    (hup : Upward t.documentParent? x (x :: above)) : t.ancestors x = .ok above := by
  obtain ⟨l, hl, -, hmem⟩ := h.exists_upward hroot hx
  obtain rfl := hl.unique hup
  exact h.ancestors_eq hlt hup hmem

end LayoutForest

end ViewCompiler
