import Mathlib.Data.List.Flatten
import ViewCompiler.Proofs.Layout.Arrangement

/-!
# Classifying a run keeps a tree arranged

What a run is given is read off its decisions (`Classify.Decides`): its pending members and the new
groups get their render parents from the node and from groups of the run, so every new render parent
has a reason, and the run is settled afterwards (`Arranged.exists_run`). Every decision says in
which order its members come out, and nothing that is inside a node already is given another place.
-/

namespace ViewCompiler

/-- Where keys differ, a key finds one item. -/
theorem filter_eq_singleton {α β : Type} [DecidableEq β] {key : α → β} {l : List α} {a : α}
    (hnodup : (l.map key).Nodup) (ha : a ∈ l) : l.filter (fun b ↦ key b = key a) = [a] := by
  induction l with
  | nil => exact absurd ha List.not_mem_nil
  | cons b r ih =>
    rw [List.map_cons, List.nodup_cons] at hnodup
    rcases List.mem_cons.1 ha with rfl | ha
    · have hnone : r.filter (fun b ↦ key b = key a) = [] := by
        rw [List.filter_eq_nil_iff]
        intro b hb heq
        exact hnodup.1 (of_decide_eq_true heq ▸ List.mem_map_of_mem hb)
      simp [hnone]
    · have hne : key b ≠ key a := fun heq ↦ hnodup.1 (heq ▸ List.mem_map_of_mem ha)
      rw [List.filter_cons_of_neg (by simpa using hne), ih hnodup.2 ha]

namespace Classify.Decides

variable {t t' : NodeTree} {x : NodeId} {gs : List LayoutDecision} {last d : LayoutDecision}
  (h : Decides t x gs last t')

include h

/-- All new nodes are groups in the run. -/
theorem extended : Extended t t' where
  links := h.carried.links
  run i l hi hl := by
    obtain ⟨depth, hgroup⟩ := h.carried.groups i hi (NodeTree.lt_size_of_links? hl)
    rw [← Option.some.inj (hgroup.symm.trans hl)]

theorem pending_or_fresh (hd : d ∈ gs ++ [last]) {i : NodeId} (hi : i ∈ d.members) :
    i ∈ t.pending x ∨ t.size ≤ i ∧ i < t'.size := by
  refine h.realized.leaf_or_fresh ?_
  rcases List.mem_append.1 hd with hd | hd
  · exact .inl (Realized.mem_flatMap hd hi)
  · exact .inr (List.mem_singleton.1 hd ▸ hi)

theorem owner_cases (hd : d ∈ gs ++ [last]) :
    d.owner = x ∨ t.size ≤ d.owner ∧ d.owner < t'.size := by
  rcases List.mem_append.1 hd with hd | hd
  · exact .inr (h.realized.fresh d hd)
  · rw [List.mem_singleton.1 hd]
    exact .inl h.owner

theorem owner_lt (hx : x < t.size) (hd : d ∈ gs ++ [last]) {i : NodeId} (hi : i ∈ d.members)
    (hfresh : t.size ≤ i) : d.owner < i := by
  rcases List.mem_append.1 hd with hd | hd
  · exact h.realized.younger d hd i hi hfresh
  · rw [List.mem_singleton.1 hd, h.owner]
    exact Nat.lt_of_lt_of_le hx hfresh

theorem nodup_members (hopen : Open t (t.pending x)) :
    ((gs ++ [last]).flatMap LayoutDecision.members).Nodup := by
  refine h.once.nodup_iff.2 (hopen.1.append h.realized.owners fun i hi howner ↦ ?_)
  obtain ⟨e, he, rfl⟩ := List.mem_map.1 howner
  exact Nat.not_lt.2 (h.realized.fresh e he).1 (NodeTree.lt_size_of_mem_pending hi)

/-- The members of a decision come after what is inside its owner already. -/
theorem renderMembers_owner (hx : x < t.size) (hd : d ∈ gs ++ [last]) :
    t'.renderMembers d.owner = t.renderMembers d.owner ++ d.outputOrder := by
  have hone : (gs ++ [last]).filter (fun e ↦ e.owner = d.owner) = [d] :=
    filter_eq_singleton (h.owners hx) hd
  rw [h.carried.renderMembers, hone, List.flatMap_singleton]

/-- Nothing comes inside other nodes. -/
theorem renderMembers_eq {o : NodeId} (ho : o < t.size) (hne : o ≠ x) :
    t'.renderMembers o = t.renderMembers o := by
  have hnone : (gs ++ [last]).filter (fun e ↦ e.owner = o) = [] := by
    rw [List.filter_eq_nil_iff]
    intro d hd howner
    obtain rfl := of_decide_eq_true howner
    rcases h.owner_cases hd with heq | ⟨hfresh, -⟩
    · exact hne heq
    · exact Nat.not_lt.2 hfresh ho
  rw [h.carried.renderMembers, hnone, List.flatMap_nil, List.append_nil]

/-- **The members of a decision come out in the order that it says**, among what else is inside its
owner. -/
theorem ordered_owner (hx : x < t.size) (hd : d ∈ gs ++ [last]) :
    t'.Ordered d.owner d.outputOrder where
  inside := by
    rw [h.renderMembers_owner hx hd]
    exact List.sublist_append_right _ _
  sorted := List.pairwise_iff_getElem.2 fun i j hi hj hij ↦ by
    rw [h.carried.positions d hd i hi, h.carried.positions d hd j hj, NodeTree.positionLE,
      if_neg (by omega)]
    exact decide_eq_true (.inr (by omega))

/-- **What is inside a node already** is not given another place. -/
theorem widened (hplaced : ∀ o, ∀ c ∈ t.renderMembers o, ∃ p, t.renderParent? c = some p) :
    NodeTree.Widened t t' where
  members o := by
    rw [h.carried.renderMembers]
    exact List.sublist_append_left _ _
  position o c hc := h.carried.position c fun e he hmem ↦ by
    obtain ⟨p, hp⟩ := hplaced o c hc
    rw [h.carried.unplaced e he c hmem] at hp
    exact absurd hp (by simp)

/-- Nodes inside another one differ. -/
theorem nodup_renderMembers (hopen : Open t (t.pending x)) {o : NodeId}
    (hnodup : (t.renderMembers o).Nodup)
    (hplaced : ∀ c ∈ t.renderMembers o, ∃ p, t.renderParent? c = some p) :
    (t'.renderMembers o).Nodup := by
  rw [h.carried.renderMembers]
  refine hnodup.append ?_ fun c hc hc' ↦ ?_
  · have hperm : ((gs ++ [last]).flatMap LayoutDecision.outputOrder).Perm
        ((gs ++ [last]).flatMap LayoutDecision.members) :=
      .flatMap_left _ fun d hd ↦ (h.carried.output d hd).1
    exact (hperm.nodup_iff.2 (h.nodup_members hopen)).sublist
      (List.filter_sublist.flatMap LayoutDecision.outputOrder)
  · obtain ⟨d, hd, hc'⟩ := List.mem_flatMap.1 hc'
    have hd := (List.mem_filter.1 hd).1
    obtain ⟨p, hp⟩ := hplaced c hc
    rw [h.carried.unplaced d hd c ((h.carried.output d hd).1.mem_iff.1 hc')] at hp
    exact absurd hp (by simp)

theorem mem_renderMembers {o c : NodeId} : c ∈ t'.renderMembers o ↔
    c ∈ t.renderMembers o ∨ ∃ d ∈ gs ++ [last], c ∈ d.members ∧ d.owner = o := by
  rw [h.carried.renderMembers, List.mem_append, List.mem_flatMap]
  refine or_congr_right ⟨?_, ?_⟩
  · rintro ⟨d, hd, hc⟩
    obtain ⟨hd, howner⟩ := List.mem_filter.1 hd
    exact ⟨d, hd, (h.carried.output d hd).1.mem_iff.1 hc, of_decide_eq_true howner⟩
  · rintro ⟨d, hd, hc, howner⟩
    exact ⟨d, List.mem_filter.2 ⟨hd, decide_eq_true howner⟩,
      (h.carried.output d hd).1.mem_iff.2 hc⟩

/-- A new group is placed and has two members or more. -/
theorem placed_group (hx : x < t.size) {g : NodeId} (hnew : t.size ≤ g) (hlt : g < t'.size) :
    (∃ p, t'.renderParent? g = some p) ∧ 2 ≤ (t'.renderMembers g).length := by
  obtain ⟨d, hd, rfl⟩ := List.mem_map.1 (h.realized.decided g hnew hlt)
  obtain ⟨e, he, hmem⟩ := List.mem_flatMap.1
    (h.once.mem_iff.2 (List.mem_append_right _ (List.mem_map_of_mem hd)))
  have hd' := List.mem_append_left [last] hd
  refine ⟨⟨e.owner, (h.carried.renderParent _ _).2 (.inr ⟨e, he, hmem, rfl⟩)⟩, ?_⟩
  have hle := (h.ordered_owner hx hd').inside.length_le
  rw [(h.carried.output d hd').1.length_eq] at hle
  exact Nat.le_trans (h.realized.many d hd) hle

theorem group_of_fresh {i : NodeId} (hi : t.size ≤ i) (hi' : i < t'.size) :
    t'.kind? i = some .group ∧ t'.documentParent? i = some x := by
  obtain ⟨depth, hlinks⟩ := h.carried.groups i hi hi'
  rw [NodeTree.kind?, NodeTree.documentParent?, hlinks]
  exact ⟨rfl, rfl⟩

theorem isTop_iff {i : NodeId} : t'.isTop i = true ↔ t.isTop i = true := by
  rcases Nat.lt_or_ge i t.size with hold | hnew
  · rw [h.extended.isTop_eq hold]
  constructor
  · intro hi
    obtain ⟨l, hl, -⟩ := NodeTree.isTop_iff.1 hi
    have hgroup := (h.group_of_fresh hnew (NodeTree.lt_size_of_links? hl)).1
    rw [NodeTree.isTop_of_kind? hgroup] at hi
    exact absurd hi (by decide)
  · intro hi
    obtain ⟨l, hl, -⟩ := NodeTree.isTop_iff.1 hi
    exact absurd (NodeTree.lt_size_of_links? hl) (Nat.not_lt.2 hnew)

/-- **Every new render parent has a reason**: the run of the node is settled. -/
theorem explained {moved : List (NodeId × NodeId)} {settled : List NodeId}
    (hforest : LayoutForest t) (hx : x < t.size) (hd : d ∈ gs ++ [last]) {c : NodeId}
    (hc : c ∈ d.members) : Explained moved (x :: settled) t' c d.owner := by
  have hcases := h.pending_or_fresh hd hc
  refine .settled x List.mem_cons_self ?_ ?_ ?_
  · rcases hcases with hrun | ⟨hnew, hlt⟩
    · exact h.extended.documentParent?_eq (hforest.documentParent (List.mem_filter.1 hrun).1)
    · exact (h.group_of_fresh hnew hlt).2
  · rw [h.extended.layoutRun_eq]
    rcases hcases with hrun | ⟨hnew, hlt⟩
    · exact .inr (List.mem_filter.1 hrun).1
    · exact .inl ⟨(h.group_of_fresh hnew hlt).1, h.owner_lt hx hd hc hnew⟩
  · exact (h.owner_cases hd).imp_right fun ho ↦ h.group_of_fresh ho.1 ho.2

/-- **The run of a node is settled.** -/
theorem arranged {moved : List (NodeId × NodeId)} {settled : List NodeId} {k : NodeKind}
    (ha : Arranged moved settled t) (hkind : t.kind? x = some k) (hgroup : k ≠ .group)
    (hhost : k ≠ .host) : Arranged moved (x :: settled) t' := by
  have hext := h.extended
  have hx := NodeTree.lt_size_of_kind? hkind
  have hold : ∀ {c}, (∃ p, t.renderParent? c = some p) → ∃ p, t'.renderParent? c = some p := by
    rintro c ⟨p, hp⟩
    exact ⟨p, (h.carried.renderParent c p).2 (.inl hp)⟩
  exact {
    forest := hext.layoutForest ha.forest
    top := fun i l hl htop ↦ by
      have htop' := h.isTop_iff.1 (NodeTree.isTop_iff.2 ⟨l, hl, htop⟩)
      obtain ⟨l₀, hl₀, -⟩ := NodeTree.isTop_iff.1 htop'
      rw [hext.links i (NodeTree.lt_size_of_links? hl₀)] at hl
      exact ha.top i l hl htop
    settles := fun d hd ↦ by
      rcases List.mem_cons.1 hd with rfl | hd
      · exact ⟨k, hext.kind?_eq hkind, hgroup, hhost⟩
      · obtain ⟨k, hk, hkinds⟩ := ha.settles d hd
        exact ⟨k, hext.kind?_eq hk, hkinds⟩
    moves := fun y q hy ↦ by
      obtain ⟨hq, hkinds⟩ := ha.moves y q hy
      rw [hext.kind?_eq_of_lt (NodeTree.lt_size_of_renderParent? hq)]
      exact ⟨(h.carried.renderParent y q).2 (.inl hq), hkinds⟩
    mem_iff := fun q c ↦ by
      rw [h.mem_renderMembers, ha.mem_iff, h.carried.renderParent]
    nodup := fun q ↦ h.nodup_renderMembers (ha.open_pending x) (ha.nodup q) fun c hc ↦
      ⟨q, (ha.mem_iff q c).1 hc⟩
    rendered := fun i ↦ by
      rw [h.carried.isRendered, ha.rendered, h.isTop_iff]
      simp only [h.carried.renderParent, exists_or, or_assoc]
      refine or_congr_right (or_congr_right ⟨?_, ?_⟩)
      · rintro ⟨d, hd, hi⟩
        exact ⟨d.owner, d, hd, hi, rfl⟩
      · rintro ⟨_, d, hd, hi, _⟩
        exact ⟨d, hd, hi⟩
    explained := fun c q hc ↦ by
      rcases (h.carried.renderParent c q).1 hc with hc | ⟨d, hd, hmem, rfl⟩
      · exact (ha.explained c q hc).mono hext (List.Subset.refl _) (List.subset_cons_self _ _)
      · exact h.explained ha.forest hx hd hmem
    covered := fun d hd c hc ↦ by
      rw [hext.layoutRun_eq] at hc
      rcases List.mem_cons.1 hd with rfl | hd
      · by_cases hpending : c ∈ t.pending d
        · obtain ⟨e, he, hmem⟩ := List.mem_flatMap.1
            (h.once.mem_iff.2 (List.mem_append_left _ hpending))
          exact ⟨e.owner, (h.carried.renderParent c e.owner).2 (.inr ⟨e, he, hmem, rfl⟩)⟩
        · exact hold (ha.placed_of_not_mem_pending hc hpending)
      · exact hold (ha.covered d hd c hc)
    group := fun g hg ↦ by
      rcases Nat.lt_or_ge g t.size with hlt | hnew
      · obtain ⟨hp, hmany, d, hd, hparent⟩ := ha.group g (hext.kind?_eq_of_lt hlt ▸ hg)
        refine ⟨hold hp, ?_, d, List.mem_cons_of_mem _ hd, hext.documentParent?_eq hparent⟩
        rw [h.carried.renderMembers, List.length_append]
        exact Nat.le_add_right_of_le hmany
      · have hlt := NodeTree.lt_size_of_kind? hg
        obtain ⟨hp, hmany⟩ := h.placed_group hx hnew hlt
        exact ⟨hp, hmany, x, List.mem_cons_self, (h.group_of_fresh hnew hlt).2⟩ }

end Classify.Decides

/-- **The run of a node is classified**, and the decisions say in which order it comes out. -/
theorem Arranged.exists_run {moved : List (NodeId × NodeId)} {settled : List NodeId}
    {t : NodeTree} (h : Arranged moved settled t) (c : LayoutConfig) {x : NodeId} {k : NodeKind}
    (hkind : t.kind? x = some k) (hgroup : k ≠ .group) (hhost : k ≠ .host) :
    ∃ ds t', Classify.run c t x = .ok (⟨ds, []⟩, t') ∧ Arranged moved (x :: settled) t' ∧
      Extended t t' ∧ NodeTree.Widened t t' ∧ ∀ d ∈ ds, t'.Ordered d.owner d.outputOrder := by
  have hlt := NodeTree.lt_size_of_kind? hkind
  by_cases hpending : t.pending x = []
  · exact ⟨[], t, Classify.run_of_pending_eq_nil c hlt hpending,
      h.settle hkind hgroup hhost hpending, .of_links fun _ ↦ rfl, .refl t, by simp⟩
  obtain ⟨gs, last, t', hok, hdecides⟩ := Classify.exists_run c hlt (h.open_pending x) hpending
  exact ⟨gs ++ [last], t', hok, hdecides.arranged h hkind hgroup hhost, hdecides.extended,
    hdecides.widened fun o c hc ↦ ⟨o, (h.mem_iff o c).1 hc⟩,
    fun d hd ↦ hdecides.ordered_owner hlt hd⟩

end ViewCompiler
