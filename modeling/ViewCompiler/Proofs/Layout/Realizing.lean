import Mathlib.Data.List.Nodup
import ViewCompiler.Proofs.Layout.Plans
import ViewCompiler.Proofs.Layout.Settling

/-!
# Plans carried out

Carrying out a plan makes a node for each group in it and settles the group after everything inside
has been settled. `Realized` says what comes of it in terms of the decisions: every leaf and every
new group is a member of exactly one container or is answered for the container around, groups have
two members or more, and the decision on a group comes before that on what it is in.

The induction follows the plan (`Classify.exists_realize`). What carries it is that the new nodes of
different parts have different numbers, and that a leaf is without a render parent until its own
container is settled.
-/

namespace ViewCompiler

/-! ### Decisions in order -/

/-- Every owner is a member of a later container, or one of the nodes answered for the container
around. -/
def Awaited : List LayoutDecision → List NodeId → Prop
  | [], _ => True
  | d :: r, ids => (d.owner ∈ r.flatMap LayoutDecision.members ∨ d.owner ∈ ids) ∧ Awaited r ids

namespace Awaited

variable {ds ds' : List LayoutDecision} {ids ids' : List NodeId}

theorem mono (h : Awaited ds ids) (hids : ids ⊆ ids') : Awaited ds ids' := by
  induction ds with
  | nil => trivial
  | cons d r ih => exact ⟨h.1.imp_right fun hmem ↦ hids hmem, ih h.2⟩

theorem append (h : Awaited ds ids) (h' : Awaited ds' ids) : Awaited (ds ++ ds') ids := by
  induction ds with
  | nil => exact h'
  | cons d r ih =>
    refine ⟨h.1.imp_left fun hmem ↦ ?_, ih h.2⟩
    obtain ⟨e, he, hmem⟩ := List.mem_flatMap.1 hmem
    exact List.mem_flatMap.2 ⟨e, List.mem_append_left _ he, hmem⟩

/-- The answered nodes become members of the container that is settled next. -/
theorem settle (h : Awaited ds ids) {d : LayoutDecision} (hmembers : d.members = ids) :
    Awaited (ds ++ [d]) [d.owner] := by
  induction ds with
  | nil => exact ⟨.inr (List.mem_singleton_self _), trivial⟩
  | cons e r ih =>
    refine ⟨.inl (List.mem_flatMap.2 ?_), ih h.2⟩
    rcases h.1 with hmem | hmem
    · obtain ⟨e', he', hmem⟩ := List.mem_flatMap.1 hmem
      exact ⟨e', List.mem_append_left _ he', hmem⟩
    · exact ⟨d, List.mem_append_right _ (List.mem_singleton_self d), hmembers ▸ hmem⟩

theorem mem_of_eq_append (h : Awaited ds ids) {before after : List LayoutDecision}
    {d : LayoutDecision} (heq : ds = before ++ d :: after) :
    d.owner ∈ after.flatMap LayoutDecision.members ∨ d.owner ∈ ids := by
  induction before generalizing ds with
  | nil => subst heq; exact h.1
  | cons e r ih => subst heq; exact ih h.2 rfl

end Awaited

/-! ### What comes of a plan -/

/-- What comes of carrying out plans with some leaves: nodes for the container around, and the
decisions on all containers inside. -/
structure Realized (t : NodeTree) (leaves ids : List NodeId) (ds : List LayoutDecision)
    (t' : NodeTree) : Prop where
  synthetic : ∀ d ∈ ds, d.synthetic = true
  fresh : ∀ d ∈ ds, t.size ≤ d.owner ∧ d.owner < t'.size
  owners : (ds.map LayoutDecision.owner).Nodup
  /-- Every new node is the owner of a decision. -/
  decided : ∀ i, t.size ≤ i → i < t'.size → i ∈ ds.map LayoutDecision.owner
  many : ∀ d ∈ ds, 2 ≤ d.members.length
  /-- Leaves and groups are members or answered, each once. -/
  once : (ds.flatMap LayoutDecision.members ++ ids).Perm (leaves ++ ds.map LayoutDecision.owner)
  awaited : Awaited ds ids
  /-- A group inside another one is younger. -/
  younger : ∀ d ∈ ds, ∀ i ∈ d.members, t.size ≤ i → d.owner < i

namespace Realized

variable {t t' t'' : NodeTree} {leaves leaves' ids ids' : List NodeId}
  {ds ds' : List LayoutDecision}

/-- A member or an answered node is a leaf or a new node. -/
theorem leaf_or_fresh (h : Realized t leaves ids ds t') {i : NodeId}
    (hi : i ∈ ds.flatMap LayoutDecision.members ∨ i ∈ ids) :
    i ∈ leaves ∨ t.size ≤ i ∧ i < t'.size := by
  have hmem := h.once.mem_iff.1 (List.mem_append.2 hi)
  rcases List.mem_append.1 hmem with hleaf | howner
  · exact .inl hleaf
  · obtain ⟨d, hd, rfl⟩ := List.mem_map.1 howner
    exact .inr (h.fresh d hd)

theorem mem_flatMap {d : LayoutDecision} (hd : d ∈ ds) {i : NodeId} (hi : i ∈ d.members) :
    i ∈ ds.flatMap LayoutDecision.members :=
  List.mem_flatMap.2 ⟨d, hd, hi⟩

theorem nil (t : NodeTree) : Realized t [] [] [] t where
  synthetic _ hd := absurd hd List.not_mem_nil
  fresh _ hd := absurd hd List.not_mem_nil
  owners := .nil
  decided _ hi hi' := absurd hi' (Nat.not_lt.2 hi)
  many _ hd := absurd hd List.not_mem_nil
  once := .refl _
  awaited := trivial
  younger _ hd := absurd hd List.not_mem_nil

/-- A leaf is answered as it is. -/
theorem leaf (t : NodeTree) (id : NodeId) : Realized t [id] [id] [] t :=
  { nil t with once := .refl _, awaited := trivial }

/-- **Plans carried out one after another.** -/
theorem append (h : Realized t leaves ids ds t') (h' : Realized t' leaves' ids' ds' t'')
    (hsize : t.size ≤ t'.size) (hsize' : t'.size ≤ t''.size)
    (hleaves' : ∀ i ∈ leaves', i < t.size) :
    Realized t (leaves ++ leaves') (ids ++ ids') (ds ++ ds') t'' where
  synthetic d hd := (List.mem_append.1 hd).elim (h.synthetic d) (h'.synthetic d)
  fresh d hd := by
    rcases List.mem_append.1 hd with hd | hd
    · exact ⟨(h.fresh d hd).1, Nat.lt_of_lt_of_le (h.fresh d hd).2 hsize'⟩
    · exact ⟨Nat.le_trans hsize (h'.fresh d hd).1, (h'.fresh d hd).2⟩
  owners := by
    rw [List.map_append]
    refine h.owners.append h'.owners fun i hi hi' ↦ ?_
    obtain ⟨d, hd, rfl⟩ := List.mem_map.1 hi
    obtain ⟨d', hd', heq⟩ := List.mem_map.1 hi'
    have hlt := Nat.lt_of_lt_of_le (h.fresh d hd).2 (h'.fresh d' hd').1
    exact absurd heq (Nat.ne_of_gt hlt)
  decided i hi hi'' := by
    rw [List.map_append, List.mem_append]
    rcases Nat.lt_or_ge i t'.size with hi' | hi'
    · exact .inl (h.decided i hi hi')
    · exact .inr (h'.decided i hi' hi'')
  many d hd := (List.mem_append.1 hd).elim (h.many d) (h'.many d)
  once := by
    have hboth := h.once.append h'.once
    rw [List.perm_iff_count] at hboth ⊢
    intro i
    have hcount := hboth i
    simp only [List.flatMap_append, List.map_append, List.count_append] at hcount ⊢
    omega
  awaited := (h.awaited.mono (List.subset_append_left _ _)).append
    (h'.awaited.mono (List.subset_append_right _ _))
  younger d hd i hi hfresh := by
    rcases List.mem_append.1 hd with hd | hd
    · exact h.younger d hd i hi hfresh
    · rcases h'.leaf_or_fresh (.inl (mem_flatMap hd hi)) with hleaf | ⟨hi', -⟩
      · exact absurd (hleaves' i hleaf) (Nat.not_lt.2 hfresh)
      · exact h'.younger d hd i hi hi'

/-- **A group around what has been carried out.** The node of the group is made before the nodes of
the groups inside. -/
theorem group {t₁ : NodeTree} (h : Realized t₁ leaves ids ds t') (hsize : t₁.size = t.size + 1)
    (hsize' : t₁.size ≤ t'.size) (hleaves : ∀ i ∈ leaves, i < t.size) {d : LayoutDecision}
    (howner : d.owner = t.size) (hsynthetic : d.synthetic = true) (hmembers : d.members = ids)
    (hmany : 2 ≤ ids.length) (hend : t''.size = t'.size) :
    Realized t leaves [t.size] (ds ++ [d]) t'' where
  synthetic e he := (List.mem_append.1 he).elim (h.synthetic e)
    fun he ↦ List.mem_singleton.1 he ▸ hsynthetic
  fresh e he := by
    rw [hend]
    rcases List.mem_append.1 he with he | he
    · exact ⟨Nat.le_trans (by omega) (h.fresh e he).1, (h.fresh e he).2⟩
    · rw [List.mem_singleton.1 he, howner]
      rw [hsize] at hsize'
      exact ⟨Nat.le_refl _, hsize'⟩
  owners := by
    rw [List.map_append, List.map_singleton, howner]
    refine h.owners.append (List.nodup_singleton _) fun i hi hi' ↦ ?_
    obtain ⟨e, he, rfl⟩ := List.mem_map.1 hi
    have hfresh := (h.fresh e he).1
    rw [List.mem_singleton.1 hi', hsize] at hfresh
    exact Nat.not_succ_le_self _ hfresh
  decided i hi hi' := by
    rw [List.map_append, List.mem_append, List.map_singleton, List.mem_singleton, howner]
    rcases Nat.eq_or_lt_of_le hi with heq | hlt
    · exact .inr heq.symm
    · exact .inl (h.decided i (hsize ▸ hlt) (hend ▸ hi'))
  many e he := by
    rcases List.mem_append.1 he with he | he
    · exact h.many e he
    · rw [List.mem_singleton.1 he, hmembers]
      exact hmany
  once := by
    rw [List.flatMap_append, List.flatMap_singleton, hmembers, List.map_append,
      List.map_singleton, howner, ← List.append_assoc leaves]
    exact h.once.append_right _
  awaited := by
    rw [← howner]
    exact h.awaited.settle hmembers
  younger e he i hi hfresh := by
    have hgroup : i ∈ ds.flatMap LayoutDecision.members ∨ i ∈ ids := by
      rcases List.mem_append.1 he with he | he
      · exact .inl (mem_flatMap he hi)
      · rw [List.mem_singleton.1 he, hmembers] at hi
        exact .inr hi
    have hinner : t₁.size ≤ i := by
      rcases h.leaf_or_fresh hgroup with hleaf | ⟨hi', -⟩
      · exact absurd (hleaves i hleaf) (Nat.not_lt.2 hfresh)
      · exact hi'
    rcases List.mem_append.1 he with he | he
    · exact h.younger e he i hi hinner
    · rw [List.mem_singleton.1 he, howner]
      rw [hsize] at hinner
      exact hinner

end Realized

namespace ClassifyOutcome

theorem append_assoc (o o' o'' : ClassifyOutcome) :
    (o.append o').append o'' = o.append (o'.append o'') := by
  simp [append]

theorem append_empty (o : ClassifyOutcome) : o.append ⟨[], []⟩ = o := by
  rw [append, List.append_nil, List.append_nil]

theorem append_append (o : ClassifyOutcome) (ds ds' : List LayoutDecision) :
    (o.append ⟨ds, []⟩).append ⟨ds', []⟩ = o.append ⟨ds ++ ds', []⟩ := by
  simp [append]

end ClassifyOutcome

namespace Classify

/-- Leaves that can be given a place. -/
def Open (t : NodeTree) (ids : List NodeId) : Prop :=
  ids.Nodup ∧ ∀ i ∈ ids, i < t.size ∧ t.renderParent? i = none

theorem Open.sublist {t : NodeTree} {ids ids' : List NodeId} (h : Open t ids)
    (hsub : ids'.Sublist ids) : Open t ids' :=
  ⟨h.1.sublist hsub, fun i hi ↦ h.2 i (hsub.subset hi)⟩

/-- Leaves that are not among what has been carried out can still be given a place. -/
theorem Open.carried {parent : NodeId} {t t' : NodeTree} {leaves ids rest : List NodeId}
    {ds : List LayoutDecision} (hopen : Open t (leaves ++ rest)) (hc : Carried parent ds t t')
    (hr : Realized t leaves ids ds t') : Open t' rest := by
  refine ⟨(hopen.sublist (List.sublist_append_right _ _)).1, fun i hi ↦ ?_⟩
  obtain ⟨hlt, hnone⟩ := hopen.2 i (List.mem_append_right _ hi)
  refine ⟨Nat.lt_of_lt_of_le hlt hc.size_le, Option.eq_none_iff_forall_ne_some.2 fun o ho ↦ ?_⟩
  rcases (hc.renderParent i o).1 ho with hold | ⟨d, hd, hmem, -⟩
  · rw [hnone] at hold
    exact absurd hold (by simp)
  · rcases hr.leaf_or_fresh (.inl (Realized.mem_flatMap hd hmem)) with hleaf | ⟨hfresh, -⟩
    · exact (List.nodup_append'.1 hopen.1).2.2 hleaf hi
    · exact absurd hlt (Nat.not_lt.2 hfresh)

/-- What is answered for the container around can be given a place. -/
theorem Open.answered {parent : NodeId} {t t' : NodeTree} {leaves ids : List NodeId}
    {ds : List LayoutDecision} (hopen : Open t leaves) (hc : Carried parent ds t t')
    (hr : Realized t leaves ids ds t') : Open t' ids := by
  have hnodup : (ds.flatMap LayoutDecision.members ++ ids).Nodup := by
    refine hr.once.nodup_iff.2 (hopen.1.append hr.owners fun i hi howner ↦ ?_)
    obtain ⟨d, hd, rfl⟩ := List.mem_map.1 howner
    exact absurd (hopen.2 _ hi).1 (Nat.not_lt.2 (hr.fresh d hd).1)
  refine ⟨(List.nodup_append'.1 hnodup).2.1, fun i hi ↦ ?_⟩
  have hnone : t.renderParent? i = none ∧ i < t'.size := by
    rcases hr.leaf_or_fresh (.inr hi) with hleaf | ⟨hfresh, hlt⟩
    · exact ⟨(hopen.2 i hleaf).2, Nat.lt_of_lt_of_le (hopen.2 i hleaf).1 hc.size_le⟩
    · exact ⟨by rw [NodeTree.renderParent?, NodeTree.place_eq_blank hfresh]; rfl, hlt⟩
  refine ⟨hnone.2, Option.eq_none_iff_forall_ne_some.2 fun o ho ↦ ?_⟩
  rcases (hc.renderParent i o).1 ho with hold | ⟨d, hd, hmem, -⟩
  · rw [hnone.1] at hold
    exact absurd hold (by simp)
  · exact (List.nodup_append'.1 hnodup).2.2 (Realized.mem_flatMap hd hmem) hi

variable (c : LayoutConfig) {parent : NodeId}

/-- A group is made before its members, and settled after them. -/
theorem realize_group {s s' : State} {a : Arrangement} {members : List Plan} {id : NodeId}
    {t : NodeTree} {ids : List NodeId} (halloc : s.tree.allocGroup parent ((Rect.unionAll?
      ((s.tree.lookup (leavesOfAll members)).map Node.bounds)).getD .zero) = .ok (id, t))
    (hall : realizeAll c parent ⟨t, s.outcome⟩ members = .ok (ids, s')) :
    realize c parent s (.group a members) = .ok (id, settle c id true a ids s') := by
  rw [realize]
  simp only [halloc, hall, bind, Except.bind, pure, Except.pure]

theorem realizeAll_cons {s s₁ s₂ : State} {p : Plan} {r : List Plan} {id : NodeId}
    {ids : List NodeId} (hfirst : realize c parent s p = .ok (id, s₁))
    (hrest : realizeAll c parent s₁ r = .ok (ids, s₂)) :
    realizeAll c parent s (p :: r) = .ok (id :: ids, s₂) := by
  rw [realizeAll]
  simp only [hfirst, hrest, bind, Except.bind, pure, Except.pure]

mutual

/-- **A plan is carried out.** -/
theorem exists_realize : ∀ (p : Plan) (s : State), p.Wide → parent < s.tree.size →
    Open s.tree p.leaves → ∃ id t' ds,
      realize c parent s p = .ok (id, ⟨t', s.outcome.append ⟨ds, []⟩⟩) ∧
        Carried parent ds s.tree t' ∧ Realized s.tree p.leaves [id] ds t'
  | .member id, s, _, _, _ =>
    ⟨id, s.tree, [], by rw [realize, ClassifyOutcome.append_empty], .of_unmoved (.refl s.tree),
      .leaf s.tree id⟩
  | .group a members, s, hwide, hparent, hopen => by
    obtain ⟨t₁, halloc, hsize, hlinks, hgroup, hplace⟩ := NodeTree.exists_allocGroup hparent
      ((Rect.unionAll? ((s.tree.lookup (leavesOfAll members)).map Node.bounds)).getD .zero)
    have hmade : Carried parent [] s.tree t₁ := by
      refine .of_place (hsize ▸ Nat.le_succ _) hlinks (fun i hi hi' ↦ ?_) hplace
      rw [hsize] at hi'
      rw [Nat.le_antisymm (Nat.le_of_lt_succ hi') hi]
      exact hgroup
    have hopen₁ : Open t₁ (leavesOfAll members) :=
      ⟨hopen.1, fun i hi ↦ ⟨Nat.lt_of_lt_of_le (hopen.2 i hi).1 hmade.size_le, by
        rw [NodeTree.renderParent?, hplace]
        exact (hopen.2 i hi).2⟩⟩
    obtain ⟨ids, t₂, ds, hrealize, hlength, hcarried, hrealized⟩ := exists_realizeAll members
      ⟨t₁, s.outcome⟩ hwide.2 (hsize ▸ Nat.lt_succ_of_lt hparent) hopen₁
    have hopen₂ := hopen₁.answered hcarried hrealized
    have howner : s.tree.size < t₂.size :=
      Nat.lt_of_lt_of_le (hsize ▸ Nat.lt_succ_self _) hcarried.size_le
    obtain ⟨d, t₃, hsettle, hdowner, hdsynthetic, hdmembers, hend, hdcarried⟩ :=
      exists_settle c parent true a ⟨t₂, s.outcome.append ⟨ds, []⟩⟩ hopen₂.1 howner hopen₂.2
    refine ⟨s.tree.size, t₃, ds ++ [d], ?_, (hmade.trans hcarried).trans hdcarried,
      hrealized.group hsize hcarried.size_le (fun i hi ↦ (hopen.2 i hi).1) hdowner hdsynthetic
        hdmembers (hlength ▸ hwide.1) hend⟩
    rw [realize_group c halloc hrealize, hsettle, ClassifyOutcome.append_append]

/-- Plans are carried out one after another. -/
theorem exists_realizeAll : ∀ (ps : List Plan) (s : State), WideAll ps → parent < s.tree.size →
    Open s.tree (leavesOfAll ps) → ∃ ids t' ds,
      realizeAll c parent s ps = .ok (ids, ⟨t', s.outcome.append ⟨ds, []⟩⟩) ∧
        ids.length = ps.length ∧ Carried parent ds s.tree t' ∧
        Realized s.tree (leavesOfAll ps) ids ds t'
  | [], s, _, _, _ =>
    ⟨[], s.tree, [], by rw [realizeAll, ClassifyOutcome.append_empty], rfl,
      .of_unmoved (.refl s.tree), .nil s.tree⟩
  | p :: r, s, hwide, hparent, hopen => by
    obtain ⟨id, t₁, ds, hfirst, hcarried, hrealized⟩ := exists_realize p s hwide.1 hparent
      (hopen.sublist (List.sublist_append_left _ _))
    have hopen₁ := Open.carried hopen hcarried hrealized
    obtain ⟨ids, t₂, ds', hrest, hlength, hcarried', hrealized'⟩ := exists_realizeAll r
      ⟨t₁, s.outcome.append ⟨ds, []⟩⟩ hwide.2 (Nat.lt_of_lt_of_le hparent hcarried.size_le) hopen₁
    refine ⟨id :: ids, t₂, ds ++ ds', ?_, by rw [List.length_cons, hlength, List.length_cons],
      hcarried.trans hcarried', hrealized.append hrealized' hcarried.size_le hcarried'.size_le
        fun i hi ↦ (hopen.2 i (List.mem_append_right _ hi)).1⟩
    rw [realizeAll_cons c hfirst hrest, ClassifyOutcome.append_append]

end

end Classify

end ViewCompiler
