import ViewCompiler.Layout.Classify
import ViewCompiler.Proofs.Layout.Links

/-!
# One container

`Classify.settle` gives the members of a container their places, one after another. As long as the
members are different nodes without a render parent, none is skipped: the members are placed in the
order of output, and their places are numbered from zero (`Classify.exists_settle`).

`Carried` says what a list of decisions changes in a tree, in terms of the decisions alone, so that
what was done for a list of containers can be read off their decisions. It is closed under putting
lists together (`Carried.trans`): a node that got its place in the first part is not placed again in
the second, since it has a render parent by then.
-/

namespace ViewCompiler

/-- What the decisions on containers in a node's run change in a tree. -/
structure Carried (parent : NodeId) (ds : List LayoutDecision) (t t' : NodeTree) : Prop where
  size_le : t.size ≤ t'.size
  links : ∀ i < t.size, t'.links? i = t.links? i
  /-- All new nodes are groups in the run. -/
  groups : ∀ i, t.size ≤ i → i < t'.size →
    ∃ depth, t'.links? i = some ⟨.group, depth, false, some parent, [], []⟩
  output : ∀ d ∈ ds, d.outputOrder.Perm d.members ∧ d.members.Nodup
  unplaced : ∀ d ∈ ds, ∀ i ∈ d.members, t.renderParent? i = none
  renderParent : ∀ i o, t'.renderParent? i = some o ↔
    t.renderParent? i = some o ∨ ∃ d ∈ ds, i ∈ d.members ∧ d.owner = o
  isRendered : ∀ i, t'.isRendered i = true ↔ t.isRendered i = true ∨ ∃ d ∈ ds, i ∈ d.members
  renderMembers : ∀ o, t'.renderMembers o =
    t.renderMembers o ++ (ds.filter fun d ↦ d.owner = o).flatMap LayoutDecision.outputOrder
  positions : ∀ d ∈ ds, ∀ j (h : j < d.outputOrder.length), t'.position d.outputOrder[j] = j
  position : ∀ i, (∀ d ∈ ds, i ∉ d.members) → t'.position i = t.position i

namespace Carried

variable {parent : NodeId} {ds ds' : List LayoutDecision} {t t' t'' : NodeTree}

/-- Groups that are made and not placed. -/
theorem of_place (hsize : t.size ≤ t'.size) (hlinks : ∀ i < t.size, t'.links? i = t.links? i)
    (hgroups : ∀ i, t.size ≤ i → i < t'.size →
      ∃ depth, t'.links? i = some ⟨.group, depth, false, some parent, [], []⟩)
    (hplace : ∀ i, t'.place i = t.place i) : Carried parent [] t t' where
  size_le := hsize
  links := hlinks
  groups := hgroups
  output _ hd := absurd hd List.not_mem_nil
  unplaced _ hd := absurd hd List.not_mem_nil
  renderParent i o := by simp [NodeTree.renderParent?, hplace]
  isRendered i := by simp [NodeTree.isRendered, hplace]
  renderMembers o := by simp [NodeTree.renderMembers, hplace]
  positions _ hd := absurd hd List.not_mem_nil
  position i _ := by rw [NodeTree.position_eq_place, NodeTree.position_eq_place, hplace]

theorem of_unmoved (h : NodeTree.Unmoved t t') : Carried parent [] t t' :=
  .of_place (Nat.le_of_eq h.size_eq.symm) (fun i _ ↦ h.links i)
    (fun _ hi hi' ↦ absurd (h.size_eq ▸ hi') (Nat.not_lt.2 hi)) h.place

/-- A node that is placed in one part is not placed again in the next. -/
theorem not_mem_of_mem (h : Carried parent ds t t') (h' : Carried parent ds' t' t'')
    {d d' : LayoutDecision} (hd : d ∈ ds) (hd' : d' ∈ ds') {i : NodeId} (hi : i ∈ d.members) :
    i ∉ d'.members := fun hi' ↦ by
  have hplaced := (h.renderParent i d.owner).2 (.inr ⟨d, hd, hi, rfl⟩)
  rw [h'.unplaced d' hd' i hi'] at hplaced
  exact absurd hplaced (by simp)

/-- **What is carried out in two parts.** -/
theorem trans (h : Carried parent ds t t') (h' : Carried parent ds' t' t'') :
    Carried parent (ds ++ ds') t t'' where
  size_le := Nat.le_trans h.size_le h'.size_le
  links i hi := (h'.links i (Nat.lt_of_lt_of_le hi h.size_le)).trans (h.links i hi)
  groups i hi hi'' := by
    rcases Nat.lt_or_ge i t'.size with hi' | hi'
    · rw [h'.links i hi']
      exact h.groups i hi hi'
    · exact h'.groups i hi' hi''
  output d hd := by
    rcases List.mem_append.1 hd with hd | hd
    · exact h.output d hd
    · exact h'.output d hd
  unplaced d hd i hi := by
    rcases List.mem_append.1 hd with hd | hd
    · exact h.unplaced d hd i hi
    · cases hi' : t.renderParent? i with
      | none => rfl
      | some o =>
        have hplaced := (h.renderParent i o).2 (.inl hi')
        rw [h'.unplaced d hd i hi] at hplaced
        exact absurd hplaced (by simp)
  renderParent i o := by
    rw [h'.renderParent, h.renderParent]
    simp only [List.mem_append, or_assoc, or_and_right, exists_or]
  isRendered i := by
    rw [h'.isRendered, h.isRendered]
    simp only [List.mem_append, or_assoc, or_and_right, exists_or]
  renderMembers o := by
    rw [h'.renderMembers, h.renderMembers, List.filter_append, List.flatMap_append,
      List.append_assoc]
  positions d hd j hj := by
    rcases List.mem_append.1 hd with hd | hd
    · rw [h'.position _ fun d' hd' ↦ h.not_mem_of_mem h' hd hd' ?_]
      · exact h.positions d hd j hj
      · exact (h.output d hd).1.mem_iff.1 (List.getElem_mem hj)
    · exact h'.positions d hd j hj
  position i hi := by
    rw [h'.position i fun d hd ↦ hi d (List.mem_append_right _ hd),
      h.position i fun d hd ↦ hi d (List.mem_append_left _ hd)]

end Carried

namespace Classify

variable {t : NodeTree} {owner : NodeId}

/-! ### Placing members -/

/-- One member gets the next place. -/
theorem exists_placeMember {i : NodeId} (hi : i < t.size) (howner : owner < t.size)
    (hnone : t.renderParent? i = none) (placed : List NodeId)
    (skipped : List (NodeId × TreeError)) :
    ∃ t', placeMember owner ⟨t, placed, skipped⟩ i = ⟨t', placed ++ [i], skipped⟩ ∧
      NodeTree.Attached owner [i] t t' ∧ t'.position i = placed.length := by
  obtain ⟨t₁, hset, hattached, -⟩ := NodeTree.exists_setRenderParent hi howner hnone
  have hi' : i < t₁.size := by
    rw [hattached.size_eq]
    exact hi
  have hplace := fun k ↦ NodeTree.place_modify
    (f := fun n ↦ { n with renderPosition := placed.length })
    (g := fun l ↦ { l with renderPosition := placed.length }) (fun n ↦ rfl) hi' k
  refine ⟨t₁.modify i fun n ↦ { n with renderPosition := placed.length }, ?_, ?_, ?_⟩
  · rw [placeMember]
    simp only [hset]
  · refine ⟨fun k ↦ ?_, fun k ↦ ?_, fun k ↦ ?_, fun k ↦ ?_, fun k hk ↦ ?_⟩
    · exact (NodeTree.links?_modify t₁ (f := fun n ↦ { n with renderPosition := placed.length })
        (fun n ↦ rfl) i k).trans (hattached.links k)
    · rw [← hattached.renderParent? k, NodeTree.renderParent?, hplace]
      split <;> rfl
    · rw [← hattached.isRendered k, NodeTree.isRendered, hplace]
      split <;> rfl
    · rw [← hattached.renderMembers k, NodeTree.renderMembers, hplace]
      split <;> rfl
    · have hne : k ≠ i := fun heq ↦ hk (List.mem_singleton.2 heq)
      rw [← hattached.position k hk, NodeTree.position_eq_place, hplace, if_neg hne,
        NodeTree.position_eq_place]
  · rw [NodeTree.position_eq_place, hplace, if_pos rfl]

/-- **No member is skipped, and the places are numbered in the order of output.** -/
theorem exists_placeMembers {out : List NodeId} (hnodup : out.Nodup) (howner : owner < t.size)
    (hopen : ∀ i ∈ out, i < t.size ∧ t.renderParent? i = none) (placed : List NodeId)
    (skipped : List (NodeId × TreeError)) :
    ∃ t', out.foldl (placeMember owner) ⟨t, placed, skipped⟩ = ⟨t', placed ++ out, skipped⟩ ∧
      NodeTree.Attached owner out t t' ∧
      ∀ j (h : j < out.length), t'.position out[j] = placed.length + j := by
  induction out generalizing t placed with
  | nil => exact ⟨t, by simp, .of_unmoved (.refl t) owner, fun j h ↦ absurd h (Nat.not_lt_zero j)⟩
  | cons i r ih =>
    rw [List.nodup_cons] at hnodup
    obtain ⟨hi, hnone⟩ := hopen i List.mem_cons_self
    obtain ⟨t₁, hplace, hattached, hposition⟩ := exists_placeMember hi howner hnone placed skipped
    have hopen' : ∀ k ∈ r, k < t₁.size ∧ t₁.renderParent? k = none := fun k hk ↦ by
      have hne : k ∉ [i] := fun heq ↦ hnodup.1 (List.mem_singleton.1 heq ▸ hk)
      rw [hattached.size_eq, hattached.renderParent?, if_neg hne]
      exact hopen k (List.mem_cons_of_mem _ hk)
    obtain ⟨t', hrest, hattached', hpositions⟩ :=
      ih hnodup.2 (hattached.size_eq ▸ howner) hopen' (placed ++ [i])
    refine ⟨t', ?_, hattached.trans hattached', fun j hj ↦ ?_⟩
    · rw [List.foldl_cons, hplace, hrest, List.append_assoc, List.singleton_append]
    · cases j with
      | zero =>
        rw [List.getElem_cons_zero, hattached'.position i hnodup.1, hposition]
        simp
      | succ j =>
        rw [List.getElem_cons_succ, hpositions j (by simpa using hj), List.length_append,
          List.length_singleton]
        omega

/-- The members of one container with their places. -/
theorem carried_of_attached {d : LayoutDecision} {t' : NodeTree}
    (h : NodeTree.Attached d.owner d.outputOrder t t') (parent : NodeId)
    (houtput : d.outputOrder.Perm d.members) (hnodup : d.members.Nodup)
    (hopen : ∀ i ∈ d.members, t.renderParent? i = none)
    (hpositions : ∀ j (h : j < d.outputOrder.length), t'.position d.outputOrder[j] = j) :
    Carried parent [d] t t' where
  size_le := Nat.le_of_eq h.size_eq.symm
  links i _ := h.links i
  groups i hi hi' := absurd (h.size_eq ▸ hi') (Nat.not_lt.2 hi)
  output d' hd' := List.mem_singleton.1 hd' ▸ ⟨houtput, hnodup⟩
  unplaced d' hd' := List.mem_singleton.1 hd' ▸ hopen
  renderParent i o := by
    rw [h.renderParent?]
    by_cases hi : i ∈ d.members
    · rw [if_pos (houtput.mem_iff.2 hi), hopen i hi]
      simp [hi]
    · rw [if_neg fun hmem ↦ hi (houtput.mem_iff.1 hmem)]
      simp [hi]
  isRendered i := by
    rw [h.isRendered, houtput.mem_iff]
    simp [or_comm]
  renderMembers o := by
    rw [h.renderMembers]
    by_cases ho : o = d.owner
    · simp [ho]
    · have ho' : ¬d.owner = o := fun heq ↦ ho heq.symm
      simp [ho, ho']
  positions d' hd' := List.mem_singleton.1 hd' ▸ hpositions
  position i hi := h.position i fun hmem ↦
    hi d (List.mem_singleton_self d) (houtput.mem_iff.1 hmem)

/-! ### The container as a whole -/

/-- Marks move nothing. -/
theorem unmoved_mark (c : LayoutConfig) (owner : NodeId) (content : Rect) (a : Arrangement)
    (flags : Flags) (members : List NodeId) (t : NodeTree) :
    NodeTree.Unmoved t (mark c owner content a flags members t) := by
  have hmembers := NodeTree.Unmoved.foldl (f := fun t id ↦
    t.modify id fun n ↦ n.addFlags (memberFlags c a.container content n))
    (fun t id ↦ t.unmoved_modify id (fun _ ↦ rfl) (fun _ ↦ rfl)) members t
  rw [mark]
  refine (hmembers.trans ?_).trans
    (NodeTree.unmoved_modify _ owner (fun _ ↦ by rfl) (fun _ ↦ by rfl))
  cases a.baseline with
  | none => exact .refl _
  | some id => exact NodeTree.unmoved_modify _ id (fun _ ↦ by rfl) (fun _ ↦ by rfl)

/-- The order of output is an order of the members. -/
theorem perm_reordering? (t : NodeTree) (a : Arrangement) (members : List NodeId) :
    ((reordering? t a members).getD members).Perm members := by
  rw [reordering?]
  split
  · exact perm_stableSort _ _
  · exact .refl _

/-- **One container.** All its members are placed, and one decision records it. -/
theorem exists_settle (c : LayoutConfig) (parent : NodeId) (synthetic : Bool) (a : Arrangement)
    {members : List NodeId} (s : State) (hnodup : members.Nodup) (howner : owner < s.tree.size)
    (hopen : ∀ i ∈ members, i < s.tree.size ∧ s.tree.renderParent? i = none) :
    ∃ d t', settle c owner synthetic a members s = ⟨t', s.outcome.append ⟨[d], []⟩⟩ ∧
      d.owner = owner ∧ d.synthetic = synthetic ∧ d.members = members ∧
      t'.size = s.tree.size ∧ Carried parent [d] s.tree t' := by
  have hperm := perm_reordering? s.tree a members
  obtain ⟨t₁, hplace, hattached, hpositions⟩ := exists_placeMembers (hperm.nodup_iff.2 hnodup)
    howner (fun i hi ↦ hopen i (hperm.mem_iff.1 hi)) [] []
  have hall : members.filter ((reordering? s.tree a members).getD members).contains = members := by
    rw [List.filter_eq_self]
    intro i hi
    exact List.contains_iff_mem.2 (hperm.mem_iff.2 hi)
  have hsettle : ∃ flags, settle c owner synthetic a members s =
      ⟨mark c owner (contentOf s.tree owner synthetic) a flags members t₁,
        s.outcome.append ⟨[⟨owner, synthetic, a.container, flags, members,
          (reordering? s.tree a members).map fun _ ↦ (reordering? s.tree a members).getD members,
          a.grid, a.baseline⟩], []⟩⟩ := by
    refine ⟨if (reordering? s.tree a members).isSome then a.flags else a.flags.erase .reversed, ?_⟩
    rw [settle, hplace, List.nil_append, hall]
  obtain ⟨flags, hsettle⟩ := hsettle
  have hmark := unmoved_mark c owner (contentOf s.tree owner synthetic) a flags members t₁
  have houtput : ((reordering? s.tree a members).map fun _ ↦
      (reordering? s.tree a members).getD members).getD members =
        (reordering? s.tree a members).getD members := by
    cases reordering? s.tree a members <;> rfl
  refine ⟨_, _, hsettle, rfl, rfl, rfl, hmark.size_eq.trans hattached.size_eq, ?_⟩
  have hnothing : Carried parent [] t₁ _ := .of_unmoved hmark
  rw [← List.append_nil [_]]
  refine Carried.trans (carried_of_attached ?_ parent ?_ hnodup
    (fun i hi ↦ (hopen i hi).2) ?_) hnothing
  all_goals simp only [LayoutDecision.outputOrder, houtput]
  · exact hattached
  · exact hperm
  · simpa using hpositions

end Classify

end ViewCompiler
