import ViewCompiler.Proofs.Layout.ClassificationOrder
import ViewCompiler.Proofs.Layout.Steps
import ViewCompiler.Proofs.Layout.Unplaced

/-!
# What classification changes

Classifying a run changes the node whose run it is, the members of the run and the groups that are
made for it, and of these only what is decided there. `Confined` says so of two stages of a tree:
nodes that are neither inside some part of it nor new are as they were, and every node is the same
but for what classification decides (`Node.undecided`). `Enriched` says in which direction it
changes them: marks are added, and only owners get nodes inside.

Both are kept by every step (`Classify.Steps.confined`, `Classify.Steps.enriched`).
`Classify.confined_run` is the statement for one run, and `Classify.confined_runs` for several, of
which the layout runs all lie in the part. `Classify.bounded_footprint` puts the two together.
-/

namespace ViewCompiler

open NodeTree

/-- A node before anything has been decided about it. -/
def Node.undecided (n : Node) : Node :=
  { n.unplaced with container := .leaf, flags := .empty, grid := none }

/-- A tree in which only nodes of some part have been decided on, with new groups. -/
structure Confined (P : NodeId → Prop) (t t' : NodeTree) : Prop where
  size_le : t.size ≤ t'.size
  others : ∀ i < t.size, ¬P i → t'.get? i = t.get? i
  undecided : ∀ i < t.size, (t'.get? i).map Node.undecided = (t.get? i).map Node.undecided
  groups : ∀ (i : Nat) (m : Node), t.size ≤ i → t'.get? i = some m →
    m.layoutChildren = [] ∧ m.companion = none ∧ m.kind = .group

namespace Confined

variable {P : NodeId → Prop} {t t' t'' : NodeTree}

theorem refl (P : NodeId → Prop) (t : NodeTree) : Confined P t t where
  size_le := Nat.le_refl _
  others _ _ _ := rfl
  undecided _ _ := rfl
  groups _ _ hi hm := absurd (lt_size_of_get? hm) (Nat.not_lt.2 hi)

theorem groups_of_undecided {m m' : Node} (h : m'.undecided = m.undecided) :
    m'.layoutChildren = m.layoutChildren ∧ m'.companion = m.companion ∧ m'.kind = m.kind :=
  ⟨(congrArg Node.layoutChildren h :), (congrArg Node.companion h :),
    (congrArg Node.kind h :)⟩

theorem trans (h : Confined P t t') (h' : Confined P t' t'') : Confined P t t'' where
  size_le := Nat.le_trans h.size_le h'.size_le
  others i hi hpart :=
    (h'.others i (Nat.lt_of_lt_of_le hi h.size_le) hpart).trans (h.others i hi hpart)
  undecided i hi :=
    (h'.undecided i (Nat.lt_of_lt_of_le hi h.size_le)).trans (h.undecided i hi)
  groups i m hi hm := by
    rcases Nat.lt_or_ge i t'.size with hlt | hge
    · obtain ⟨m', hm'⟩ := exists_get? hlt
      have hsame := h'.undecided i hlt
      rw [hm, hm', Option.map_some, Option.map_some] at hsame
      obtain ⟨hrun, hcompanion, hkind⟩ := groups_of_undecided (Option.some.inj hsame)
      rw [hrun, hcompanion, hkind]
      exact h.groups i m' hi hm'
    · exact h'.groups i m hge hm

section Reading

variable (h : Confined P t t')

include h

/-- A node is the same but for what has been decided. -/
theorem exists_undecided {i : NodeId} {m : Node} (hm : t.get? i = some m) :
    ∃ m', t'.get? i = some m' ∧ m'.undecided = m.undecided := by
  have hsame := h.undecided i (lt_size_of_get? hm)
  rw [hm] at hsame
  exact Option.map_eq_some_iff.1 hsame

theorem exists_of_lt {i : NodeId} (hi : i < t.size) {m' : Node} (hm' : t'.get? i = some m') :
    ∃ m, t.get? i = some m ∧ m'.undecided = m.undecided := by
  have hsame := h.undecided i hi
  rw [hm'] at hsame
  obtain ⟨m, hm, heq⟩ := Option.map_eq_some_iff.1 hsame.symm
  exact ⟨m, hm, heq.symm⟩

theorem layoutRun_eq : t'.layoutRun = t.layoutRun := by
  funext i
  cases hm' : t'.get? i with
  | none =>
    have hi := get?_eq_none_iff.1 hm'
    rw [layoutRun, layoutRun, links?_eq_none_iff.2 hi,
      links?_eq_none_iff.2 (Nat.le_trans h.size_le hi)]
  | some m' =>
    rw [layoutRun_of_get? hm']
    rcases Nat.lt_or_ge i t.size with hi | hi
    · obtain ⟨m, hm, hsame⟩ := h.exists_of_lt hi hm'
      rw [layoutRun_of_get? hm, (groups_of_undecided hsame).1]
    · rw [layoutRun, links?_eq_none_iff.2 hi, (h.groups i m' hi hm').1]
      rfl

end Reading

/-! ### Steps -/

variable (h : Confined P t t')

include h

/-- **A node of the part or a new one is decided on.** -/
theorem modify {id : Nat} (hid : P id ∨ t.size ≤ id) {f : Node → Node}
    (hf : ∀ n, (f n).undecided = n.undecided) : Confined P t (t'.modify id f) where
  size_le := by
    rw [size_modify]
    exact h.size_le
  others i hi hnot := by
    have hne : id ≠ i := fun heq ↦
      hid.elim (fun hin ↦ hnot (heq ▸ hin)) fun hle ↦ Nat.not_lt.2 hle (heq ▸ hi)
    rw [get?_modify, if_neg hne, h.others i hi hnot]
  undecided i hi := by
    rw [get?_modify, ← h.undecided i hi]
    split
    · rw [Option.map_map]
      refine congrArg (Option.map · (t'.get? i)) (funext fun n ↦ ?_)
      show ({ (f n).undecided with id := n.id } : Node) = n.undecided
      rw [hf]
      rfl
    · rfl
  groups i m hi hm := by
    rw [get?_modify] at hm
    split at hm
    · obtain ⟨n, hn, rfl⟩ := Option.map_eq_some_iff.1 hm
      obtain ⟨hrun, hcompanion, hkind⟩ := groups_of_undecided (hf n)
      obtain ⟨hrun', hcompanion', hkind'⟩ := h.groups i n hi hn
      exact ⟨hrun.trans hrun', hcompanion.trans hcompanion', hkind.trans hkind'⟩
    · exact h.groups i m hi hm

/-- **A new group.** -/
theorem allocGroup {parent id : NodeId} {bounds : Rect} {t₁ : NodeTree}
    (hok : t'.allocGroup parent bounds = .ok (id, t₁)) : Confined P t t₁ := by
  obtain ⟨p, hp⟩ := exists_get?_of_allocGroup hok
  rw [allocGroup_eq hp] at hok
  obtain ⟨rfl, rfl⟩ := Prod.mk.inj (Except.ok.inj hok)
  refine ⟨?_, fun i hi hnot ↦ ?_, fun i hi ↦ ?_, fun i m hi hm ↦ ?_⟩
  · rw [size_modify, size_alloc]
    exact Nat.le_succ_of_le h.size_le
  · have hne := Nat.ne_of_lt (Nat.lt_of_lt_of_le hi h.size_le)
    rw [get?_modify, if_neg (Ne.symm hne), get?_alloc, if_neg hne, h.others i hi hnot]
  · have hne := Nat.ne_of_lt (Nat.lt_of_lt_of_le hi h.size_le)
    rw [get?_modify, if_neg (Ne.symm hne), get?_alloc, if_neg hne, h.undecided i hi]
  · rw [get?_modify, get?_alloc] at hm
    by_cases heq : i = t'.size
    · rw [if_pos heq.symm, if_pos heq] at hm
      rw [← Option.some.inj hm]
      exact ⟨rfl, rfl, rfl⟩
    · rw [if_neg (Ne.symm heq), if_neg heq] at hm
      exact h.groups i m hi hm

end Confined

namespace Classify

variable {P : NodeId → Prop} {t t' t'' : NodeTree} {parent : NodeId}

/-- What may be decided on: the nodes of the part and new ones. -/
def Free (P : NodeId → Prop) (t : NodeTree) (i : NodeId) : Prop := P i ∨ t.size ≤ i

/-- **Steps of classification** whose members and owners are in the part or new. -/
theorem Steps.confined {member owner : NodeId → Prop} (hmember : ∀ i, member i → Free P t i)
    (howner : ∀ i, owner i → Free P t i) (hsteps : Steps parent member owner t' t'')
    (h : Confined P t t') : Confined P t t'' := by
  induction hsteps with
  | refl => exact h
  | tail _ hstep ih =>
    cases hstep with
    | alloc made => exact ih.allocGroup made
    | place position isMember isOwner placed =>
      rw [eq_of_setRenderParent placed]
      exact ((ih.modify (hmember _ isMember) fun _ ↦ by rfl).modify (howner _ isOwner)
        fun _ ↦ by rfl).modify (hmember _ isMember) fun _ ↦ by rfl
    | mark isMember inFlow => exact ih.modify (hmember _ isMember) fun _ ↦ by rfl
    | hold container grid isOwner inFlow => exact ih.modify (howner _ isOwner) fun _ ↦ by rfl

variable {c : LayoutConfig} {content : Rect} {nodes : List Node}

/-- **Carrying a plan out** changes its leaves and new groups. -/
theorem confined_realize {p : Plan} {s s' : State} {id : NodeId} (hp : p.Shaped c content nodes)
    (hok : realize c parent s p = .ok (id, s')) :
    Confined (fun i ↦ i ∈ p.leaves) s.tree s'.tree :=
  have hsteps : Steps parent (Free (fun i ↦ i ∈ p.leaves) s.tree) (fun i ↦ s.tree.size ≤ i) s.tree
      s'.tree :=
    And.left (steps_realize (fun _ ↦ .inr) (fun _ hi ↦ hi) p s hp (fun _ ↦ .inl) (Nat.le_refl _)
      hok)
  hsteps.confined (fun _ hi ↦ hi) (fun _ ↦ .inr) (.refl _ _)

theorem confined_realizeAll {ps : List Plan} {s s' : State} {ids : List NodeId}
    (hps : ShapedAll c content nodes ps) (hok : realizeAll c parent s ps = .ok (ids, s')) :
    Confined (fun i ↦ i ∈ leavesOfAll ps) s.tree s'.tree :=
  have hsteps : Steps parent (Free (fun i ↦ i ∈ leavesOfAll ps) s.tree)
      (fun i ↦ s.tree.size ≤ i) s.tree s'.tree :=
    And.left (steps_realizeAll (fun _ ↦ .inr) (fun _ hi ↦ hi) ps s hps (fun _ ↦ .inl)
      (Nat.le_refl _) hok)
  hsteps.confined (fun _ hi ↦ hi) (fun _ ↦ .inr) (.refl _ _)

/-! ### Whole runs -/

theorem runs_cons_cases {t' : NodeTree} {x : NodeId} {r : List NodeId} {o : ClassifyOutcome}
    (hok : runs c t (x :: r) = .ok (o, t')) : ∃ o₁ t₁ o₂, run c t x = .ok (o₁, t₁) ∧
      runs c t₁ r = .ok (o₂, t') ∧ o = o₁.append o₂ := by
  rw [runs] at hok
  obtain ⟨⟨o₁, t₁⟩, hfirst, hok⟩ := exists_of_bind hok
  obtain ⟨⟨o₂, t₂⟩, hrest, hok⟩ := exists_of_bind hok
  obtain ⟨rfl, rfl⟩ := Prod.mk.inj (Except.ok.inj hok)
  exact ⟨o₁, t₁, o₂, hfirst, hrest, rfl⟩

theorem confined_markOverlays {p : Node} {run : List Node} (hrun : ∀ m ∈ run, Free P t m.id)
    {t' : NodeTree} (h : Confined P t t') : Confined P t (markOverlays c t' p run) := by
  refine List.foldlRecOn (motive := Confined P t) (Plan.positioned c p.contentBox run) _ h
    fun t' h m hm ↦ h.modify (hrun m ?_) fun _ ↦ by rfl
  rw [Plan.positioned, mem_stableSort] at hm
  exact (List.mem_filter.1 hm).1

/-- **Classifying a run** changes the node whose run it is, and the pending members. -/
theorem confined_run {o : ClassifyOutcome} (hparent : P parent)
    (hpending : ∀ i ∈ t.pending parent, P i) (hok : run c t parent = .ok (o, t')) :
    Confined P t t' := by
  rcases steps_run hok with ⟨-, rfl⟩ | ⟨p, -, hsteps⟩
  · exact .refl P t'
  · refine hsteps.confined (fun i hi ↦ hi.imp_left (hpending i))
      (fun i hi ↦ hi.imp_left fun (heq : i = parent) ↦ heq ▸ hparent) ?_
    exact confined_markOverlays (fun m hm ↦ .inl (hpending m.id (mem_lookup.1 hm).1)) (.refl P t)

/-- **Several runs**, of which all members are in the part. -/
theorem confined_runs {xs : List NodeId} {o : ClassifyOutcome} {t' : NodeTree}
    (hxs : ∀ x ∈ xs, P x ∧ ∀ i ∈ t.layoutRun x, P i)
    (hok : runs c t xs = .ok (o, t')) : Confined P t t' := by
  induction xs generalizing t o with
  | nil =>
    rw [runs] at hok
    obtain ⟨-, rfl⟩ := Prod.mk.inj (Except.ok.inj hok)
    exact .refl P t
  | cons x r ih =>
    obtain ⟨o₁, t₁, o₂, hfirst, hrest, -⟩ := runs_cons_cases hok
    obtain ⟨hx, hrun⟩ := hxs x List.mem_cons_self
    have hone := confined_run hx (fun i hi ↦ hrun i (List.mem_filter.1 hi).1) hfirst
    refine hone.trans (ih (fun y hy ↦ ?_) hrest)
    rw [hone.layoutRun_eq]
    exact hxs y (List.mem_cons_of_mem _ hy)

/-- Runs anywhere in the tree. -/
theorem confined_anywhere {xs : List NodeId} {o : ClassifyOutcome} {t' : NodeTree}
    (hok : runs c t xs = .ok (o, t')) : Confined (fun _ ↦ True) t t' :=
  confined_runs (fun _ _ ↦ ⟨trivial, fun _ _ ↦ trivial⟩) hok

end Classify

/-! ### What only grows -/

/-- Two stages of a tree between which marks have only been added, the roots are the same, and only
owners have got nodes inside. -/
structure Enriched (owner : NodeId → Prop) (t t' : NodeTree) : Prop where
  roots : t'.roots = t.roots
  grows : ∀ {i : NodeId} {n : Node}, t.get? i = some n → ∃ n', t'.get? i = some n' ∧
    (∀ f, n.flags.contains f = true → n'.flags.contains f = true) ∧
    (owner i ∨ n'.renderChildren = n.renderChildren)

namespace Enriched

variable {owner : NodeId → Prop} {t t' t'' : NodeTree}

theorem refl (owner : NodeId → Prop) (t : NodeTree) : Enriched owner t t :=
  ⟨rfl, fun {_ n} hn ↦ ⟨n, hn, fun _ hf ↦ hf, .inr rfl⟩⟩

variable (h : Enriched owner t t')

include h

theorem modify {id : NodeId} {f : Node → Node}
    (hflags : ∀ n g, n.flags.contains g = true → (f n).flags.contains g = true)
    (hinside : owner id ∨ ∀ n, (f n).renderChildren = n.renderChildren) :
    Enriched owner t (t'.modify id f) where
  roots := h.roots
  grows {i n} hn := by
    obtain ⟨n', hn', hkept, hchildren⟩ := h.grows hn
    rw [get?_modify, hn']
    by_cases hid : id = i
    · rw [if_pos hid]
      refine ⟨_, rfl, fun g hg ↦ hflags n' g (hkept g hg), ?_⟩
      exact hinside.elim (fun ho ↦ .inl (hid ▸ ho))
        fun hsame ↦ hchildren.imp_right (hsame n').trans
    · rw [if_neg hid]
      exact ⟨n', rfl, hkept, hchildren⟩

theorem allocGroup {parent id : NodeId} {bounds : Rect} {t₁ : NodeTree}
    (hok : t'.allocGroup parent bounds = .ok (id, t₁)) : Enriched owner t t₁ := by
  obtain ⟨p, hp⟩ := exists_get?_of_allocGroup hok
  rw [allocGroup_eq hp] at hok
  obtain ⟨rfl, rfl⟩ := Prod.mk.inj (Except.ok.inj hok)
  refine ⟨h.roots, fun {i n} hn ↦ ?_⟩
  obtain ⟨n', hn', hkept, hchildren⟩ := h.grows hn
  have hne := Nat.ne_of_lt (lt_size_of_get? hn')
  refine ⟨n', ?_, hkept, hchildren⟩
  rw [get?_modify, if_neg (Ne.symm hne), get?_alloc, if_neg hne, hn']

end Enriched

namespace Classify

variable {t t' : NodeTree} {parent : NodeId} {member owner : NodeId → Prop}

/-- **Steps of classification** only add marks. -/
theorem Steps.enriched (hsteps : Steps parent member owner t t') {t₀ : NodeTree}
    (h : Enriched owner t₀ t) : Enriched owner t₀ t' := by
  induction hsteps with
  | refl => exact h
  | tail _ hstep ih =>
    cases hstep with
    | alloc made => exact ih.allocGroup made
    | place position isMember isOwner placed =>
      rw [eq_of_setRenderParent placed]
      refine ((ih.modify ?_ (.inr fun _ ↦ by rfl)).modify ?_ (.inl isOwner)).modify ?_
        (.inr fun _ ↦ by rfl)
      all_goals exact fun _ _ hg ↦ hg
    | mark isMember inFlow =>
      refine ih.modify (fun n g hg ↦ ?_) (.inr fun _ ↦ rfl)
      rw [Node.addFlags, Flags.contains_union, hg, Bool.true_or]
    | hold container grid isOwner inFlow =>
      refine ih.modify (fun n g hg ↦ ?_) (.inl isOwner)
      rw [Flags.contains_union, hg, Bool.true_or]

theorem enriched_markOverlays (c : LayoutConfig) (p : Node) (run : List Node) (t : NodeTree) :
    Enriched owner t (markOverlays c t p run) := by
  rw [markOverlays]
  induction Plan.positioned c p.contentBox run using List.reverseRecOn with
  | nil => exact .refl owner t
  | append_singleton ms m ih =>
    rw [List.foldl_append]
    refine ih.modify (fun n g hg ↦ ?_) (.inr fun _ ↦ rfl)
    rw [Flags.contains_insert, hg, Bool.or_true]

theorem lt_size_of_run {c : LayoutConfig} {o : ClassifyOutcome}
    (hok : run c t parent = .ok (o, t')) : parent < t.size := by
  rw [run] at hok
  obtain ⟨pending, hpending, -⟩ := exists_of_bind hok
  cases hp : t.get? parent with
  | none =>
    rw [pendingRun, hp] at hpending
    exact absurd hpending (by simp)
  | some p => exact lt_size_of_get? hp

/-- A node that differs in nothing but what is decided on. -/
theorem eq_of_undecided {n n' : Node} (h : n'.undecided = n.undecided) :
    n' = { n with
      flags := n'.flags
      container := n'.container
      grid := n'.grid
      rendered := n'.rendered
      renderPosition := n'.renderPosition
      renderParent := n'.renderParent
      renderChildren := n'.renderChildren } :=
  congrArg (fun m : Node ↦ { m with
    flags := n'.flags
    container := n'.container
    grid := n'.grid
    rendered := n'.rendered
    renderPosition := n'.renderPosition
    renderParent := n'.renderParent
    renderChildren := n'.renderChildren }) h

/-- **Classification has a bounded footprint.** The roots are the same, every node that is neither
the one whose run is classified nor a pending member of the run is as it was, and new nodes are
groups. What is decided on a node are its marks, its container and grid and its place in the output,
and nothing else of it differs. No mark is taken away, and nodes are put inside the one whose run it
is only. -/
theorem bounded_footprint (c : LayoutConfig) (t : NodeTree) (parent : NodeId) (o : ClassifyOutcome)
    (t' : NodeTree) (hok : run c t parent = .ok (o, t')) :
    ∃ pending, t.pendingRun parent = .ok pending ∧ t'.roots = t.roots ∧
      (∀ i n, t.get? i = some n → ∃ n', t'.get? i = some n' ∧
        (i ≠ parent → i ∉ pending → n' = n) ∧
        n' = { n with
          flags := n'.flags
          container := n'.container
          grid := n'.grid
          rendered := n'.rendered
          renderPosition := n'.renderPosition
          renderParent := n'.renderParent
          renderChildren := n'.renderChildren } ∧
        (i ≠ parent → n'.renderChildren = n.renderChildren) ∧
        ∀ f, n.flags.contains f = true → n'.flags.contains f = true) ∧
      ∀ i n', t.get? i = none → t'.get? i = some n' → n'.kind = .group := by
  have hconfined := confined_run (P := fun i ↦ i = parent ∨ i ∈ t.pending parent) (.inl rfl)
    (fun i hi ↦ .inr hi) hok
  have henriched : Enriched (fun i ↦ i = parent ∨ t.size ≤ i) t t' := by
    rcases steps_run hok with ⟨-, rfl⟩ | ⟨p, -, hsteps⟩
    · exact .refl _ _
    · exact hsteps.enriched (enriched_markOverlays c p _ t)
  refine ⟨t.pending parent, pendingRun_eq (lt_size_of_run hok), henriched.roots, fun i n hn ↦ ?_,
    fun i n' hi hn' ↦ (hconfined.groups i n' (get?_eq_none_iff.1 hi) hn').2.2⟩
  have hlt := lt_size_of_get? hn
  obtain ⟨n', hn', hkept, hchildren⟩ := henriched.grows hn
  obtain ⟨m, hm, hsame⟩ := hconfined.exists_undecided hn
  obtain rfl := Option.some.inj (hn'.symm.trans hm)
  refine ⟨n', hn', fun hi hi' ↦ ?_, eq_of_undecided hsame, fun hi ↦ ?_, hkept⟩
  · have hother := hconfined.others i hlt fun hin ↦ hin.elim hi hi'
    exact Option.some.inj (hn'.symm.trans (hother.trans hn))
  · exact hchildren.resolve_left fun hin ↦ hin.elim hi (Nat.not_le.2 hlt)

/-- The boxes of a root and of two elements are as before. -/
theorem bounded_footprint_twoBoxes : ∃ o t', run .default twoBoxes 0 = .ok (o, t') ∧
    t'.roots = [0] ∧ ∀ i n, twoBoxes.get? i = some n →
      ∃ n', t'.get? i = some n' ∧ n'.bounds = n.bounds := by
  have hopen : Open twoBoxes (twoBoxes.pending 0) := by
    unfold Open
    decide +kernel
  obtain ⟨gs, last, t', hok, -⟩ := exists_run .default (by decide) hopen (by decide)
  refine ⟨_, t', hok, ?_⟩
  obtain ⟨pending, -, hroots, hnodes, -⟩ := bounded_footprint .default twoBoxes 0 _ t' hok
  refine ⟨hroots, fun i n hn ↦ ?_⟩
  obtain ⟨n', hn', -, heq, -⟩ := hnodes i n hn
  exact ⟨n', hn', (congrArg Node.bounds heq :)⟩

end Classify

end ViewCompiler
