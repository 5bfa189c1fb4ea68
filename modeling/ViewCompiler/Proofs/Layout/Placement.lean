import ViewCompiler.Proofs.Layout.Realizing

/-!
# Classification places every member once

`Classify.run` plans the pending members of a node, carries the plan out and settles the node itself
last. Every pending member and every group made on the way becomes a member of exactly one container
(`Classify.places_once`), and the render parent of a member is the owner of its container.

What a run needs is that its pending members are different nodes without a render parent
(`Classify.Open`). A member that is rendered already does not matter, since it is not pending.
-/

namespace ViewCompiler

namespace NodeTree

variable {t : NodeTree}

/-- The members of a node's run that have no place in the output yet. -/
def pending (t : NodeTree) (parent : NodeId) : List NodeId :=
  (t.layoutRun parent).filter fun i ↦
    (t.links? i).any (fun l ↦ !l.excluded) && !t.isRendered i

theorem pendingRun_eq {parent : NodeId} (h : parent < t.size) :
    t.pendingRun parent = .ok (t.pending parent) := by
  obtain ⟨p, hp⟩ := exists_get? h
  rw [pendingRun, hp, pending, layoutRun, links?_of_get? hp]
  refine congrArg Except.ok (List.filter_congr fun i _ ↦ ?_)
  rw [isRendered, place, links?]
  cases t.get? i <;> rfl

theorem lt_size_of_mem_pending {parent i : NodeId} (h : i ∈ t.pending parent) : i < t.size := by
  have hany := (List.mem_filter.1 h).2
  cases hl : t.links? i with
  | none => simp [hl] at hany
  | some l => exact lt_size_of_links? hl

/-- The numbers of nodes that are looked up. -/
theorem map_id_lookup {ids : List NodeId} (h : ∀ i ∈ ids, i < t.size) :
    (t.lookup ids).map Node.id = ids := by
  induction ids with
  | nil => rfl
  | cons i r ih =>
    obtain ⟨n, hn⟩ := exists_get? (h i List.mem_cons_self)
    have hcons : t.lookup (i :: r) = n :: t.lookup r := by
      rw [lookup, lookup, List.filterMap_cons, hn]
    rw [hcons, List.map_cons, id_of_get? hn, ih fun j hj ↦ h j (List.mem_cons_of_mem _ hj)]

end NodeTree

/-- What comes of plans depends on the numbers of nodes only, and not on the order of the leaves. -/
theorem Realized.congr {t t' t₁ t₁' : NodeTree} {leaves leaves' ids : List NodeId}
    {ds : List LayoutDecision} (h : Realized t leaves ids ds t') (hsize : t.size = t₁.size)
    (hsize' : t'.size = t₁'.size) (hperm : leaves.Perm leaves') :
    Realized t₁ leaves' ids ds t₁' := by
  obtain ⟨hsynthetic, hfresh, howners, hdecided, hmany, honce, hawaited, hyounger⟩ := h
  rw [hsize] at hfresh hdecided hyounger
  rw [hsize'] at hfresh hdecided
  exact ⟨hsynthetic, hfresh, howners, hdecided, hmany, honce.trans (hperm.append_right _),
    hawaited, hyounger⟩

namespace Classify

variable {t : NodeTree} {parent : NodeId}

theorem unmoved_markOverlays (c : LayoutConfig) (t : NodeTree) (p : Node) (run : List Node) :
    NodeTree.Unmoved t (markOverlays c t p run) := by
  rw [markOverlays]
  exact .foldl (fun t n ↦ t.unmoved_modify _ (fun _ ↦ by rfl) (fun _ ↦ by rfl)) _ t

/-- What has been decided on the run of a node: groups first, and the node itself last. -/
structure Decides (t : NodeTree) (parent : NodeId) (gs : List LayoutDecision)
    (last : LayoutDecision) (t' : NodeTree) : Prop where
  carried : Carried parent (gs ++ [last]) t t'
  realized : Realized t (t.pending parent) last.members gs t'
  owner : last.owner = parent
  synthetic : last.synthetic = false

theorem run_of_pending_eq_nil (c : LayoutConfig) (hparent : parent < t.size)
    (hnil : t.pending parent = []) : run c t parent = .ok (.empty, t) := by
  rw [run, NodeTree.pendingRun_eq hparent, hnil]
  rfl

/-- The plan of a run is carried out. -/
theorem run_of_realizeAll {c : LayoutConfig} {p : Node} (hp : t.get? parent = some p)
    (hne : t.pending parent ≠ []) {ids : List NodeId} {s s' : State}
    (hall : realizeAll c parent ⟨markOverlays c t p (t.lookup (t.pending parent)), .empty⟩
      (Plan.ofPending c p (t.lookup (t.pending parent))).members = .ok (ids, s))
    (hsettle : settle c parent false
      (Plan.ofPending c p (t.lookup (t.pending parent))).arrangement ids s = s') :
    run c t parent = .ok (s'.outcome, s'.tree) := by
  have hnode : t.node parent = .ok p := by rw [NodeTree.node, hp]
  have hnonempty : (t.pending parent).isEmpty = false := List.isEmpty_eq_false_iff.2 hne
  rw [run, NodeTree.pendingRun_eq (NodeTree.lt_size_of_get? hp), ← hsettle]
  simp only [hnode, hnonempty, hall, bind, Except.bind, pure, Except.pure]
  rfl

/-- The runs of some nodes, one after another. -/
theorem runs_cons {c : LayoutConfig} {t₁ t₂ : NodeTree} {x : NodeId} {r : List NodeId}
    {o₁ o₂ : ClassifyOutcome} (hfirst : run c t x = .ok (o₁, t₁))
    (hrest : runs c t₁ r = .ok (o₂, t₂)) : runs c t (x :: r) = .ok (o₁.append o₂, t₂) := by
  rw [runs]
  simp only [hfirst, hrest, bind, Except.bind, pure, Except.pure]

/-- **The run of a node with pending members.** -/
theorem exists_run (c : LayoutConfig) (hparent : parent < t.size)
    (hopen : Open t (t.pending parent)) (hne : t.pending parent ≠ []) :
    ∃ gs last t', run c t parent = .ok (⟨gs ++ [last], []⟩, t') ∧
      Decides t parent gs last t' := by
  obtain ⟨p, hp⟩ := NodeTree.exists_get? hparent
  have hcovered := Plan.coveredBy_ofPending c p (t.lookup (t.pending parent))
  have hmarks := unmoved_markOverlays c t p (t.lookup (t.pending parent))
  have hids : (t.lookup (t.pending parent)).map Node.id = t.pending parent :=
    NodeTree.map_id_lookup fun i hi ↦ NodeTree.lt_size_of_mem_pending hi
  have hleaves := hcovered.leaves
  rw [hids] at hleaves
  have hopen₁ : Open (markOverlays c t p (t.lookup (t.pending parent)))
      (leavesOfAll (Plan.ofPending c p (t.lookup (t.pending parent))).members) := by
    refine ⟨hleaves.nodup_iff.2 hopen.1, fun i hi ↦ ?_⟩
    rw [hmarks.size_eq, hmarks.renderParent?]
    exact hopen.2 i (hleaves.mem_iff.1 hi)
  obtain ⟨ids, t₂, gs, hrealize, -, hcarried, hrealized⟩ := exists_realizeAll c
    (Plan.ofPending c p (t.lookup (t.pending parent))).members
    ⟨markOverlays c t p (t.lookup (t.pending parent)), .empty⟩ hcovered.wide
    (hmarks.size_eq.symm ▸ hparent) hopen₁
  have hopen₂ := hopen₁.answered hcarried hrealized
  have howner : parent < t₂.size :=
    Nat.lt_of_lt_of_le (hmarks.size_eq.symm ▸ hparent) hcarried.size_le
  obtain ⟨last, t₃, hsettle, hlowner, hlsynthetic, hlmembers, hend, hlcarried⟩ :=
    exists_settle c parent false (Plan.ofPending c p (t.lookup (t.pending parent))).arrangement
      ⟨t₂, ClassifyOutcome.empty.append ⟨gs, []⟩⟩ hopen₂.1 howner hopen₂.2
  refine ⟨gs, last, t₃, ?_, ((Carried.of_unmoved hmarks).trans hcarried).trans hlcarried, ?_,
    hlowner, hlsynthetic⟩
  · rw [run_of_realizeAll hp hne hrealize hsettle, ClassifyOutcome.append_append]
    rfl
  · rw [hlmembers]
    exact hrealized.congr hmarks.size_eq hend.symm hleaves

namespace Decides

variable {gs : List LayoutDecision} {last : LayoutDecision} {t' : NodeTree}

/-- Every pending member and every group is a member of one container. -/
theorem once (h : Decides t parent gs last t') :
    ((gs ++ [last]).flatMap LayoutDecision.members).Perm
      (t.pending parent ++ gs.map LayoutDecision.owner) := by
  rw [List.flatMap_append, List.flatMap_singleton]
  exact h.realized.once

theorem owners (h : Decides t parent gs last t') (hparent : parent < t.size) :
    ((gs ++ [last]).map LayoutDecision.owner).Nodup := by
  rw [List.map_append, List.map_singleton, h.owner]
  refine h.realized.owners.append (List.nodup_singleton _) fun i hi hi' ↦ ?_
  obtain ⟨d, hd, rfl⟩ := List.mem_map.1 hi
  have hfresh := (h.realized.fresh d hd).1
  rw [List.mem_singleton.1 hi'] at hfresh
  exact Nat.not_lt.2 hfresh hparent

/-- The members of all containers that are no new groups are the pending members. -/
theorem perm_filter (h : Decides t parent gs last t') :
    (((gs ++ [last]).flatMap LayoutDecision.members).filter t.contains).Perm
      (t.pending parent) := by
  refine (h.once.filter _).trans (.of_eq ?_)
  have hold : (t.pending parent).filter t.contains = t.pending parent := by
    rw [List.filter_eq_self]
    intro i hi
    obtain ⟨n, hn⟩ := NodeTree.exists_get? (NodeTree.lt_size_of_mem_pending hi)
    rw [NodeTree.contains, hn, Option.isSome_some]
  have hnew : (gs.map LayoutDecision.owner).filter t.contains = [] := by
    rw [List.filter_eq_nil_iff]
    intro i hi
    obtain ⟨d, hd, rfl⟩ := List.mem_map.1 hi
    rw [NodeTree.contains, NodeTree.get?_eq_none_iff.2 (h.realized.fresh d hd).1]
    simp
  rw [List.filter_append, hold, hnew, List.append_nil]

/-- Every new node is a group and a member of one container. -/
theorem count_eq_one (h : Decides t parent gs last t') {i : NodeId} (hi : t.size ≤ i)
    (hi' : i < t'.size) : ((gs ++ [last]).flatMap LayoutDecision.members).count i = 1 := by
  have hpending : (t.pending parent).count i = 0 := List.count_eq_zero.2 fun hmem ↦
    Nat.not_lt.2 hi (NodeTree.lt_size_of_mem_pending hmem)
  rw [h.once.count_eq, List.count_append, hpending, Nat.zero_add]
  exact List.count_eq_one_of_mem h.realized.owners (h.realized.decided i hi hi')

/-- The decision on a group comes before that on what it is in. -/
theorem exists_later (h : Decides t parent gs last t') {before after : List LayoutDecision}
    {d : LayoutDecision} (heq : gs ++ [last] = before ++ d :: after) (hd : d.synthetic = true) :
    ∃ d' ∈ after, d.owner ∈ d'.members := by
  rcases List.eq_nil_or_concat' after with rfl | ⟨after', e, rfl⟩
  · have hlast : last = d := by
      have hboth := congrArg List.getLast? heq
      simpa using hboth
    rw [← hlast, h.synthetic] at hd
    exact absurd hd (by simp)
  · obtain ⟨heq', hlast⟩ : gs = before ++ d :: after' ∧ last = e := by
      rw [← List.cons_append, ← List.append_assoc] at heq
      exact ⟨(List.append_inj' heq rfl).1, List.singleton_inj.1 (List.append_inj' heq rfl).2⟩
    rcases h.realized.awaited.mem_of_eq_append heq' with hmem | hmem
    · obtain ⟨d', hd', hmem⟩ := List.mem_flatMap.1 hmem
      exact ⟨d', List.mem_append_left _ hd', hmem⟩
    · exact ⟨e, List.mem_append_right _ (List.mem_singleton_self e), hlast ▸ hmem⟩

theorem renderParent_of_mem (h : Decides t parent gs last t') {d : LayoutDecision}
    (hd : d ∈ gs ++ [last]) {i : NodeId} (hi : i ∈ d.members) :
    ∃ n, t'.get? i = some n ∧ n.renderParent = some d.owner := by
  have hplaced := (h.carried.renderParent i d.owner).2 (.inr ⟨d, hd, hi, rfl⟩)
  cases hn : t'.get? i with
  | none =>
    rw [NodeTree.renderParent?, NodeTree.place_eq_blank (NodeTree.get?_eq_none_iff.1 hn)] at hplaced
    exact absurd hplaced (by simp [Place.blank])
  | some n =>
    rw [NodeTree.renderParent?, NodeTree.place_of_get? hn] at hplaced
    exact ⟨n, rfl, hplaced⟩

end Decides

/-! ### Every member once -/

/-- A run whose members exist, differ and have no render parent unless they are rendered can be
given places. -/
theorem open_pending {p : Node} (hp : t.get? parent = some p) (hnodup : p.layoutChildren.Nodup)
    (hrun : ∀ i ∈ p.layoutChildren,
      ∃ n, t.get? i = some n ∧ (n.rendered = false → n.renderParent = none)) :
    Open t (t.pending parent) := by
  have hlayout : t.layoutRun parent = p.layoutChildren := by
    rw [NodeTree.layoutRun, NodeTree.links?_of_get? hp]
    rfl
  refine ⟨(hlayout ▸ hnodup).sublist List.filter_sublist, fun i hi ↦
    ⟨NodeTree.lt_size_of_mem_pending hi, ?_⟩⟩
  obtain ⟨hmem, hpending⟩ := List.mem_filter.1 hi
  obtain ⟨n, hn, hnone⟩ := hrun i (hlayout ▸ hmem)
  rw [NodeTree.isRendered, NodeTree.place_of_get? hn] at hpending
  rw [NodeTree.renderParent?, NodeTree.place_of_get? hn]
  exact hnone (by simpa [Node.place] using (Bool.and_eq_true_iff.1 hpending).2)

/-- **Classification places every member once.** For a run of different nodes, of which those that
are not rendered have no render parent, classification succeeds and skips no member. The members of
all containers, the new groups aside, are the pending run. Owners differ; the last container is that
of the node itself, and all before it are new groups with two members or more. A new group is a
member of one container, which comes after its own, and the render parent of every member is the
owner of its container. -/
theorem places_once (c : LayoutConfig) (t : NodeTree) (parent : NodeId) (p : Node)
    (hp : t.get? parent = some p) (hnodup : p.layoutChildren.Nodup)
    (hrun : ∀ i ∈ p.layoutChildren,
      ∃ n, t.get? i = some n ∧ (n.rendered = false → n.renderParent = none)) :
    ∃ pending ds t', t.pendingRun parent = .ok pending ∧ run c t parent = .ok (⟨ds, []⟩, t') ∧
      ((ds.flatMap LayoutDecision.members).filter t.contains).Perm pending ∧
      (ds.map LayoutDecision.owner).Nodup ∧
      (pending = [] → ds = []) ∧
      (pending ≠ [] → ∃ gs last, ds = gs ++ [last] ∧ last.owner = parent ∧
        last.synthetic = false ∧ ∀ d ∈ gs, d.synthetic = true ∧ 2 ≤ d.members.length ∧
          t.get? d.owner = none ∧ ∃ n, t'.get? d.owner = some n ∧ n.kind = .group) ∧
      (∀ i n, t.get? i = none → t'.get? i = some n →
        n.kind = .group ∧ (ds.flatMap LayoutDecision.members).count i = 1) ∧
      (∀ before d after, ds = before ++ d :: after → d.synthetic = true →
        ∃ d' ∈ after, d.owner ∈ d'.members) ∧
      ∀ d ∈ ds, ∀ i ∈ d.members, ∃ n, t'.get? i = some n ∧ n.renderParent = some d.owner := by
  have hparent := NodeTree.lt_size_of_get? hp
  have hopen := open_pending hp hnodup hrun
  by_cases hnil : t.pending parent = []
  · refine ⟨_, [], t, NodeTree.pendingRun_eq hparent, run_of_pending_eq_nil c hparent hnil,
      by simp [hnil], .nil, fun _ ↦ rfl, fun hne ↦ absurd hnil hne, fun i n hi hi' ↦ ?_,
      fun before d after heq ↦ absurd heq (by simp), by simp⟩
    rw [hi] at hi'
    exact absurd hi' (by simp)
  · obtain ⟨gs, last, t', hok, hdecides⟩ := exists_run c hparent hopen hnil
    have hgroup : ∀ i n, t.get? i = none → t'.get? i = some n → n.kind = .group := by
      intro i n hi hn
      obtain ⟨depth, hlinks⟩ := hdecides.carried.groups i (NodeTree.get?_eq_none_iff.1 hi)
        (NodeTree.lt_size_of_get? hn)
      rw [NodeTree.links?_of_get? hn, Option.some.injEq] at hlinks
      exact congrArg Links.kind hlinks
    refine ⟨_, gs ++ [last], t', NodeTree.pendingRun_eq hparent, hok, hdecides.perm_filter,
      hdecides.owners hparent, fun h ↦ absurd h hnil, fun _ ↦ ⟨gs, last, rfl, hdecides.owner,
        hdecides.synthetic, fun d hd ↦ ?_⟩, fun i n hi hn ↦ ⟨hgroup i n hi hn, ?_⟩,
      fun before d after heq hd ↦ hdecides.exists_later heq hd,
      fun d hd i hi ↦ hdecides.renderParent_of_mem hd hi⟩
    · obtain ⟨hfresh, hlt⟩ := hdecides.realized.fresh d hd
      have hnone := NodeTree.get?_eq_none_iff.2 hfresh
      obtain ⟨n, hn⟩ := NodeTree.exists_get? hlt
      exact ⟨hdecides.realized.synthetic d hd, hdecides.realized.many d hd, hnone, n, hn,
        hgroup _ n hnone hn⟩
    · exact hdecides.count_eq_one (NodeTree.get?_eq_none_iff.1 hi) (NodeTree.lt_size_of_get? hn)

/-- A root with two elements in its run. -/
def twoBoxes : NodeTree :=
  let t := (NodeTree.empty.alloc .root "div").2
  let t := ((t.alloc .element "p").2.attach 0 1 (some 0)).2
  ((t.alloc .element "p").2.attach 0 2 (some 0)).2

/-- The two elements are placed in the root. -/
theorem places_once_twoBoxes :
    ∃ p, twoBoxes.get? 0 = some p ∧ p.layoutChildren.Nodup ∧
      (∀ i ∈ p.layoutChildren,
        ∃ n, twoBoxes.get? i = some n ∧ (n.rendered = false → n.renderParent = none)) ∧
      ∃ ds t', run .default twoBoxes 0 = .ok (⟨ds, []⟩, t') ∧
        ((ds.flatMap LayoutDecision.members).filter twoBoxes.contains).Perm [1, 2] := by
  have hrun : ∀ i ∈ [1, 2],
      ∃ n, twoBoxes.get? i = some n ∧ (n.rendered = false → n.renderParent = none) := by
    intro i hi
    rcases List.mem_cons.1 hi with rfl | hi
    · exact ⟨_, rfl, fun _ ↦ rfl⟩
    · rw [List.mem_singleton.1 hi]
      exact ⟨_, rfl, fun _ ↦ rfl⟩
  refine ⟨_, rfl, by decide, hrun, ?_⟩
  obtain ⟨pending, ds, t', hpending, hok, hperm, -⟩ :=
    places_once .default twoBoxes 0 _ rfl (by decide) hrun
  have hlist : pending = [1, 2] := Except.ok.inj (hpending.symm.trans rfl)
  exact ⟨ds, t', hok, hlist ▸ hperm⟩

end Classify

end ViewCompiler
