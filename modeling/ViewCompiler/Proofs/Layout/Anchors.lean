import ViewCompiler.Proofs.Layout.Aligned
import ViewCompiler.Proofs.Layout.Justified
import ViewCompiler.Proofs.Layout.Origins
import ViewCompiler.Proofs.Layout.Reordering

/-!
# What decisions leave on nodes

Of a decision two things are written down on nodes: the owner gets the container, and the member
whose baseline the others follow gets a mark. Nothing else in classification touches either, so that
what a node has of them at the end can be told from the decisions alone, taken one after another
(`Classify.told_runs`).

If every owner has one decision, its container is the one of that decision
(`Told.container_eq`), and what is marked is what some decision names as its baseline
(`Told.anchor_iff`), which is a member of it (`Classify.anchored_run`). Since a node has one render
parent, a container that aligns its members has exactly one of them marked, the one that its own
decision names (`Arranged.aligns_runs`).
-/

namespace ViewCompiler

open NodeTree

/-! ### Nodes after a decision -/

/-- What a node has after a decision. -/
def Origin.after (i : NodeId) (o : Origin) (d : LayoutDecision) : Origin :=
  { o with
    container := if d.owner = i then d.container else o.container
    anchor := o.anchor || d.baseline == some i }

namespace NodeTree

/-- What a node has; one that is not there has nothing. -/
def originOf (t : NodeTree) (i : NodeId) : Origin := (t.origin? i).getD .blank

variable {t : NodeTree}

theorem originOf_of_get? {i : NodeId} {n : Node} (h : t.get? i = some n) :
    t.originOf i = n.origin := by
  rw [originOf, origin?_of_get? h, Option.getD_some]

theorem originOf_modify (t : NodeTree) (id : NodeId) {f : Node → Node}
    (hf : ∀ n, (f n).origin = n.origin) (i : NodeId) :
    (t.modify id f).originOf i = t.originOf i := by
  rw [originOf, origin?_modify t id hf, originOf]

/-- A change of a node in the tree. -/
theorem originOf_modify_of {id : NodeId} (hid : id < t.size) {f : Node → Node} (g : Origin → Origin)
    (hf : ∀ n, (f n).origin = g n.origin) (i : NodeId) :
    (t.modify id f).originOf i = if i = id then g (t.originOf i) else t.originOf i := by
  rw [originOf, origin?_modify_of t id g hf, originOf]
  split
  · subst i
    obtain ⟨n, hn⟩ := exists_get? hid
    rw [origin?_of_get? hn]
    rfl
  · rfl

theorem originOf_alloc (t : NodeTree) (kind : NodeKind) (tag : String) (i : NodeId) :
    (t.alloc kind tag).2.originOf i = t.originOf i := by
  rw [originOf, origin?_alloc, originOf]
  split
  · subst i
    rw [origin?, get?_eq_none_iff.2 (Nat.le_refl _)]
    rfl
  · rfl

theorem originOf_allocGroup {parent id : NodeId} {bounds : Rect} {t' : NodeTree}
    (h : t.allocGroup parent bounds = .ok (id, t')) (i : NodeId) :
    t'.originOf i = t.originOf i := by
  unfold NodeTree.allocGroup at h
  split at h
  · exact absurd h (by simp)
  · obtain ⟨-, rfl⟩ := Prod.mk.inj (Except.ok.inj h)
    exact (originOf_modify _ _ (fun _ ↦ by rfl) i).trans (originOf_alloc _ _ _ i)

end NodeTree

/-- Trees in which the nodes have the same from their elements. -/
def NodeTree.SameSources (t t' : NodeTree) : Prop := ∀ i,
  (t'.originOf i).element = (t.originOf i).element ∧
    (t'.originOf i).attributes = (t.originOf i).attributes

/-- **What nodes have can be told from decisions** that have been made since. -/
def Told (ds : List LayoutDecision) (t t' : NodeTree) : Prop :=
  ∀ i, t'.originOf i = ds.foldl (Origin.after i) (t.originOf i)

namespace Told

variable {ds ds' : List LayoutDecision} {t t' t'' : NodeTree}

theorem of_eq (h : ∀ i, t'.originOf i = t.originOf i) : Told [] t t' := h

theorem trans (h : Told ds t t') (h' : Told ds' t' t'') : Told (ds ++ ds') t t'' := fun i ↦ by
  rw [h' i, h i, List.foldl_append]

/-- **What a node has from its element** stays as it is. -/
theorem sameSources (h : Told ds t t') : SameSources t t' := fun i ↦ by
  rw [h i]
  exact List.foldlRecOn (motive := fun o : Origin ↦ o.element = (t.originOf i).element ∧
    o.attributes = (t.originOf i).attributes) ds (Origin.after i) ⟨rfl, rfl⟩ fun _ ho _ _ ↦ ho

/-- **The marked nodes** are those that were marked before, and the baselines of the decisions. -/
theorem anchor_iff (h : Told ds t t') (i : NodeId) : (t'.originOf i).anchor = true ↔
    (t.originOf i).anchor = true ∨ ∃ d ∈ ds, d.baseline = some i := by
  rw [h i]
  clear h
  generalize t.originOf i = o
  induction ds generalizing o with
  | nil => simp
  | cons d r ih =>
    rw [List.foldl_cons, ih]
    simp [Origin.after, or_assoc]

/-- The container of a node that no decision is on. -/
theorem container_of_not_mem {i : NodeId} (hi : i ∉ ds.map LayoutDecision.owner) (o : Origin) :
    (ds.foldl (Origin.after i) o).container = o.container := by
  induction ds generalizing o with
  | nil => rfl
  | cons d r ih =>
    rw [List.map_cons, List.mem_cons, not_or] at hi
    rw [List.foldl_cons, ih hi.2, Origin.after, if_neg (Ne.symm hi.1)]

/-- **The container of an owner** that has one decision. -/
theorem container_eq (h : Told ds t t') (hnodup : (ds.map LayoutDecision.owner).Nodup)
    {d : LayoutDecision} (hd : d ∈ ds) : (t'.originOf d.owner).container = d.container := by
  rw [h d.owner]
  obtain ⟨before, later, rfl⟩ := List.append_of_mem hd
  have hlater : d.owner ∉ later.map LayoutDecision.owner := by
    rw [List.map_append, List.map_cons] at hnodup
    exact (List.nodup_cons.1 hnodup.of_append_right).1
  rw [List.foldl_append, List.foldl_cons, container_of_not_mem hlater, Origin.after, if_pos rfl]

end Told

namespace Classify

/-! ### One container -/

theorem originOf_setRenderParent {t t' : NodeTree} {child parent : NodeId}
    (h : t.setRenderParent child parent = .ok t') (i : NodeId) :
    t'.originOf i = t.originOf i := by
  rw [eq_of_setRenderParent h]
  exact (originOf_modify _ _ (fun _ ↦ by rfl) i).trans (originOf_modify _ _ (fun _ ↦ by rfl) i)

theorem originOf_placeMember (owner : NodeId) (p : Placing) (id i : NodeId) :
    (placeMember owner p id).tree.originOf i = p.tree.originOf i := by
  unfold placeMember
  cases hset : p.tree.setRenderParent id owner with
  | error e => rfl
  | ok t => exact (originOf_modify t id (fun _ ↦ by rfl) i).trans (originOf_setRenderParent hset i)

/-- Marks that are not those of a baseline. -/
theorem originOf_addFlags (t : NodeTree) (id : NodeId) {marks : Node → Flags}
    (hmarks : ∀ n, (marks n).contains .baselineAnchor = false) (i : NodeId) :
    (t.modify id fun n ↦ n.addFlags (marks n)).originOf i = t.originOf i := by
  refine originOf_modify t id (fun n ↦ ?_) i
  rw [Node.origin, Node.origin, Node.addFlags]
  dsimp only
  rw [Flags.contains_union, hmarks, Bool.or_false]

variable (c : LayoutConfig)

/-- The marks of members are not those of a baseline. -/
theorem originOf_markMembers (container : Container) (content : Rect) (members : List NodeId)
    (t : NodeTree) : ∃ t', members.foldl (fun t id ↦ t.modify id fun n ↦
        n.addFlags (memberFlags c container content n)) t = t' ∧
      t'.size = t.size ∧ ∀ i, t'.originOf i = t.originOf i :=
  ⟨_, rfl, List.foldlRecOn (motive := fun t' ↦ t'.size = t.size ∧
    ∀ i, t'.originOf i = t.originOf i) members _ ⟨rfl, fun _ ↦ rfl⟩ fun t' h id _ ↦
      ⟨(size_modify _ _ _).trans h.1, fun i ↦ (originOf_addFlags t' id
        (contains_memberFlags c (by decide) container content) i).trans (h.2 i)⟩⟩

/-- The baseline gets its mark. -/
theorem originOf_markBaseline {t : NodeTree} {baseline : Option NodeId}
    (hbaseline : ∀ id, baseline = some id → id < t.size) : ∃ t', (match baseline with
        | some id => t.modify id fun n ↦ { n with flags := n.flags.insert .baselineAnchor }
        | none => t) = t' ∧ t'.size = t.size ∧ ∀ i, t'.originOf i =
      { t.originOf i with anchor := (t.originOf i).anchor || baseline == some i } := by
  refine ⟨_, rfl, ?_⟩
  cases baseline with
  | none => exact ⟨rfl, fun i ↦ by simp⟩
  | some id =>
    refine ⟨size_modify _ _ _, fun i ↦ ?_⟩
    rw [originOf_modify_of (hbaseline id rfl) (fun o ↦ { o with anchor := true }) fun n ↦ by
      simp [Node.origin]]
    by_cases hi : i = id
    · simp [hi]
    · have hne : (id == i) = false := beq_eq_false_iff_ne.2 (Ne.symm hi)
      simp [hi, hne]

/-- **Marking a container** with its members, in a tree in which its owner and its baseline are. -/
theorem originOf_mark {owner : NodeId} {content : Rect} {a : Arrangement} {flags : Flags}
    {t : NodeTree} (howner : owner < t.size) (hbaseline : ∀ id, a.baseline = some id → id < t.size)
    (hflags : flags.contains .baselineAnchor = false) (members : List NodeId) (i : NodeId) :
    (mark c owner content a flags members t).originOf i = { t.originOf i with
      container := if owner = i then a.container else (t.originOf i).container
      anchor := (t.originOf i).anchor || a.baseline == some i } := by
  obtain ⟨t₁, ht₁, hsize₁, hmembers⟩ := originOf_markMembers c a.container content members t
  obtain ⟨t₂, ht₂, hsize₂, hanchor⟩ := originOf_markBaseline (t := t₁) (hsize₁ ▸ hbaseline)
  have hmark : mark c owner content a flags members t = t₂.modify owner fun n ↦ { n with
      container := a.container, flags := n.flags.union flags, grid := a.grid } := by
    rw [← ht₂, ← ht₁]
    rfl
  rw [hmark, originOf_modify_of (hsize₂.trans hsize₁ ▸ howner)
    (fun o ↦ { o with container := a.container }) fun n ↦ by simp [Node.origin, hflags],
    hanchor, hmembers]
  by_cases hi : i = owner
  · rw [if_pos hi, if_pos hi.symm]
  · rw [if_neg hi, if_neg (Ne.symm hi)]

/-- **Settling a container** leaves on nodes what the decision on it says. -/
theorem told_settle {owner : NodeId} (synthetic : Bool) {a : Arrangement} (members : List NodeId)
    {s : State} (howner : owner < s.tree.size)
    (hbaseline : ∀ id, a.baseline = some id → id < s.tree.size)
    (hflags : a.flags.contains .baselineAnchor = false) :
    ∃ d, (settle c owner synthetic a members s).outcome.decisions = s.outcome.decisions ++ [d] ∧
      Told [d] s.tree (settle c owner synthetic a members s).tree := by
  obtain ⟨hsize, hplaced⟩ := List.foldlRecOn (motive := fun p : Placing ↦
    p.tree.size = s.tree.size ∧ ∀ i, p.tree.originOf i = s.tree.originOf i)
    ((reordering? s.tree a members).getD members) (placeMember owner) (b := ⟨s.tree, [], []⟩)
    ⟨rfl, fun _ ↦ rfl⟩ fun p h id _ ↦ ⟨(size_placeMember owner p id).trans h.1,
      fun i ↦ (originOf_placeMember owner p id i).trans (h.2 i)⟩
  refine ⟨_, rfl, fun i ↦ ?_⟩
  rw [settle]
  dsimp only
  rw [originOf_mark c (hsize.symm ▸ howner) (hsize.symm ▸ hbaseline), hplaced]
  · rfl
  · split
    · exact hflags
    · rw [Flags.contains_erase, hflags, Bool.and_false]

/-! ### Plans -/

section Plans

variable {c} {parent : NodeId} {content : Rect} {nodes : List Node}

mutual

/-- **Carrying a plan out**, of which the leaves are in the tree. -/
theorem told_realize : ∀ (p : Plan) (s : State), p.Shaped c content nodes →
    (∀ i ∈ p.leaves, i < s.tree.size) → ∀ {id : NodeId} {s' : State},
      realize c parent s p = .ok (id, s') → ∃ ds,
        s'.outcome.decisions = s.outcome.decisions ++ ds ∧ Told ds s.tree s'.tree
  | .member id, s => by
    intro _ _ id' s' hok
    obtain ⟨-, rfl⟩ := realize_member_cases hok
    exact ⟨[], (List.append_nil _).symm, .of_eq fun _ ↦ rfl⟩
  | .group a members, s => by
    intro hshaped hleaves id s' hok
    rw [Plan.leaves] at hleaves
    obtain ⟨t₁, ids, s₁, halloc, hall, rfl⟩ := realize_group_cases hok
    obtain ⟨hid, hsize⟩ := size_allocGroup halloc
    have hle : s.tree.size ≤ t₁.size := hsize ▸ Nat.le_succ _
    have hlt : id < t₁.size := by rw [hid, hsize]; exact Nat.lt_succ_self _
    obtain ⟨ds, hds, htold⟩ := told_realizeAll members ⟨t₁, s.outcome⟩ hshaped.2
      (fun i hi ↦ Nat.lt_of_lt_of_le (hleaves i hi) hle) hall
    have hmade := (confined_realizeAll hshaped.2 hall).size_le
    obtain ⟨d, hd, hsettled⟩ := told_settle c true ids (Nat.lt_of_lt_of_le hlt hmade)
      (fun i hi ↦ Nat.lt_of_lt_of_le (hleaves i (hshaped.1.level.baseline i hi))
        (Nat.le_trans hle hmade)) (hshaped.1.contains_eq_false (by decide))
    refine ⟨ds ++ [d], by rw [hd, hds, List.append_assoc], ?_⟩
    exact (Told.of_eq (originOf_allocGroup halloc)).trans (htold.trans hsettled)

theorem told_realizeAll : ∀ (ps : List Plan) (s : State), ShapedAll c content nodes ps →
    (∀ i ∈ leavesOfAll ps, i < s.tree.size) → ∀ {ids : List NodeId} {s' : State},
      realizeAll c parent s ps = .ok (ids, s') → ∃ ds,
        s'.outcome.decisions = s.outcome.decisions ++ ds ∧ Told ds s.tree s'.tree
  | [], s => by
    intro _ _ ids s' hok
    obtain ⟨-, rfl⟩ := realizeAll_nil_cases hok
    exact ⟨[], (List.append_nil _).symm, .of_eq fun _ ↦ rfl⟩
  | p :: r, s => by
    intro hshaped hleaves ids s' hok
    rw [leavesOfAll] at hleaves
    obtain ⟨id, s₁, ids', hfirst, hrest, rfl⟩ := realizeAll_cons_cases hok
    obtain ⟨ds, hds, htold⟩ := told_realize p s hshaped.1
      (fun i hi ↦ hleaves i (List.mem_append_left _ hi)) hfirst
    have hmade := (confined_realize hshaped.1 hfirst).size_le
    obtain ⟨ds', hds', htold'⟩ := told_realizeAll r s₁ hshaped.2
      (fun i hi ↦ Nat.lt_of_lt_of_le (hleaves i (List.mem_append_right _ hi)) hmade) hrest
    exact ⟨ds ++ ds', by rw [hds', hds, List.append_assoc], htold.trans htold'⟩

end

end Plans

/-! ### Runs -/

variable {c} {t t' : NodeTree} {x : NodeId} {o : ClassifyOutcome}

/-- **The run of a node.** -/
theorem told_run (hok : run c t x = .ok (o, t')) : Told o.decisions t t' := by
  rcases run_cases hok with ⟨-, rfl, rfl⟩ | ⟨p, ids, s, hp, -, hall, rfl, rfl⟩
  · exact .of_eq fun _ ↦ rfl
  · have hshaped := Plan.shaped_ofPending c p (t.lookup (t.pending x))
    have hmarked : Told [] t (markOverlays c t p (t.lookup (t.pending x))) :=
      .of_eq fun i ↦ List.foldlRecOn (motive := fun t' ↦ t'.originOf i = t.originOf i) _ _ rfl
        fun t' h n _ ↦ (originOf_modify t' n.id (fun _ ↦ by simp [Node.origin]) i).trans h
    have hsize := (unmoved_markOverlays c t p (t.lookup (t.pending x))).size_eq
    have hleaves : ∀ i ∈ leavesOfAll (Plan.ofPending c p (t.lookup (t.pending x))).members,
        i < (markOverlays c t p (t.lookup (t.pending x))).size := fun i hi ↦ by
      rw [hsize]
      exact lt_size_of_mem_pending ((mem_leaves_ofPending p).1 hi)
    obtain ⟨ds, hds, htold⟩ := told_realizeAll _ _ hshaped.members hleaves hall
    have hmade := (confined_realizeAll hshaped.members hall).size_le
    obtain ⟨d, hd, hsettled⟩ := told_settle c false ids
      (Nat.lt_of_lt_of_le (hsize ▸ lt_size_of_get? hp) hmade)
      (fun i hi ↦ Nat.lt_of_lt_of_le (hleaves i (hshaped.arrangement.level.baseline i hi)) hmade)
      (hshaped.arrangement.contains_eq_false (by decide))
    rw [hd, hds]
    exact hmarked.trans (htold.trans hsettled)

/-- Runs one after another. -/
theorem told_runs {xs : List NodeId} (hok : runs c t xs = .ok (o, t')) : Told o.decisions t t' := by
  induction xs generalizing t o with
  | nil =>
    rw [runs] at hok
    obtain ⟨rfl, rfl⟩ := Prod.mk.inj (Except.ok.inj hok)
    exact .of_eq fun _ ↦ rfl
  | cons x r ih =>
    obtain ⟨o₁, t₁, o₂, hfirst, hrest, rfl⟩ := runs_cons_cases hok
    exact (told_run hfirst).trans (ih hrest)

end Classify

/-! ### The baselines of decisions -/

/-- The baseline of a decision is that of a member, and a container that aligns its members has
one. -/
structure LayoutDecision.Anchored (d : LayoutDecision) : Prop where
  mem : ∀ i, d.baseline = some i → i ∈ d.members
  relative : d.container = .relative → ∃ i, d.baseline = some i

/-- **Every group that is planned** has its baseline inside. -/
theorem Shape.anchored {c : LayoutConfig} {content : Rect} {nodes : List Node} {a : Arrangement}
    {members : List Plan} (h : Shape c content nodes a members) {d : LayoutDecision}
    (hd : d.Records a members) : d.Anchored := by
  induction h with
  | @aligned run id inside test =>
    refine ⟨fun i hi ↦ ?_, fun _ ↦ ⟨id, hd.baseline⟩⟩
    obtain rfl : id = i := Option.some.inj (hd.baseline.symm.trans hi)
    rw [hd.members_eq]
    exact Axis.mem_of_anchor? test
  | @alone container n mem linear =>
    refine ⟨fun i hi ↦ absurd (hd.baseline.symm.trans hi) (by simp), fun hrelative ↦ ?_⟩
    rw [show container = .relative from hd.container.symm.trans hrelative] at linear
    exact absurd linear (by decide)
  | reversed _ ih => exact ih hd.of_reversed
  | _ =>
    exact ⟨fun i hi ↦ absurd (hd.baseline.symm.trans hi) (by simp),
      fun hrelative ↦ absurd (hd.container.symm.trans hrelative) (by simp)⟩

namespace Classify

variable {c : LayoutConfig} {t t' : NodeTree} {ds : List LayoutDecision}

theorem anchored_run {x : NodeId} (hok : run c t x = .ok (⟨ds, []⟩, t')) :
    ∀ d ∈ ds, d.Anchored := by
  rcases run_cases hok with ⟨-, hempty, -⟩ | ⟨p, -, -, hp, -⟩
  · obtain rfl : ds = [] := congrArg ClassifyOutcome.decisions hempty
    exact fun d hd ↦ absurd hd List.not_mem_nil
  · intro d hd
    rcases recorded_run hp hok d hd with hnone | ⟨a, members, hshape, hrecords⟩
    · exact absurd hnone List.not_mem_nil
    · exact hshape.anchored hrecords

/-- The outcome of several runs that skip no member. -/
theorem runs_cons_cases_of_placed {x : NodeId} {r : List NodeId}
    (hok : runs c t (x :: r) = .ok (⟨ds, []⟩, t')) :
    ∃ ds₁ t₁ ds₂, run c t x = .ok (⟨ds₁, []⟩, t₁) ∧ runs c t₁ r = .ok (⟨ds₂, []⟩, t') ∧
      ds = ds₁ ++ ds₂ := by
  obtain ⟨⟨ds₁, skipped₁⟩, t₁, ⟨ds₂, skipped₂⟩, hfirst, hrest, houtcome⟩ := runs_cons_cases hok
  obtain ⟨hds, hskipped⟩ := ClassifyOutcome.mk.inj houtcome
  obtain ⟨rfl, rfl⟩ := List.append_eq_nil_iff.1 hskipped.symm
  exact ⟨ds₁, t₁, ds₂, hfirst, hrest, hds⟩

theorem anchored_runs {xs : List NodeId} (hok : runs c t xs = .ok (⟨ds, []⟩, t')) :
    ∀ d ∈ ds, d.Anchored := by
  induction xs generalizing t ds with
  | nil =>
    obtain rfl : ds = [] :=
      (congrArg ClassifyOutcome.decisions (Prod.mk.inj (Except.ok.inj hok)).1).symm
    exact fun d hd ↦ absurd hd List.not_mem_nil
  | cons x r ih =>
    obtain ⟨ds₁, t₁, ds₂, hfirst, hrest, rfl⟩ := runs_cons_cases_of_placed hok
    exact fun d hd ↦ (List.mem_append.1 hd).elim (anchored_run hfirst d) (ih hrest d)

end Classify

/-! ### The owners of decisions -/

namespace Arranged

variable {settled : List NodeId} {t t' : NodeTree} {c : LayoutConfig} {ds : List LayoutDecision}

/-- **The decisions of a run** have different owners: groups that are new, and the node whose run it
is. -/
theorem owners_run {moved : List (NodeId × NodeId)} (h : Arranged moved settled t) {x : NodeId}
    (hx : x < t.size) (hok : Classify.run c t x = .ok (⟨ds, []⟩, t')) :
    (ds.map LayoutDecision.owner).Nodup ∧
      ∀ d ∈ ds, d.owner = x ∨ t.size ≤ d.owner ∧ d.owner < t'.size := by
  by_cases hpending : t.pending x = []
  · obtain ⟨hempty, -⟩ := Prod.mk.inj (Except.ok.inj
      (hok.symm.trans (Classify.run_of_pending_eq_nil c hx hpending)))
    obtain rfl : ds = [] := congrArg ClassifyOutcome.decisions hempty
    exact ⟨.nil, fun d hd ↦ absurd hd List.not_mem_nil⟩
  · obtain ⟨gs, last, t₁, hrun, hdecides⟩ := Classify.exists_run c hx (h.open_pending x) hpending
    obtain ⟨houtcome, rfl⟩ := Prod.mk.inj (Except.ok.inj (hok.symm.trans hrun))
    obtain rfl : ds = gs ++ [last] := congrArg ClassifyOutcome.decisions houtcome
    exact ⟨hdecides.owners hx, fun d hd ↦ hdecides.owner_cases hd⟩

/-- **The decisions of several runs**, of different nodes, have different owners. -/
theorem owners_runs (h : Arranged [] settled t) {xs : List NodeId}
    (hkinds : ∀ x ∈ xs, ∃ k, t.kind? x = some k ∧ k ≠ .group ∧ k ≠ .host) (hnodup : xs.Nodup)
    (hok : Classify.runs c t xs = .ok (⟨ds, []⟩, t')) :
    (ds.map LayoutDecision.owner).Nodup ∧ ∀ d ∈ ds, d.owner ∈ xs ∨ t.size ≤ d.owner := by
  induction xs generalizing t settled ds with
  | nil =>
    obtain rfl : ds = [] :=
      (congrArg ClassifyOutcome.decisions (Prod.mk.inj (Except.ok.inj hok)).1).symm
    exact ⟨.nil, fun d hd ↦ absurd hd List.not_mem_nil⟩
  | cons x r ih =>
    obtain ⟨hx, hr⟩ := List.nodup_cons.1 hnodup
    obtain ⟨ds₁, t₁, ds₂, hfirst, hrest, rfl⟩ := Classify.runs_cons_cases_of_placed hok
    obtain ⟨k, hk, hgroup, hhost⟩ := hkinds x List.mem_cons_self
    have hlt := lt_size_of_kind? hk
    obtain ⟨ds', t₂, hrun, harranged, hext, -⟩ := h.exists_run c hk hgroup hhost
    obtain ⟨-, rfl⟩ := Prod.mk.inj (Except.ok.inj (hfirst.symm.trans hrun))
    obtain ⟨hnodup₁, hcases₁⟩ := h.owners_run hlt hfirst
    obtain ⟨hnodup₂, hcases₂⟩ := ih harranged (fun y hy ↦ by
      obtain ⟨k, hk, hne⟩ := hkinds y (List.mem_cons_of_mem _ hy)
      exact ⟨k, hext.kind?_eq hk, hne⟩) hr hrest
    refine ⟨?_, fun d hd ↦ ?_⟩
    · rw [List.map_append]
      refine hnodup₁.append hnodup₂ fun i hi hi' ↦ ?_
      obtain ⟨d, hd, rfl⟩ := List.mem_map.1 hi
      obtain ⟨d', hd', heq⟩ := List.mem_map.1 hi'
      rcases hcases₂ d' hd' with hmem | hle <;> rcases hcases₁ d hd with hself | ⟨hnew, hlt'⟩
      · exact hx (hself ▸ heq ▸ hmem)
      · obtain ⟨k, hk, -⟩ := hkinds d'.owner (List.mem_cons_of_mem _ hmem)
        exact absurd (heq ▸ lt_size_of_kind? hk) (Nat.not_lt.2 hnew)
      · rw [heq, hself] at hle
        exact Nat.not_lt.2 (Nat.le_trans hext.size_le hle) hlt
      · exact Nat.not_lt.2 (heq ▸ hle) hlt'
    · rcases List.mem_append.1 hd with hd | hd
      · exact (hcases₁ d hd).imp (fun heq ↦ by rw [heq]; exact List.mem_cons_self) And.left
      · exact (hcases₂ d hd).imp (List.mem_cons_of_mem _) (Nat.le_trans hext.size_le)

end Arranged

/-! ### Containers that align their members -/

/-- **A container that aligns its members on a baseline**, in a tree: it is one, its members come
out in the order that the decision says, and the only one of them that is marked is the node whose
baseline the decision names. -/
structure LayoutDecision.AlignsIn (t : NodeTree) (d : LayoutDecision) (anchor : NodeId) : Prop where
  container : (t.originOf d.owner).container = .relative
  order : t.renderOrder d.owner = .ok d.outputOrder
  nodup : d.outputOrder.Nodup
  parent : ∀ i ∈ d.outputOrder, t.renderParent? i = some d.owner
  baseline : d.baseline = some anchor
  mem : anchor ∈ d.outputOrder
  marked : ∀ i ∈ d.outputOrder, (t.originOf i).anchor = true ↔ i = anchor

/-- What of a node matters for that: its place, and what decisions leave on it. -/
def Node.standing (n : Node) : Place × Container × Flags := (n.place, n.container, n.flags)

/-- Trees that differ in nothing of that. -/
def NodeTree.SameStanding (t t' : NodeTree) : Prop :=
  ∀ i, (t'.get? i).map Node.standing = (t.get? i).map Node.standing

namespace NodeTree.SameStanding

variable {t t' : NodeTree} (h : SameStanding t t')

include h

theorem exists_get? {i : NodeId} {n : Node} (hn : t.get? i = some n) :
    ∃ n', t'.get? i = some n' ∧ n'.standing = n.standing := by
  have hsome := h i
  rw [hn, Option.map_some] at hsome
  exact Option.map_eq_some_iff.1 hsome

theorem place_eq (i : NodeId) : t'.place i = t.place i := by
  have hfirst := congrArg (fun o ↦ (o.map Prod.fst).getD .blank) (h i)
  rwa [Option.map_map, Option.map_map] at hfirst

theorem renderOrder_eq {i : NodeId} {members : List NodeId}
    (hmembers : t.renderOrder i = .ok members) : t'.renderOrder i = .ok members := by
  have hposition : t'.position = t.position := funext fun i ↦ by
    rw [position_eq_place, position_eq_place, h.place_eq]
  have hi : i < t.size := by
    rcases Nat.lt_or_ge i t.size with hlt | hge
    · exact hlt
    · rw [renderOrder, get?_eq_none_iff.2 hge] at hmembers
      exact absurd hmembers (by simp)
  obtain ⟨n, hn⟩ := NodeTree.exists_get? hi
  obtain ⟨n', hn', hsame⟩ := h.exists_get? hn
  rw [renderOrder, hn] at hmembers
  rw [renderOrder, hn', hposition, ← hmembers]
  exact congrArg (fun p : Place ↦ Except.ok (stableSort _ p.renderChildren))
    (Prod.mk.inj hsame).1

/-- **How members are aligned** is the same in both. -/
theorem alignsIn {d : LayoutDecision} {anchor : NodeId} (hd : d.AlignsIn t anchor) :
    d.AlignsIn t' anchor := by
  have hmarks : ∀ {i : NodeId} {n : Node}, t.get? i = some n →
      (t'.originOf i).container = n.container ∧
        (t'.originOf i).anchor = n.flags.contains .baselineAnchor := fun {i n} hn ↦ by
    obtain ⟨n', hn', hsame⟩ := h.exists_get? hn
    obtain ⟨hcontainer, hflags⟩ := Prod.mk.inj (Prod.mk.inj hsame).2
    rw [originOf_of_get? hn', ← hcontainer, ← hflags]
    exact ⟨rfl, rfl⟩
  have hcontainer := hd.container
  have hparent : ∀ i ∈ d.outputOrder, t'.renderParent? i = some d.owner := fun i hi ↦
    (congrArg Place.renderParent (h.place_eq i)).trans (hd.parent i hi)
  refine ⟨?_, h.renderOrder_eq hd.order, hd.nodup, hparent, hd.baseline, hd.mem, fun i hi ↦ ?_⟩
  · cases hn : t.get? d.owner with
    | none =>
      rw [originOf, origin?, hn] at hcontainer
      exact absurd hcontainer (by decide)
    | some n =>
      rw [originOf_of_get? hn] at hcontainer
      exact (hmarks hn).1.trans hcontainer
  · obtain ⟨n, hn⟩ := NodeTree.exists_get? (lt_size_of_renderParent? (hd.parent i hi))
    rw [← hd.marked i hi, (hmarks hn).2, originOf_of_get? hn]
    rfl

end NodeTree.SameStanding

theorem LayoutDecision.HoldsIn.mem_outputOrder {t : NodeTree} {d : LayoutDecision}
    (h : d.HoldsIn t) {i : NodeId} : i ∈ d.outputOrder ↔ i ∈ d.members := by
  rw [outputOrder]
  cases horder : d.reorder with
  | none => rfl
  | some order => exact (h.reorders.sorted order horder).perm.mem_iff

/-- **Where all runs are classified**, every container that aligns its members is marked as its
decision says. -/
theorem Arranged.aligns_runs {settled : List NodeId} {t t' : NodeTree} {c : LayoutConfig}
    {ds : List LayoutDecision} (h : Arranged [] settled t) {xs : List NodeId}
    (hkinds : ∀ x ∈ xs, ∃ k, t.kind? x = some k ∧ k ≠ .group ∧ k ≠ .host) (hnodup : xs.Nodup)
    (hnew : ∀ x ∈ xs, x ∉ settled) (hunmarked : ∀ i, (t.originOf i).anchor = false)
    (hok : Classify.runs c t xs = .ok (⟨ds, []⟩, t')) {d : LayoutDecision} (hd : d ∈ ds)
    (hrelative : d.container = .relative) : ∃ anchor, d.AlignsIn t' anchor := by
  obtain ⟨ds', t₁, hruns, hholds, -⟩ := h.exists_holding_runs c hkinds hnodup hnew
  obtain ⟨houtcome, rfl⟩ := Prod.mk.inj (Except.ok.inj (hok.symm.trans hruns))
  obtain rfl : ds = ds' := congrArg ClassifyOutcome.decisions houtcome
  obtain ⟨o, t₂, hruns', harranged, -⟩ := h.exists_runs c hkinds
  obtain ⟨-, rfl⟩ := Prod.mk.inj (Except.ok.inj (hok.symm.trans hruns'))
  have htold : Told ds t t' := Classify.told_runs hok
  have hanchored := Classify.anchored_runs hok
  have howners := (h.owners_runs hkinds hnodup hok).1
  obtain ⟨anchor, hanchor⟩ := (hanchored d hd).relative hrelative
  have hparent : ∀ d ∈ ds, ∀ i ∈ d.outputOrder, t'.renderParent? i = some d.owner :=
    fun d hd i hi ↦ (harranged.mem_iff d.owner i).1 ((hholds d hd).1.inside ▸ hi)
  refine ⟨anchor, (htold.container_eq howners hd).trans hrelative, ?_, ?_, hparent d hd, hanchor,
    (hholds d hd).1.mem_outputOrder.2 ((hanchored d hd).mem anchor hanchor), fun i hi ↦ ?_⟩
  · rw [renderOrder_eq (hholds d hd).1.owner, (hholds d hd).1.order_eq]
  · exact (hholds d hd).1.inside ▸ harranged.nodup d.owner
  · rw [htold.anchor_iff, hunmarked]
    refine ⟨fun hmarked ↦ ?_, fun heq ↦ .inr ⟨d, hd, heq ▸ hanchor⟩⟩
    obtain ⟨e, he, hbaseline⟩ := hmarked.resolve_left Bool.false_ne_true
    -- a node has one render parent, and this has one decision
    have hmem := (hholds e he).1.mem_outputOrder.2 ((hanchored e he).mem i hbaseline)
    have hsame := Option.some.inj ((hparent e he i hmem).symm.trans (hparent d hd i hi))
    obtain rfl := List.inj_on_of_nodup_map howners he hd hsame
    exact Option.some.inj (hbaseline.symm.trans hanchor)

end ViewCompiler
