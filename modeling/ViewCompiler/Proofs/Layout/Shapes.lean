import ViewCompiler.Proofs.Layout.Plans

/-!
# The groups of a plan

The plan of a run is put together on several ways: from the run as a whole, from the parts that it
is split into at floats, from the part below the last clear by the same rules again, and from what
is layered over the flow. `Shape` lists every group that comes of this, each with the test that its
members have passed, and `Plan.shaped_ofPending` says that there are no others.

A statement on all groups of all plans is then a statement with one case for each shape, and does
not follow the ways again. One is that only nodes of a run are aligned on a baseline, never groups
that are made for it, and that the node whose baseline the others follow is one of them
(`Plan.level_ofPending`). A view in such a container is named after the number of its node if it has
no `id` of its own, so this is what keeps the numbers of groups out of the names.
-/

namespace ViewCompiler

/-- **The groups that are planned** for some nodes in a box of content. Where the members have been
tested they are nodes, and in the order of the test. -/
inductive Shape (c : LayoutConfig) (content : Rect) (nodes : List Node) :
    Arrangement → List Plan → Prop
  /-- One node alone needs no test. -/
  | alone {container : Container} {n : Node} (mem : n ∈ nodes)
      (linear : container.isLinear = true) :
      Shape c content nodes ⟨container, .empty, none, none⟩ [.member n.id]
  | beside {run : List Node} (inside : run ⊆ nodes)
      (test : Axis.isHorizontal c.tolerance run = true) :
      Shape c content nodes ⟨.linearHorizontal, .empty, none, none⟩
        (run.map fun n ↦ .member n.id)
  | stacked {run : List Node} (inside : run ⊆ nodes)
      (test : Axis.isVertical content c.tolerance run = true) :
      Shape c content nodes ⟨.linearVertical, .empty, none, none⟩ (run.map fun n ↦ .member n.id)
  | aligned {run : List Node} {id : NodeId} (inside : run ⊆ nodes)
      (test : Axis.anchor? run = some id) :
      Shape c content nodes ⟨.relative, .empty, none, some id⟩ (run.map fun n ↦ .member n.id)
  /-- What has failed all tests. -/
  | degenerate {run : List Node} (inside : run ⊆ nodes)
      (beside : Axis.isHorizontal c.tolerance run = false)
      (stacked : Axis.isVertical content c.tolerance run = false)
      (aligned : Axis.anchor? run = none) :
      Shape c content nodes ⟨.frame, Flags.empty.insert .degenerate, none, none⟩
        (run.map fun n ↦ .member n.id)
  /-- Floats with what wraps around them. -/
  | band {run : List Node} (inside : run ⊆ nodes)
      (test : Axis.isHorizontal c.tolerance run = true) :
      Shape c content nodes ⟨.linearHorizontal, Flags.empty.insert .floatSplit, none, none⟩
        (run.map fun n ↦ .member n.id)
  /-- The parts of a run that is split at floats. -/
  | parts (members : List Plan) :
      Shape c content nodes ⟨.linearVertical, Flags.empty.insert .floatSplit, none, none⟩ members
  | grid {run : List Node} (inside : run ⊆ nodes) (nonempty : run ≠ []) :
      Shape c content nodes
        ⟨.grid, .empty, some (Axis.gridShape c.tolerance (run.map Node.bounds)), none⟩
        (run.map fun n ↦ .member n.id)
  | columns {run : List Node} (inside : run ⊆ nodes) :
      Shape c content nodes ⟨.frame, Flags.empty.insert .multiColumn, none, none⟩
        (run.map fun n ↦ .member n.id)
  /-- What is in the flow, and what is layered over it. -/
  | layers (members : List Plan) : Shape c content nodes ⟨.frame, .empty, none, none⟩ members
  /-- Any of these, to be shown against the order of the source. -/
  | reversed {a : Arrangement} {members : List Plan} (shape : Shape c content nodes a members) :
      Shape c content nodes { a with flags := a.flags.insert .reversed } members

section Shaped

variable (c : LayoutConfig) (content : Rect) (nodes : List Node)

mutual

/-- All groups in a plan have a shape. -/
def Plan.Shaped : Plan → Prop
  | .member _ => True
  | .group a members => Shape c content nodes a members ∧ ShapedAll members

def ShapedAll : List Plan → Prop
  | [] => True
  | p :: r => p.Shaped ∧ ShapedAll r

end

/-- A group of which all groups have a shape, itself among them. -/
structure GroupPlan.Shaped (g : GroupPlan) : Prop where
  arrangement : Shape c content nodes g.arrangement g.members
  members : ShapedAll c content nodes g.members

end Shaped

section Groups

variable {c : LayoutConfig} {content : Rect} {nodes : List Node} {ps qs : List Plan}
  {g : GroupPlan}

theorem shapedAll_iff : ShapedAll c content nodes ps ↔ ∀ p ∈ ps, p.Shaped c content nodes := by
  induction ps with
  | nil => simp [ShapedAll]
  | cons p r ih => simp [ShapedAll, ih]

theorem shapedAll_append (h : ShapedAll c content nodes ps) (h' : ShapedAll c content nodes qs) :
    ShapedAll c content nodes (ps ++ qs) := by
  rw [shapedAll_iff] at h h' ⊢
  exact fun p hp ↦ (List.mem_append.1 hp).elim (h p) (h' p)

theorem shapedAll_map_member (run : List Node) :
    ShapedAll c content nodes (run.map fun n ↦ .member n.id) := by
  rw [shapedAll_iff]
  intro p hp
  obtain ⟨n, -, rfl⟩ := List.mem_map.1 hp
  trivial

namespace GroupPlan.Shaped

/-- A group whose members are the nodes themselves. -/
theorem of_members {a : Arrangement} {run : List Node}
    (h : Shape c content nodes a (run.map fun n ↦ .member n.id)) :
    Shaped c content nodes ⟨a, run.map fun n ↦ .member n.id⟩ :=
  ⟨h, shapedAll_map_member run⟩

theorem asMember (h : g.Shaped c content nodes) :
    (Plan.group g.arrangement g.members).Shaped c content nodes :=
  ⟨h.arrangement, h.members⟩

theorem reversed (h : g.Shaped c content nodes) : (g.mark .reversed).Shaped c content nodes :=
  ⟨.reversed h.arrangement, h.members⟩

theorem collapse (h : g.Shaped c content nodes) : g.collapse.Shaped c content nodes := by
  obtain ⟨arrangement, members⟩ := g
  obtain - | ⟨p, - | ⟨q, r⟩⟩ := members
  · exact h.asMember
  · exact h.members.1
  · exact h.asMember

end GroupPlan.Shaped

end Groups

/-! ### The parts of a run -/

namespace FloatParts

/-- All parts are of certain nodes. -/
structure Within (p : FloatParts) (nodes : List Node) : Prop where
  above : p.above ⊆ nodes
  leftAbove : p.leftAbove ⊆ nodes
  rightAbove : p.rightAbove ⊆ nodes
  inline : p.inline ⊆ nodes
  leftBelow : p.leftBelow ⊆ nodes
  rightBelow : p.rightBelow ⊆ nodes
  below : p.below ⊆ nodes

theorem within_ofRun {run nodes : List Node} (hinside : run ⊆ nodes) :
    (ofRun run).Within nodes := by
  have hall : (ofRun run).all ⊆ nodes := fun _ hn ↦ hinside ((perm_all run).mem_iff.1 hn)
  simp only [all, List.append_subset] at hall
  obtain ⟨⟨⟨⟨⟨⟨habove, hleft⟩, hright⟩, hinline⟩, hleftBelow⟩, hrightBelow⟩, hbelow⟩ := hall
  exact ⟨habove, hleft, hright, hinline, hleftBelow, hrightBelow, hbelow⟩

end FloatParts

namespace Plan

variable {c : LayoutConfig} {content : Rect} {nodes : List Node} {run : List Node}

theorem shaped_axis? (hinside : run ⊆ nodes) {g : GroupPlan} (h : axis? c content run = some g) :
    g.Shaped c content nodes := by
  unfold axis? at h
  split at h
  · rename_i n
    have hmem : n ∈ nodes := hinside List.mem_cons_self
    split at h
    · exact Option.some.inj h ▸ ⟨.alone hmem rfl, trivial, trivial⟩
    · exact Option.some.inj h ▸ ⟨.alone hmem rfl, trivial, trivial⟩
  · split at h
    · exact Option.some.inj h ▸ .of_members (.beside hinside ‹_›)
    · split at h
      · exact Option.some.inj h ▸ .of_members (.stacked hinside ‹_›)
      · exact absurd h (by simp)

/-- A run that lies along no axis has failed both tests. -/
theorem tests_of_axis? (h : axis? c content run = none) :
    Axis.isHorizontal c.tolerance run = false ∧
      Axis.isVertical content c.tolerance run = false := by
  unfold axis? at h
  split at h
  · split at h <;> exact absurd h (by simp)
  · split at h
    · exact absurd h (by simp)
    · split at h
      · exact absurd h (by simp)
      · exact ⟨Bool.not_eq_true _ ▸ ‹¬Axis.isHorizontal _ _ = true›,
          Bool.not_eq_true _ ▸ ‹¬Axis.isVertical _ _ _ = true›⟩

theorem shaped_free (hinside : run ⊆ nodes) (h : axis? c content run = none) :
    (free run).Shaped c content nodes := by
  obtain ⟨hbeside, hstacked⟩ := tests_of_axis? h
  unfold free
  split
  · exact .of_members (.aligned hinside ‹_›)
  · exact .of_members (.degenerate hinside hbeside hstacked ‹_›)

theorem shaped_whole (hinside : run ⊆ nodes) : (whole c content run).Shaped c content nodes := by
  rw [whole]
  cases h : axis? c content run with
  | none => exact shaped_free hinside h
  | some g => exact shaped_axis? hinside h

theorem shapedAll_parts {parts : List (List Node)} (hinside : ∀ run ∈ parts, run ⊆ nodes) :
    ShapedAll c content nodes (parts.filterMap (part? (whole c content))) := by
  rw [shapedAll_iff]
  intro p hp
  obtain ⟨run, hrun, hpart⟩ := List.mem_filterMap.1 hp
  unfold part? at hpart
  split at hpart
  · exact absurd hpart (by simp)
  · rw [← Option.some.inj hpart]
    trivial
  · rw [← Option.some.inj hpart]
    exact (shaped_whole (hinside run hrun)).asMember

theorem shapedAll_part? (hinside : run ⊆ nodes) :
    ShapedAll c content nodes (part? (whole c content) run).toList := by
  have hparts : ShapedAll c content nodes ([run].filterMap (part? (whole c content))) :=
    shapedAll_parts (by simpa using hinside)
  cases h : part? (whole c content) run with
  | none => trivial
  | some p => simpa [h] using hparts

theorem shapedAll_bandMembers {p : FloatParts} (hp : p.Within nodes) :
    ShapedAll c content nodes (bandMembers c content p) := by
  unfold bandMembers
  dsimp only
  split
  · rename_i hband
    have hinside : p.leftAbove ++ p.inline ++ p.rightAbove ⊆ nodes :=
      List.append_subset.2 ⟨List.append_subset.2 ⟨hp.leftAbove, hp.inline⟩, hp.rightAbove⟩
    have hshape : GroupPlan.Shaped c content nodes ((GroupPlan.ofRun .linearHorizontal
        (p.leftAbove ++ p.inline ++ p.rightAbove)).mark .floatSplit) :=
      .of_members (.band hinside (Bool.and_eq_true_iff.1 hband).2)
    exact ⟨hshape.asMember, trivial⟩
  · exact shapedAll_parts (by simp [hp.leftAbove, hp.rightAbove, hp.inline])

theorem shaped_stack {ps : List Plan} (h : ShapedAll c content nodes ps) :
    (stack ps).Shaped c content nodes := by
  unfold stack
  split
  · exact ⟨h.1.1, h.1.2⟩
  · exact ⟨.parts _, h⟩

/-- **The plan of a run.** The induction is on the length of the run, for the part from the last
clear on. -/
theorem shaped_ofRun (hinside : run ⊆ nodes) : (ofRun c content run).Shaped c content nodes := by
  induction hlen : run.length using Nat.strongRecOn generalizing run with
  | ind n ih =>
    rw [ofRun]
    split
    · exact shaped_axis? hinside ‹_›
    · split
      · rename_i hfloat
        have hp := FloatParts.within_ofRun hinside
        have hlast := ih _ (hlen ▸ FloatParts.length_below_lt hfloat) hp.below rfl
        refine shaped_stack (shapedAll_append (shapedAll_append (shapedAll_append
          (shapedAll_part? hp.above) (shapedAll_bandMembers hp))
          (shapedAll_parts (by simp [hp.leftBelow, hp.rightBelow]))) ?_)
        split
        · trivial
        · exact ⟨trivial, trivial⟩
        · exact ⟨hlast.asMember, trivial⟩
      · exact shaped_free hinside ‹_›

theorem shaped_ofParent {parent : Node} (hinside : run ⊆ nodes) (hne : run ≠ []) :
    (ofParent c parent run).Shaped c parent.contentBox nodes := by
  unfold ofParent
  split
  · exact .of_members (.grid hinside hne)
  · split
    · exact .of_members (.columns hinside)
    · have hrun : (ofRun c parent.contentBox run).Shaped c parent.contentBox nodes :=
        shaped_ofRun hinside
      dsimp only
      split
      · exact hrun.reversed
      · exact hrun

/-- **The plan of all pending members of a node** has no groups but those listed. -/
theorem shaped_ofPending (c : LayoutConfig) (parent : Node) (run : List Node) :
    (ofPending c parent run).Shaped c parent.contentBox run := by
  have hframe : ∀ (flow : Option GroupPlan) (layered : List Node),
      (∀ g, flow = some g → g.Shaped c parent.contentBox run) → (GroupPlan.of .frame
        ((flow.map GroupPlan.collapse).toList ++ layered.map fun n ↦ .member n.id)).Shaped c
          parent.contentBox run := by
    intro flow layered hflow
    refine ⟨.layers _, shapedAll_append ?_ (shapedAll_map_member layered)⟩
    cases flow with
    | none => trivial
    | some g => exact ⟨(hflow g rfl).collapse, trivial⟩
  have hparent : ∀ g, (if (run.filter fun n ↦ !isPositioned c parent.contentBox n).isEmpty then
      none else some (ofParent c parent
        (run.filter fun n ↦ !isPositioned c parent.contentBox n))) = some g →
          g.Shaped c parent.contentBox run := by
    intro g hg
    split at hg
    · exact absurd hg (by simp)
    · rename_i hflow
      exact Option.some.inj hg ▸ shaped_ofParent List.filter_sublist.subset
        fun hnil ↦ hflow (List.isEmpty_iff.2 hnil)
  unfold ofPending
  dsimp only
  split
  · rename_i g hg _
    exact hparent g hg
  · exact hframe _ _ hparent

end Plan

/-! ### What is aligned on a baseline -/

/-- What holds of an arrangement of members: what is aligned on a baseline are nodes, and the
baseline is that of a node inside. -/
structure Arrangement.Level (a : Arrangement) (members : List Plan) : Prop where
  baseline : ∀ id, a.baseline = some id → id ∈ leavesOfAll members
  nodes : a.container = .relative → ∀ p ∈ members, ∃ id, p = .member id

mutual

/-- All arrangements in a plan are level. -/
def Plan.Level : Plan → Prop
  | .member _ => True
  | .group a members => a.Level members ∧ LevelAll members

def LevelAll : List Plan → Prop
  | [] => True
  | p :: r => p.Level ∧ LevelAll r

end

/-- A group of which all arrangements are level. -/
structure GroupPlan.Level (g : GroupPlan) : Prop where
  arrangement : g.arrangement.Level g.members
  members : LevelAll g.members

/-! ### The plans of runs -/

theorem Axis.mem_of_bestAnchor? {run : List Node} {n : Node} (h : bestAnchor? run = some n) :
    n ∈ run := by
  cases run with
  | nil => exact absurd h (by simp [bestAnchor?])
  | cons m r =>
    rw [← Option.some.inj h]
    refine List.foldlRecOn (motive := fun best ↦ best ∈ m :: r) r _ List.mem_cons_self ?_
    intro best hbest n hn
    split
    · exact List.mem_cons_of_mem _ hn
    · exact hbest

/-- The node whose baseline the others follow is in the run. -/
theorem Axis.mem_of_anchor? {run : List Node} {id : NodeId} (h : anchor? run = some id) :
    id ∈ run.map Node.id := by
  rw [anchor?] at h
  split at h
  · obtain ⟨n, hn, rfl⟩ := Option.map_eq_some_iff.1 h
    have hmem := mem_of_bestAnchor? hn
    split at hmem
    · exact List.mem_map_of_mem hmem
    · exact List.mem_map_of_mem (List.mem_filter.1 hmem).1
  · exact absurd h (by simp)

section Shapes

variable {c : LayoutConfig} {content : Rect} {nodes : List Node}

/-- **Every group that is planned** aligns nodes only. -/
theorem Shape.level {a : Arrangement} {members : List Plan}
    (h : Shape c content nodes a members) : a.Level members := by
  induction h with
  | @aligned run id inside test =>
    refine ⟨fun id' hid ↦ ?_, fun _ p hp ↦ ?_⟩
    · obtain rfl : id = id' := Option.some.inj hid
      rw [leavesOfAll_map_member]
      exact Axis.mem_of_anchor? test
    · obtain ⟨n, -, rfl⟩ := List.mem_map.1 hp
      exact ⟨n.id, rfl⟩
  | @alone container n mem linear =>
    refine ⟨fun _ hid ↦ absurd hid (by simp), fun hcontainer ↦ ?_⟩
    have hlinear : container.isLinear = true := linear
    rw [show container = .relative from hcontainer] at hlinear
    exact absurd hlinear (by decide)
  | reversed shape ih => exact ⟨ih.baseline, ih.nodes⟩
  | _ => exact ⟨fun _ hid ↦ absurd hid (by simp), fun hcontainer ↦ absurd hcontainer (by simp)⟩

mutual

theorem Plan.Shaped.level : ∀ {p : Plan}, p.Shaped c content nodes → p.Level
  | .member _, _ => trivial
  | .group _ _, h => ⟨h.1.level, ShapedAll.level h.2⟩

theorem ShapedAll.level : ∀ {ps : List Plan}, ShapedAll c content nodes ps → LevelAll ps
  | [], _ => trivial
  | _ :: _, h => ⟨Plan.Shaped.level h.1, ShapedAll.level h.2⟩

end

end Shapes

/-- **The plan of all pending members of a node** aligns nodes only. -/
theorem Plan.level_ofPending (c : LayoutConfig) (parent : Node) (run : List Node) :
    (ofPending c parent run).Level :=
  have h := shaped_ofPending c parent run
  ⟨h.arrangement.level, h.members.level⟩

end ViewCompiler
