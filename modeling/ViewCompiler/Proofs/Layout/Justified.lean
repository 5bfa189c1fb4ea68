import ViewCompiler.Proofs.Layout.Footprint

/-!
# Containers fit their members

A run is tested as a whole, in parts, and in parts of parts, and what comes of it is put into groups
that are settled one by one. So a container could end up around members that never passed its test.
It does not (`Classify.containers_fit`):

* every group that is planned has one of few shapes, each with the test that its members have passed
  (`Shape`);
* a decision carries out one of these groups (`Classify.follows_realizeAll`). It says what the group
  says (`LayoutDecision.Records`), and its members are those of the group, in the same order, with
  the node of a group in place of the group. That needs no member to be skipped, which is known of a
  run whose members can be given a place;
* the nodes in a plan are those of the tree before classification, so the tests are about boxes that
  are there whatever classification changes.
-/

namespace ViewCompiler

/-! ### What the tests say -/

namespace Axis

/-- Boxes that lie side by side: nothing clears floats or breaks the line, and every two share a
horizontal band and no vertical one. -/
def SideBySide (tolerance : Scalar) (run : List Node) : Prop :=
  (∀ n ∈ run, n.style.clear.isClearing = false ∧ n.isForcedBreak = false) ∧
    run.Pairwise fun a b ↦ a.bounds.overlapsVertically b.bounds tolerance = true ∧
      a.bounds.overlapsHorizontally b.bounds tolerance = false

/-- Boxes that lie on top of each other, each below the one before it. -/
def Stacked (content : Rect) (tolerance : Scalar) (run : List Node) : Prop :=
  run.IsChain fun a b ↦ goesBelow content tolerance a b = true

/-- A node that a container which aligns baselines can hold: in the line, not reaching above it, and
aligned in a way that such a container knows. -/
structure Alignable (n : Node) : Prop where
  inline : n.isInlineLevel = true
  margin : ¬n.margin.top < 0
  top : ∀ x, n.style.top = .px x → ¬x < 0
  compatible : n.style.verticalAlign.isRelativeCompatible = true

/-- The node whose baseline the others follow: one of them, and on the baseline itself if any of
them is. -/
structure IsAnchor (run : List Node) (a : Node) : Prop where
  mem : a ∈ run
  onBaseline : (∃ n ∈ run, n.style.verticalAlign.isBaseline = true) →
    a.style.verticalAlign.isBaseline = true

theorem overlapsVertically_comm (r s : Rect) (tolerance : Scalar) :
    r.overlapsVertically s tolerance = s.overlapsVertically r tolerance :=
  Bool.and_comm _ _

theorem overlapsHorizontally_comm (r s : Rect) (tolerance : Scalar) :
    r.overlapsHorizontally s tolerance = s.overlapsHorizontally r tolerance :=
  Bool.and_comm _ _

theorem besides_iff {tolerance : Scalar} {a b : Node} : besides tolerance b a = true ↔
    a.bounds.overlapsVertically b.bounds tolerance = true ∧
      a.bounds.overlapsHorizontally b.bounds tolerance = false := by
  rw [besides, Bool.and_eq_true, Bool.not_eq_true', overlapsVertically_comm b.bounds,
    overlapsHorizontally_comm b.bounds]

theorem allPairs_iff {related : Node → Node → Bool} {run : List Node} :
    allPairs related run = true ↔ run.Pairwise fun a b ↦ related b a = true := by
  induction run with
  | nil => simp [allPairs]
  | cons n r ih => rw [allPairs, Bool.and_eq_true, List.all_eq_true, ih, List.pairwise_cons]

theorem isHorizontal_iff {tolerance : Scalar} {run : List Node} :
    isHorizontal tolerance run = true ↔ SideBySide tolerance run := by
  rw [isHorizontal, Bool.and_eq_true, allPairs_iff, SideBySide]
  simp only [besides_iff, Bool.not_eq_true', List.any_eq_false, Node.interruptsLine,
    Bool.not_eq_true, Bool.or_eq_false_iff]

theorem isVertical_iff {content : Rect} {tolerance : Scalar} {run : List Node} :
    isVertical content tolerance run = true ↔ Stacked content tolerance run := by
  rw [isVertical, Stacked]
  induction run with
  | nil => simp [allNeighbours]
  | cons a r ih =>
    cases r with
    | nil => simp [allNeighbours]
    | cons b r => rw [allNeighbours, Bool.and_eq_true, ih, List.isChain_cons_cons]

theorem isAlignable_iff {n : Node} : isAlignable n = true ↔ Alignable n := by
  have habove : reachesAbove n = false ↔
      ¬n.margin.top < 0 ∧ ∀ x, n.style.top = .px x → ¬x < 0 := by
    rw [reachesAbove, Bool.or_eq_false_iff, decide_eq_false_iff_not]
    refine and_congr_right fun _ ↦ ?_
    split
    · rename_i x hx
      rw [decide_eq_false_iff_not]
      refine ⟨fun h y hy ↦ ?_, fun h ↦ h x hx⟩
      obtain rfl := Dimension.px.inj (hx.symm.trans hy)
      exact h
    · rename_i hne
      exact iff_of_true rfl fun x hx ↦ absurd hx (hne x)
  rw [isAlignable, Bool.and_eq_true, Bool.and_eq_true, Bool.not_eq_true', habove]
  constructor
  · rintro ⟨⟨hinline, hmargin, htop⟩, hcompatible⟩
    exact ⟨hinline, hmargin, htop, hcompatible⟩
  · exact fun h ↦ ⟨⟨h.inline, h.margin, h.top⟩, h.compatible⟩

/-- A run with an anchor can be aligned, and the anchor is one of its nodes. -/
theorem exists_of_anchor? {run : List Node} {id : NodeId} (h : anchor? run = some id) :
    (∀ n ∈ run, Alignable n) ∧ ∃ a, IsAnchor run a ∧ a.id = id := by
  rw [anchor?] at h
  split at h
  · rename_i hall
    obtain ⟨a, ha, hid⟩ := Option.map_eq_some_iff.1 h
    have hmem := mem_of_bestAnchor? ha
    refine ⟨fun n hn ↦ isAlignable_iff.1 (List.all_eq_true.1 hall n hn), a, ?_, hid⟩
    split at hmem
    · rename_i hempty
      rw [List.isEmpty_iff, List.filter_eq_nil_iff] at hempty
      refine ⟨hmem, ?_⟩
      rintro ⟨n, hn, hbaseline⟩
      exact absurd hbaseline (hempty n hn)
    · obtain ⟨hmem, hbaseline⟩ := List.mem_filter.1 hmem
      exact ⟨hmem, fun _ ↦ hbaseline⟩
  · exact absurd h (by simp)

theorem bestAnchor?_eq_none_iff {run : List Node} : bestAnchor? run = none ↔ run = [] := by
  cases run <;> simp [bestAnchor?]

/-- A run without an anchor cannot be aligned. -/
theorem not_alignable_of_anchor? {run : List Node} (hne : run ≠ []) (h : anchor? run = none) :
    ¬∀ n ∈ run, Alignable n := fun hall ↦ by
  have hall' : run.all isAlignable = true :=
    List.all_eq_true.2 fun n hn ↦ isAlignable_iff.2 (hall n hn)
  rw [anchor?, if_pos hall', Option.map_eq_none_iff, bestAnchor?_eq_none_iff] at h
  split at h
  · exact hne h
  · rename_i hempty
    exact hempty (List.isEmpty_iff.2 h)

end Axis

/-! ### What a decision says of its members -/

/-- The container of a decision fits its members. Where a test decides, they are nodes that were
there before classification. -/
structure LayoutDecision.Fits (c : LayoutConfig) (t : NodeTree) (content : Rect)
    (d : LayoutDecision) : Prop where
  horizontal : d.container = .linearHorizontal → 2 ≤ d.members.length →
    (t.lookup d.members).map Node.id = d.members ∧
      Axis.SideBySide c.tolerance (t.lookup d.members)
  vertical : d.container = .linearVertical → d.flags.contains .floatSplit = false →
    2 ≤ d.members.length → (t.lookup d.members).map Node.id = d.members ∧
      Axis.Stacked content c.tolerance (t.lookup d.members)
  relative : d.container = .relative → (t.lookup d.members).map Node.id = d.members ∧
    (∀ n ∈ t.lookup d.members, Axis.Alignable n) ∧
      ∃ a, Axis.IsAnchor (t.lookup d.members) a ∧ d.baseline = some a.id
  degenerate : d.isDegenerate = true → d.container = .frame ∧
    (t.lookup d.members).map Node.id = d.members ∧
      ¬Axis.SideBySide c.tolerance (t.lookup d.members) ∧
      ¬Axis.Stacked content c.tolerance (t.lookup d.members) ∧
      ¬∀ n ∈ t.lookup d.members, Axis.Alignable n

/-- A node in a plan stands for itself. -/
def Plan.StandsFor (p : Plan) (id : NodeId) : Prop := ∀ i, p = .member i → id = i

theorem Plan.eq_map_of_standsFor {run : List Node} {ids : List NodeId}
    (h : List.Forall₂ StandsFor (run.map fun n ↦ .member n.id) ids) : ids = run.map Node.id := by
  rw [List.forall₂_map_left_iff] at h
  induction h with
  | nil => rfl
  | cons hfirst _ ih => rw [List.map_cons, ih, hfirst _ rfl]

/-- A decision says what a group says. Whether the order is reversed is not known before the group
is settled. -/
structure LayoutDecision.Records (d : LayoutDecision) (a : Arrangement) (members : List Plan) :
    Prop where
  container : d.container = a.container
  baseline : d.baseline = a.baseline
  flags : ∀ f ≠ Flag.reversed, d.flags.contains f = a.flags.contains f
  members : List.Forall₂ Plan.StandsFor members d.members

namespace LayoutDecision

variable {c : LayoutConfig} {content : Rect} {nodes : List Node} {t : NodeTree}
  {d : LayoutDecision} {a : Arrangement} {members : List Plan}

theorem Records.of_reversed (h : d.Records { a with flags := a.flags.insert .reversed } members) :
    d.Records a members where
  container := h.container
  baseline := h.baseline
  flags f hf := by
    rw [h.flags f hf, Flags.contains_insert, decide_eq_false hf.symm, Bool.false_or]
  members := h.members

theorem Records.not_degenerate (h : d.Records a members)
    (ha : a.flags.contains .degenerate = false) : d.flags.contains .degenerate = false :=
  (h.flags .degenerate (by decide)).trans ha

/-- Nodes of a plan are the members of the decision. -/
theorem Records.members_eq {run : List Node} (h : d.Records a (run.map fun n ↦ .member n.id)) :
    d.members = run.map Node.id :=
  Plan.eq_map_of_standsFor h.members

/-- They are the nodes that are looked up in the tree. -/
theorem Records.lookup_eq {run : List Node} (h : d.Records a (run.map fun n ↦ .member n.id))
    (hrun : ∀ n ∈ run, t.get? n.id = some n) : t.lookup d.members = run := by
  rw [h.members_eq, NodeTree.lookup, List.filterMap_map]
  exact (List.filterMap_congr hrun).trans List.filterMap_some

section Tested

variable (hids : (t.lookup d.members).map Node.id = d.members)

include hids

theorem Fits.of_sideBySide (hcontainer : d.container = .linearHorizontal)
    (hdegenerate : d.flags.contains .degenerate = false)
    (h : Axis.SideBySide c.tolerance (t.lookup d.members)) : d.Fits c t content where
  horizontal _ _ := ⟨hids, h⟩
  vertical h := absurd (hcontainer.symm.trans h) (by decide)
  relative h := absurd (hcontainer.symm.trans h) (by decide)
  degenerate h := absurd (hdegenerate.symm.trans h) (by decide)

theorem Fits.of_stacked (hcontainer : d.container = .linearVertical)
    (hdegenerate : d.flags.contains .degenerate = false)
    (h : Axis.Stacked content c.tolerance (t.lookup d.members)) : d.Fits c t content where
  horizontal h := absurd (hcontainer.symm.trans h) (by decide)
  vertical _ _ _ := ⟨hids, h⟩
  relative h := absurd (hcontainer.symm.trans h) (by decide)
  degenerate h := absurd (hdegenerate.symm.trans h) (by decide)

theorem Fits.of_aligned (hcontainer : d.container = .relative)
    (hdegenerate : d.flags.contains .degenerate = false)
    (hall : ∀ n ∈ t.lookup d.members, Axis.Alignable n)
    (hanchor : ∃ a, Axis.IsAnchor (t.lookup d.members) a ∧ d.baseline = some a.id) :
    d.Fits c t content where
  horizontal h := absurd (hcontainer.symm.trans h) (by decide)
  vertical h := absurd (hcontainer.symm.trans h) (by decide)
  relative _ := ⟨hids, hall, hanchor⟩
  degenerate h := absurd (hdegenerate.symm.trans h) (by decide)

theorem Fits.of_failed (hcontainer : d.container = .frame)
    (hbeside : ¬Axis.SideBySide c.tolerance (t.lookup d.members))
    (hstacked : ¬Axis.Stacked content c.tolerance (t.lookup d.members))
    (haligned : ¬∀ n ∈ t.lookup d.members, Axis.Alignable n) : d.Fits c t content where
  horizontal h := absurd (hcontainer.symm.trans h) (by decide)
  vertical h := absurd (hcontainer.symm.trans h) (by decide)
  relative h := absurd (hcontainer.symm.trans h) (by decide)
  degenerate _ := ⟨hcontainer, hids, hbeside, hstacked, haligned⟩

end Tested

/-- A container that no test decides on. -/
theorem Fits.of_untested (hhorizontal : d.container ≠ .linearHorizontal ∨ d.members.length ≤ 1)
    (hvertical : d.container ≠ .linearVertical ∨ d.flags.contains .floatSplit = true ∨
      d.members.length ≤ 1) (hrelative : d.container ≠ .relative)
    (hdegenerate : d.flags.contains .degenerate = false) : d.Fits c t content where
  horizontal h hmany := absurd hmany (Nat.not_le.2 (Nat.lt_succ_of_le
    (hhorizontal.resolve_left (not_not_intro h))))
  vertical h hsplit hmany := by
    rcases hvertical.resolve_left (not_not_intro h) with hsplit' | hone
    · exact absurd (hsplit'.symm.trans hsplit) (by decide)
    · exact absurd hmany (Nat.not_le.2 (Nat.lt_succ_of_le hone))
  relative h := absurd h hrelative
  degenerate h := absurd (hdegenerate.symm.trans h) (by decide)

end LayoutDecision

/-- **Every group that is planned fits its members.** -/
theorem Shape.fits {c : LayoutConfig} {content : Rect} {nodes : List Node} {t : NodeTree}
    (hnodes : ∀ n ∈ nodes, t.get? n.id = some n) {a : Arrangement} {members : List Plan}
    (h : Shape c content nodes a members) {d : LayoutDecision} (hd : d.Records a members) :
    d.Fits c t content := by
  -- members that have been tested are the nodes that are looked up
  have hlookup : ∀ {a run}, d.Records a (run.map fun n ↦ .member n.id) → run ⊆ nodes →
      (t.lookup d.members).map Node.id = d.members ∧ run = t.lookup d.members := fun hd hinside ↦ by
    have hrun := hd.lookup_eq fun n hn ↦ hnodes n (hinside hn)
    exact ⟨by rw [hrun, hd.members_eq], hrun.symm⟩
  induction h with
  | @alone container n mem linear =>
    have hone : d.members.length ≤ 1 := Nat.le_of_eq hd.members.length_eq.symm
    refine .of_untested (.inr hone) (.inr (.inr hone)) (fun hrelative ↦ ?_)
      (hd.not_degenerate (Flags.contains_empty _))
    rw [show container = .relative from hd.container.symm.trans hrelative] at linear
    exact absurd linear (by decide)
  | beside inside test =>
    obtain ⟨hids, rfl⟩ := hlookup hd inside
    exact .of_sideBySide hids hd.container (hd.not_degenerate (Flags.contains_empty _))
      (Axis.isHorizontal_iff.1 test)
  | band inside test =>
    obtain ⟨hids, rfl⟩ := hlookup hd inside
    exact .of_sideBySide hids hd.container (hd.not_degenerate (by simp))
      (Axis.isHorizontal_iff.1 test)
  | stacked inside test =>
    obtain ⟨hids, rfl⟩ := hlookup hd inside
    exact .of_stacked hids hd.container (hd.not_degenerate (Flags.contains_empty _))
      (Axis.isVertical_iff.1 test)
  | aligned inside test =>
    obtain ⟨hids, rfl⟩ := hlookup hd inside
    obtain ⟨hall, a, hanchor, rfl⟩ := Axis.exists_of_anchor? test
    exact .of_aligned hids hd.container (hd.not_degenerate (Flags.contains_empty _)) hall
      ⟨a, hanchor, hd.baseline⟩
  | degenerate inside beside stacked aligned =>
    obtain ⟨hids, rfl⟩ := hlookup hd inside
    have hne : t.lookup d.members ≠ [] := fun hnil ↦ by
      rw [hnil] at beside
      exact absurd beside (by simp [Axis.isHorizontal, Axis.allPairs])
    refine .of_failed hids hd.container ?_ ?_ (Axis.not_alignable_of_anchor? hne aligned)
    · rw [← Axis.isHorizontal_iff, beside]
      exact Bool.false_ne_true
    · rw [← Axis.isVertical_iff, stacked]
      exact Bool.false_ne_true
  | parts members =>
    have hsplit : d.flags.contains .floatSplit = true :=
      (hd.flags .floatSplit (by decide)).trans (by simp)
    refine .of_untested (.inl fun h ↦ ?_) (.inr (.inl hsplit)) (fun h ↦ ?_)
      (hd.not_degenerate (by simp))
    all_goals exact absurd (hd.container.symm.trans h) (by simp)
  | reversed _ ih => exact ih hd.of_reversed
  | _ =>
    -- grids, columns and layers are no linear containers
    refine .of_untested (.inl fun h ↦ ?_) (.inl fun h ↦ ?_) (fun h ↦ ?_)
      (hd.not_degenerate (by simp))
    all_goals exact absurd (hd.container.symm.trans h) (by simp)

/-! ### Decisions of plans that are carried out -/

section Outcomes

variable (c : LayoutConfig) (content : Rect) (nodes : List Node)

/-- **A decision that carries out a group** of those that are planned. Members can be left out, but
not in an outcome that skips none. -/
structure LayoutDecision.CarriesOut (o : ClassifyOutcome) (d : LayoutDecision) (a : Arrangement)
    (ps : List Plan) : Prop where
  shape : Shape c content nodes a ps
  container : d.container = a.container
  grid : d.grid = a.grid
  baseline : d.baseline = a.baseline
  flags : ∀ f ≠ Flag.reversed, d.flags.contains f = a.flags.contains f
  members : ∃ ids, List.Forall₂ Plan.StandsFor ps ids ∧ d.members.Sublist ids ∧
    (o.skipped = [] → d.members = ids)

/-- What is decided on top of an outcome carries out groups that are planned. -/
structure ClassifyOutcome.Follows (o o' : ClassifyOutcome) : Prop where
  skipped : o'.skipped = [] → o.skipped = []
  decisions : ∀ d ∈ o'.decisions, d ∈ o.decisions ∨ ∃ a ps, d.CarriesOut c content nodes o' a ps

variable {c content nodes}

namespace LayoutDecision.CarriesOut

variable {o o' : ClassifyOutcome} {d : LayoutDecision} {a : Arrangement} {ps : List Plan}

theorem mono (h : d.CarriesOut c content nodes o a ps)
    (hskipped : o'.skipped = [] → o.skipped = []) : d.CarriesOut c content nodes o' a ps :=
  { h with
    members := h.members.imp fun _ ⟨hids, hsub, heq⟩ ↦
      ⟨hids, hsub, fun hnone ↦ heq (hskipped hnone)⟩ }

/-- Where nothing is skipped it says what the group says. -/
theorem records (h : d.CarriesOut c content nodes o a ps) (hnone : o.skipped = []) :
    d.Records a ps := by
  obtain ⟨ids, hids, -, heq⟩ := h.members
  exact ⟨h.container, h.baseline, h.flags, heq hnone ▸ hids⟩

end LayoutDecision.CarriesOut

namespace ClassifyOutcome.Follows

variable {o o' o'' : ClassifyOutcome}

theorem refl (o : ClassifyOutcome) : o.Follows c content nodes o :=
  ⟨fun h ↦ h, fun _ hd ↦ .inl hd⟩

theorem trans (h : o.Follows c content nodes o') (h' : o'.Follows c content nodes o'') :
    o.Follows c content nodes o'' where
  skipped hnone := h.skipped (h'.skipped hnone)
  decisions d hd := by
    rcases h'.decisions d hd with hd | hnew
    · exact (h.decisions d hd).imp_right fun ⟨a, ps, hout⟩ ↦ ⟨a, ps, hout.mono h'.skipped⟩
    · exact .inr hnew

end ClassifyOutcome.Follows

end Outcomes

namespace Classify

theorem size_placeMember (owner : NodeId) (p : Placing) (i : NodeId) :
    (placeMember owner p i).tree.size = p.tree.size := by
  cases hset : p.tree.setRenderParent i owner with
  | ok t => simp only [placeMember, hset, NodeTree.eq_of_setRenderParent hset, NodeTree.size_modify]
  | error e => simp only [placeMember, hset]

/-- What is placed and what is skipped is all that there is. If nothing is skipped, all of it are
nodes of the tree. -/
theorem exists_skipped (owner : NodeId) (out : List NodeId) (p : Placing) :
    ∃ more, (out.foldl (placeMember owner) p).skipped = p.skipped ++ more ∧
      (more = [] → (out.foldl (placeMember owner) p).placed = p.placed ++ out ∧
        ∀ i ∈ out, i < p.tree.size) := by
  induction out generalizing p with
  | nil => exact ⟨[], by simp, fun _ ↦ ⟨by simp, fun i hi ↦ absurd hi List.not_mem_nil⟩⟩
  | cons i r ih =>
    obtain ⟨more, hskipped, hplaced⟩ := ih (placeMember owner p i)
    rw [List.foldl_cons, hskipped]
    cases hset : p.tree.setRenderParent i owner with
    | ok t =>
      have hstep : (placeMember owner p i).skipped = p.skipped ∧
          (placeMember owner p i).placed = p.placed ++ [i] := by
        simp only [placeMember, hset, and_self]
      refine ⟨more, by rw [hstep.1], fun hnil ↦ ?_⟩
      obtain ⟨hplaced, hlt⟩ := hplaced hnil
      refine ⟨?_, fun j hj ↦ ?_⟩
      · rw [hplaced, hstep.2, List.append_assoc, List.singleton_append]
      · rcases List.mem_cons.1 hj with rfl | hj
        · exact (NodeTree.open_of_setRenderParent hset).1
        · exact size_placeMember owner p i ▸ hlt j hj
    | error e =>
      have hstep : (placeMember owner p i).skipped = p.skipped ++ [(i, e)] := by
        simp only [placeMember, hset]
      exact ⟨(i, e) :: more, by rw [hstep, List.append_assoc, List.singleton_append],
        fun hnil ↦ absurd hnil (List.cons_ne_nil _ _)⟩

/-- A container is settled without skipping a member only if none was skipped before. -/
theorem skipped_settle {c : LayoutConfig} {owner : NodeId} {synthetic : Bool} {a : Arrangement}
    {ids : List NodeId} {s : State}
    (hskipped : (settle c owner synthetic a ids s).outcome.skipped = []) :
    s.outcome.skipped = [] :=
  (List.append_eq_nil_iff.1 hskipped).1

/-- **A container is settled without skipping a member**: one decision is added, with all members
and with the order that they have been given. -/
theorem decisions_settle {c : LayoutConfig} {owner : NodeId} {synthetic : Bool} {a : Arrangement}
    {ids : List NodeId} {s : State}
    (hskipped : (settle c owner synthetic a ids s).outcome.skipped = []) :
    (settle c owner synthetic a ids s).outcome.decisions = s.outcome.decisions ++
      [⟨owner, synthetic, a.container,
        if (reordering? s.tree a ids).isSome then a.flags else a.flags.erase .reversed,
        ids, reordering? s.tree a ids, a.grid, a.baseline⟩] ∧
      ∀ i ∈ ids, i < s.tree.size := by
  obtain ⟨more, hmore, hplaced⟩ :=
    exists_skipped owner ((reordering? s.tree a ids).getD ids) ⟨s.tree, [], []⟩
  have hnone : more = [] := by
    rw [settle, ClassifyOutcome.append, hmore] at hskipped
    simpa using (List.append_eq_nil_iff.1 hskipped).2
  obtain ⟨hplaced, hlt⟩ := hplaced hnone
  have hmem : ∀ {i}, i ∈ (reordering? s.tree a ids).getD ids ↔ i ∈ ids :=
    (perm_reordering? s.tree a ids).mem_iff
  have hall : ids.filter ([] ++ (reordering? s.tree a ids).getD ids).contains = ids :=
    List.filter_eq_self.2 fun i hi ↦ List.contains_iff_mem.2 (hmem.2 hi)
  have horder : ((reordering? s.tree a ids).map fun _ ↦
      [] ++ (reordering? s.tree a ids).getD ids) = reordering? s.tree a ids := by
    cases reordering? s.tree a ids <;> rfl
  refine ⟨?_, fun i hi ↦ hlt i (hmem.2 hi)⟩
  rw [settle, ClassifyOutcome.append]
  dsimp only
  rw [hplaced, hall, horder]

/-- Decisions that have been added to others, each on a group that is planned. -/
def Recorded (c : LayoutConfig) (content : Rect) (nodes : List Node)
    (ds ds' : List LayoutDecision) : Prop :=
  ∀ d ∈ ds', d ∈ ds ∨ ∃ a members, Shape c content nodes a members ∧ d.Records a members

section Carry

variable {c : LayoutConfig} {content : Rect} {nodes : List Node} {parent : NodeId}

/-- **Settling a container** adds the decision on its group. -/
theorem follows_settle (owner : NodeId) (synthetic : Bool) {a : Arrangement} {ps : List Plan}
    {ids : List NodeId} (s : State) (hshape : Shape c content nodes a ps)
    (hids : List.Forall₂ Plan.StandsFor ps ids) :
    s.outcome.Follows c content nodes (settle c owner synthetic a ids s).outcome := by
  refine ⟨skipped_settle, fun d hd ↦ ?_⟩
  rcases List.mem_append.1 hd with hd | hd
  · exact .inl hd
  · obtain rfl := List.mem_singleton.1 hd
    refine .inr ⟨a, ps, hshape, rfl, rfl, rfl, fun f hf ↦ ?_, ids, hids, List.filter_sublist,
      fun hnone ↦ ?_⟩
    · dsimp only
      split
      · rfl
      · rw [Flags.contains_erase, decide_eq_true hf.symm, Bool.true_and]
    · have hadded := List.append_cancel_left (decisions_settle hnone).1
      exact congrArg LayoutDecision.members (List.singleton_inj.1 hadded)

mutual

/-- **Carrying a plan out** decides on its groups and on nothing else. -/
theorem follows_realize : ∀ (p : Plan) (s : State), p.Shaped c content nodes →
    ∀ {id : NodeId} {s' : State}, realize c parent s p = .ok (id, s') →
      p.StandsFor id ∧ s.outcome.Follows c content nodes s'.outcome
  | .member id, s => by
    intro _ id' s' hok
    obtain ⟨rfl, rfl⟩ := realize_member_cases hok
    exact ⟨fun i hi ↦ Plan.member.inj hi, .refl _⟩
  | .group a members, s => by
    intro hshaped id s' hok
    obtain ⟨t₁, ids, s₁, -, hall, rfl⟩ := realize_group_cases hok
    obtain ⟨hids, hfollows⟩ := follows_realizeAll members ⟨t₁, s.outcome⟩ hshaped.2 hall
    exact ⟨fun _ h ↦ absurd h (by simp),
      hfollows.trans (follows_settle id true s₁ hshaped.1 hids)⟩

theorem follows_realizeAll : ∀ (ps : List Plan) (s : State), ShapedAll c content nodes ps →
    ∀ {ids : List NodeId} {s' : State}, realizeAll c parent s ps = .ok (ids, s') →
      List.Forall₂ Plan.StandsFor ps ids ∧ s.outcome.Follows c content nodes s'.outcome
  | [], s => by
    intro _ ids s' hok
    obtain ⟨rfl, rfl⟩ := realizeAll_nil_cases hok
    exact ⟨.nil, .refl _⟩
  | p :: r, s => by
    intro hshaped ids s' hok
    obtain ⟨id, s₁, ids', hfirst, hrest, rfl⟩ := realizeAll_cons_cases hok
    obtain ⟨hid, hfollows⟩ := follows_realize p s hshaped.1 hfirst
    obtain ⟨hids, hfollows'⟩ := follows_realizeAll r s₁ hshaped.2 hrest
    exact ⟨.cons hid hids, hfollows.trans hfollows'⟩

end

end Carry

/-! ### Whole runs -/

variable {c : LayoutConfig} {t : NodeTree} {parent : NodeId}

/-- **Every decision on a run** carries out a group of its plan, whether members are skipped or
not. -/
theorem exists_carriesOut {t' : NodeTree} {o : ClassifyOutcome}
    (hok : run c t parent = .ok (o, t')) {d : LayoutDecision} (hd : d ∈ o.decisions) :
    ∃ p, t.get? parent = some p ∧
      ∃ a ps, d.CarriesOut c p.contentBox (t.lookup (t.pending parent)) o a ps := by
  rcases run_cases hok with ⟨-, rfl, -⟩ | ⟨p, ids, s, hp, -, hall, rfl, -⟩
  · exact absurd hd List.not_mem_nil
  · have hshaped := Plan.shaped_ofPending c p (t.lookup (t.pending parent))
    obtain ⟨hids, hfollows⟩ := follows_realizeAll _ _ hshaped.members hall
    have hall := hfollows.trans (follows_settle parent false s hshaped.arrangement hids)
    exact ⟨p, hp, (hall.decisions d hd).resolve_left List.not_mem_nil⟩

/-- Every decision on a run that skips no member records a group of its plan. -/
theorem recorded_run {p : Node} (hp : t.get? parent = some p) {ds : List LayoutDecision}
    {t' : NodeTree} (hok : run c t parent = .ok (⟨ds, []⟩, t')) :
    Recorded c p.contentBox (t.lookup (t.pending parent)) [] ds := by
  intro d hd
  obtain ⟨q, hq, a, ps, hout⟩ := exists_carriesOut hok hd
  obtain rfl := Option.some.inj (hp.symm.trans hq)
  exact .inr ⟨a, ps, hout.shape, hout.records rfl⟩

/-- **Containers fit their members.** For a run of different nodes, of which those that are not
rendered have no render parent, classification succeeds, and of its decisions: a horizontal
container holds boxes side by side, of which none clears floats or breaks the line; a vertical one
that is not the split at floats holds boxes each below the one before it; a relative one holds nodes
in the line that can be aligned, and its baseline is one of them, on the baseline itself if any is;
and what is marked as degenerate is a frame of members that are none of these. -/
theorem containers_fit (c : LayoutConfig) (t : NodeTree) (parent : NodeId) (p : Node)
    (hp : t.get? parent = some p) (hnodup : p.layoutChildren.Nodup)
    (hrun : ∀ i ∈ p.layoutChildren,
      ∃ n, t.get? i = some n ∧ (n.rendered = false → n.renderParent = none)) :
    ∃ ds t', run c t parent = .ok (⟨ds, []⟩, t') ∧ ∀ d ∈ ds, d.Fits c t p.contentBox := by
  have hparent := NodeTree.lt_size_of_get? hp
  by_cases hnil : t.pending parent = []
  · exact ⟨[], t, run_of_pending_eq_nil c hparent hnil, by simp⟩
  · obtain ⟨gs, last, t', hok, -⟩ := exists_run c hparent (open_pending hp hnodup hrun) hnil
    refine ⟨_, t', hok, fun d hd ↦ ?_⟩
    rcases recorded_run hp hok d hd with hnone | ⟨a, members, hshape, hrecords⟩
    · exact absurd hnone List.not_mem_nil
    · exact hshape.fits (fun n hn ↦ (NodeTree.mem_lookup.1 hn).2) hrecords

/-- The two elements are in a vertical container, which fits them. -/
theorem containers_fit_twoBoxes :
    ∃ p, twoBoxes.get? 0 = some p ∧ p.layoutChildren.Nodup ∧
      (∀ i ∈ p.layoutChildren,
        ∃ n, twoBoxes.get? i = some n ∧ (n.rendered = false → n.renderParent = none)) ∧
      ∃ d t', run .default twoBoxes 0 = .ok (⟨[d], []⟩, t') ∧ d.container = .linearVertical ∧
        d.members = [1, 2] ∧ d.Fits .default twoBoxes p.contentBox := by
  have hrun : ∀ i ∈ [1, 2],
      ∃ n, twoBoxes.get? i = some n ∧ (n.rendered = false → n.renderParent = none) := by
    intro i hi
    rcases List.mem_cons.1 hi with rfl | hi
    · exact ⟨_, rfl, fun _ ↦ rfl⟩
    · rw [List.mem_singleton.1 hi]
      exact ⟨_, rfl, fun _ ↦ rfl⟩
  refine ⟨_, rfl, by decide, hrun, ?_⟩
  obtain ⟨ds, t', hok, hfits⟩ := containers_fit .default twoBoxes 0 _ rfl (by decide) hrun
  have hdecided : (run .default twoBoxes 0).toOption.map
      (fun r ↦ r.1.decisions.map fun d ↦ (d.container, d.members)) =
        some [(.linearVertical, [1, 2])] := by
    decide +kernel
  rw [hok] at hdecided
  obtain ⟨d, rfl, hd⟩ := List.map_eq_singleton_iff.1 (Option.some.inj hdecided)
  obtain ⟨hcontainer, hmembers⟩ := Prod.mk.inj hd
  exact ⟨d, t', hok, hcontainer, hmembers, hfits d List.mem_cons_self⟩

end Classify

end ViewCompiler
