import ViewCompiler.Proofs.Layout.Justified
import ViewCompiler.Proofs.Layout.ParentOrder

/-!
# Reordered containers

A container that is marked as reversed gets its members in the order of their boxes, and keeps the
mark only if that is not the order of the source (`LayoutDecision.Reorders`). The order is decided
on when the container is settled, from the boxes at that time. Since classification moves no box and
groups never get another one, it is an order of the boxes at every later time
(`LayoutDecision.Reorders.congr`), and so of all decisions of a run when the run is over
(`Classify.reorders_run`).

`LayoutDecision.HoldsIn` adds that the owner of a decision has its members inside and nothing else,
with places in the order of output. If no node is moved, a node is given its run once and a group is
new, so what a decision says still holds when all runs have been classified
(`Arranged.exists_holding_runs`).
-/

namespace ViewCompiler

open NodeTree

/-! ### The order of boxes -/

namespace NodeTree

variable {t t' : NodeTree} {container : Container}

/-- Where the box of a node begins along a container. -/
def along (t : NodeTree) (container : Container) (i : NodeId) : Scalar :=
  match t.get? i with
  | some n => if container = .linearVertical then n.bounds.y else n.bounds.x
  | none => 0

/-- Whether the box of a node begins where that of another one does, or before. -/
def leAlong (t : NodeTree) (container : Container) (a b : NodeId) : Bool :=
  (Scalar.compare (t.along container a) (t.along container b)).isLE

theorem leAlong_iff {a b : NodeId} : t.leAlong container a b = true ↔
    Scalar.orderKey (t.along container a) ≤ Scalar.orderKey (t.along container b) := by
  rw [leAlong, Scalar.compare, Int.isLE_compare]

/-- **Members in the order of their boxes** are sorted, and those of which the boxes begin at the
same place keep their order. -/
theorem stableOrder_geometricOrder (t : NodeTree) (container : Container) (ids : List NodeId) :
    StableOrder (t.leAlong container) ids (Classify.geometricOrder t container ids) := by
  refine stableOrder_stableSort (fun a b ↦ ?_) (fun a b c hab hbc ↦ ?_) ids
  · rw [leAlong_iff, leAlong_iff]
    exact Int.le_total _ _
  · rw [leAlong_iff] at hab hbc ⊢
    exact Int.le_trans hab hbc

/-- Two trees in which the nodes of the first have the same boxes. -/
def SameBoxes (t t' : NodeTree) : Prop :=
  ∀ i < t.size, (t'.get? i).map Node.bounds = (t.get? i).map Node.bounds

theorem SameBoxes.size_le (h : SameBoxes t t') : t.size ≤ t'.size := by
  refine Nat.le_of_not_lt fun hlt ↦ ?_
  obtain ⟨n, hn⟩ := exists_get? hlt
  have hsame := h _ hlt
  rw [get?_eq_none_iff.2 (Nat.le_refl _), hn] at hsame
  exact absurd hsame (by simp)

theorem SameBoxes.along_eq (h : SameBoxes t t') {i : NodeId} (hi : i < t.size) :
    t'.along container i = t.along container i := by
  obtain ⟨n, hn⟩ := exists_get? hi
  have hsame := h i hi
  rw [hn, Option.map_some, Option.map_eq_some_iff] at hsame
  obtain ⟨n', hn', hbounds⟩ := hsame
  rw [along, along, hn, hn']
  dsimp only
  rw [hbounds]

end NodeTree

/-- Classification moves no box. -/
theorem Confined.sameBoxes {P : NodeId → Prop} {t t' : NodeTree} (h : Confined P t t') :
    SameBoxes t t' := fun i hi ↦ by
  have hbounds : Node.bounds = Node.bounds ∘ Node.undecided := funext fun n ↦ by rfl
  rw [hbounds, ← Option.map_map, ← Option.map_map, h.undecided i hi]

/-! ### What a decision says of the order -/

/-- **When a container is reordered**: it is marked as reversed if and only if it has an order of
its own, and then this is another order than that of the members and sorts them by their boxes. -/
structure LayoutDecision.Reorders (t : NodeTree) (d : LayoutDecision) : Prop where
  nodes : ∀ i ∈ d.members, i < t.size
  reversed : d.flags.contains .reversed = d.reorder.isSome
  differs : ∀ order, d.reorder = some order → order ≠ d.members
  sorted : ∀ order, d.reorder = some order →
    StableOrder (t.leAlong d.container) d.members order

/-- It is about boxes only. -/
theorem LayoutDecision.Reorders.congr {t t' : NodeTree} {d : LayoutDecision} (h : d.Reorders t)
    (hboxes : SameBoxes t t') : d.Reorders t' where
  nodes i hi := Nat.lt_of_lt_of_le (h.nodes i hi) hboxes.size_le
  reversed := h.reversed
  differs := h.differs
  sorted order horder := (h.sorted order horder).congr fun a ha b hb ↦ by
    rw [leAlong, leAlong, hboxes.along_eq (h.nodes a ha), hboxes.along_eq (h.nodes b hb)]

namespace Classify

theorem reordering?_eq_some_iff {t : NodeTree} {a : Arrangement} {ids order : List NodeId} :
    reordering? t a ids = some order ↔
      a.flags.contains .reversed = true ∧ order ≠ ids ∧
        geometricOrder t a.container ids = order := by
  rw [reordering?]
  split
  · rename_i hreversed
    rw [Bool.and_eq_true, decide_eq_true_iff] at hreversed
    rw [Option.some.injEq]
    exact ⟨fun h ↦ ⟨hreversed.1, h ▸ hreversed.2, h⟩, fun h ↦ h.2.2⟩
  · rename_i hreversed
    refine ⟨fun h ↦ absurd h (by simp), ?_⟩
    rintro ⟨hflag, hne, h⟩
    rw [hflag, h, decide_eq_true hne] at hreversed
    exact absurd (Bool.and_self true) hreversed

/-- **One decision on the order.** -/
theorem reorders_decision (t : NodeTree) (owner : NodeId) (synthetic : Bool) (a : Arrangement)
    {ids : List NodeId} (hids : ∀ i ∈ ids, i < t.size) : LayoutDecision.Reorders t
      ⟨owner, synthetic, a.container,
        if (reordering? t a ids).isSome then a.flags else a.flags.erase .reversed,
        ids, reordering? t a ids, a.grid, a.baseline⟩ where
  nodes := hids
  reversed := by
    dsimp only
    cases horder : reordering? t a ids with
    | none => simp
    | some order => simpa using (reordering?_eq_some_iff.1 horder).1
  differs order horder := (reordering?_eq_some_iff.1 horder).2.1
  sorted order horder := by
    obtain ⟨-, -, rfl⟩ := reordering?_eq_some_iff.1 horder
    exact t.stableOrder_geometricOrder a.container ids

/-- All decisions so far say of the order what holds in the tree. -/
def State.Reordered (s : State) : Prop := ∀ d ∈ s.outcome.decisions, d.Reorders s.tree

section Carry

variable {c : LayoutConfig} {content : Rect} {nodes : List Node} {parent : NodeId}

theorem reordered_settle {owner : NodeId} {synthetic : Bool} {a : Arrangement}
    {ps : List Plan} {ids : List NodeId} {s : State} (h : s.Reordered)
    (hshape : Shape c content nodes a ps)
    (hskipped : (settle c owner synthetic a ids s).outcome.skipped = []) :
    (settle c owner synthetic a ids s).Reordered := by
  have hsteps : Steps owner (fun _ ↦ True) (fun _ ↦ True) s.tree
      (settle c owner synthetic a ids s).tree :=
    steps_settle trivial synthetic hshape.contains_overlay (fun _ _ ↦ trivial)
      (fun _ _ ↦ trivial) s
  have hboxes := (hsteps.confined (P := fun _ ↦ True) (fun _ _ ↦ .inl trivial)
    (fun _ _ ↦ .inl trivial) (.refl _ _)).sameBoxes
  obtain ⟨hdecisions, hids⟩ := decisions_settle hskipped
  intro d hd
  rw [hdecisions] at hd
  rcases List.mem_append.1 hd with hd | hd
  · exact (h d hd).congr hboxes
  · rw [List.mem_singleton.1 hd]
    exact (reorders_decision s.tree owner synthetic a hids).congr hboxes

mutual

/-- **Carrying a plan out** without skipping a member: every decision says how its members are
reordered. -/
theorem reordered_realize : ∀ (p : Plan) (s : State), p.Shaped c content nodes → s.Reordered →
    ∀ {id : NodeId} {s' : State}, realize c parent s p = .ok (id, s') →
      s'.outcome.skipped = [] → s'.Reordered
  | .member id, s => by
    intro _ hs id' s' hok _
    obtain ⟨-, rfl⟩ := realize_member_cases hok
    exact hs
  | .group a members, s => by
    intro hshaped hs id s' hok hskipped
    obtain ⟨t₁, ids, s₁, halloc, hall, rfl⟩ := realize_group_cases hok
    have hboxes := ((Confined.refl (fun _ ↦ True) s.tree).allocGroup halloc).sameBoxes
    have hs₁ := reordered_realizeAll members ⟨t₁, s.outcome⟩ hshaped.2
      (fun d hd ↦ (hs d hd).congr hboxes) hall (skipped_settle hskipped)
    exact reordered_settle hs₁ hshaped.1 hskipped

theorem reordered_realizeAll : ∀ (ps : List Plan) (s : State), ShapedAll c content nodes ps →
    s.Reordered → ∀ {ids : List NodeId} {s' : State}, realizeAll c parent s ps = .ok (ids, s') →
      s'.outcome.skipped = [] → s'.Reordered
  | [], s => by
    intro _ hs ids s' hok _
    obtain ⟨-, rfl⟩ := realizeAll_nil_cases hok
    exact hs
  | p :: r, s => by
    intro hshaped hs ids s' hok hskipped
    obtain ⟨id, s₁, ids', hfirst, hrest, rfl⟩ := realizeAll_cons_cases hok
    have hskipped₁ := (follows_realizeAll r s₁ hshaped.2 hrest).2.skipped hskipped
    exact reordered_realizeAll r s₁ hshaped.2
      (reordered_realize p s hshaped.1 hs hfirst hskipped₁) hrest hskipped

end

end Carry

variable {c : LayoutConfig} {t t' : NodeTree} {x : NodeId} {ds : List LayoutDecision}

/-- **The decisions of a run** that skips no member say how its containers are reordered. -/
theorem reorders_run (hok : run c t x = .ok (⟨ds, []⟩, t')) : ∀ d ∈ ds, d.Reorders t' := by
  rcases run_cases hok with ⟨-, hempty, -⟩ | ⟨p, ids, s, -, -, hall, houtcome, rfl⟩
  · obtain rfl : ds = [] := congrArg ClassifyOutcome.decisions hempty
    exact fun d hd ↦ absurd hd List.not_mem_nil
  · have hshaped := Plan.shaped_ofPending c p (t.lookup (t.pending x))
    have hskipped := (congrArg ClassifyOutcome.skipped houtcome).symm
    have hs := reordered_realizeAll _ ⟨markOverlays c t p (t.lookup (t.pending x)), .empty⟩
      hshaped.members (fun d hd ↦ absurd hd List.not_mem_nil) hall (skipped_settle hskipped)
    have hsettled := reordered_settle hs hshaped.arrangement hskipped
    rw [State.Reordered, ← houtcome] at hsettled
    exact hsettled

end Classify

/-! ### What a decision says of the output -/

/-- **What a decision says holds in a tree**: its members are what is inside its owner, and come out
in the order that it says. -/
structure LayoutDecision.HoldsIn (t : NodeTree) (d : LayoutDecision) : Prop where
  owner : d.owner < t.size
  inside : t.renderMembers d.owner = d.outputOrder
  ordered : t.Ordered d.owner d.outputOrder
  reorders : d.Reorders t

namespace LayoutDecision.HoldsIn

variable {t t' : NodeTree} {d : LayoutDecision}

/-- Nothing else comes out inside the owner. -/
theorem order_eq (h : d.HoldsIn t) : t.order d.owner = d.outputOrder := by
  rw [order, h.inside]
  exact stableSort_eq_self h.ordered.sorted

/-- **The run of another node** changes nothing about it. -/
theorem of_decides (h : d.HoldsIn t) {c : LayoutConfig} {x : NodeId} {gs : List LayoutDecision}
    {last : LayoutDecision} {o : ClassifyOutcome} (hok : Classify.run c t x = .ok (o, t'))
    (hdecides : Classify.Decides t x gs last t')
    (hplaced : ∀ o, ∀ c ∈ t.renderMembers o, ∃ p, t.renderParent? c = some p)
    (hne : d.owner ≠ x) : d.HoldsIn t' where
  owner := Nat.lt_of_lt_of_le h.owner hdecides.extended.size_le
  inside := (hdecides.renderMembers_eq h.owner hne).trans h.inside
  ordered := h.ordered.widen (hdecides.widened hplaced)
  reorders := h.reorders.congr (Classify.confined_run (P := fun _ ↦ True) trivial
    (fun _ _ ↦ trivial) hok).sameBoxes

end LayoutDecision.HoldsIn

namespace Arranged

variable {settled : List NodeId} {t : NodeTree}

/-- **A run is classified** where no node is moved: what its decisions say holds, and what others
say of other nodes still does. -/
theorem exists_holding_run (h : Arranged [] settled t) (c : LayoutConfig) {x : NodeId}
    {k : NodeKind} (hkind : t.kind? x = some k) (hgroup : k ≠ .group) (hhost : k ≠ .host)
    (hx : x ∉ settled) :
    ∃ ds t', Classify.run c t x = .ok (⟨ds, []⟩, t') ∧ Arranged [] (x :: settled) t' ∧
      Extended t t' ∧
      (∀ d ∈ ds, d.HoldsIn t' ∧ (d.owner = x ∨ t'.kind? d.owner = some .group)) ∧
      ∀ d : LayoutDecision, d.HoldsIn t → d.owner ≠ x → d.HoldsIn t' := by
  have hlt := lt_size_of_kind? hkind
  by_cases hpending : t.pending x = []
  · exact ⟨[], t, Classify.run_of_pending_eq_nil c hlt hpending,
      h.settle hkind hgroup hhost hpending, .of_links fun _ ↦ rfl, by simp, fun _ hd _ ↦ hd⟩
  obtain ⟨gs, last, t', hok, hdecides⟩ := Classify.exists_run c hlt (h.open_pending x) hpending
  refine ⟨gs ++ [last], t', hok, hdecides.arranged h hkind hgroup hhost, hdecides.extended,
    fun d hd ↦ ?_, fun d hd hne ↦ hd.of_decides hok hdecides
      (fun o c hc ↦ ⟨o, (h.mem_iff o c).1 hc⟩) hne⟩
  have howner := hdecides.owner_cases hd
  -- nothing is inside the owner before its run is classified
  have hnil : t.renderMembers d.owner = [] := by
    rcases howner with heq | ⟨hfresh, -⟩
    · rw [heq]
      exact h.renderMembers_eq_nil hx (by simpa [hkind] using hgroup) fun _ ↦ List.not_mem_nil
    · rw [renderMembers, place_eq_blank hfresh]
      rfl
  refine ⟨⟨?_, ?_, hdecides.ordered_owner hlt hd, Classify.reorders_run hok d hd⟩,
    howner.imp_right fun hfresh ↦ (hdecides.group_of_fresh hfresh.1 hfresh.2).1⟩
  · rcases howner with heq | ⟨-, hlt'⟩
    · exact heq ▸ Nat.lt_of_lt_of_le hlt hdecides.extended.size_le
    · exact hlt'
  · rw [hdecides.renderMembers_owner hlt hd, hnil, List.nil_append]

/-- **All runs are classified** where no node is moved: what the decisions say holds at the end. -/
theorem exists_holding_runs (h : Arranged [] settled t) (c : LayoutConfig) {xs : List NodeId}
    (hkinds : ∀ x ∈ xs, ∃ k, t.kind? x = some k ∧ k ≠ .group ∧ k ≠ .host) (hnodup : xs.Nodup)
    (hnew : ∀ x ∈ xs, x ∉ settled) :
    ∃ ds t', Classify.runs c t xs = .ok (⟨ds, []⟩, t') ∧
      (∀ d ∈ ds, d.HoldsIn t' ∧ (d.owner ∈ xs ∨ t'.kind? d.owner = some .group)) ∧
      Extended t t' ∧
      ∀ d : LayoutDecision, d.HoldsIn t → d.owner ∉ xs → d.HoldsIn t' := by
  induction xs generalizing t settled with
  | nil => exact ⟨[], t, rfl, by simp, .of_links fun _ ↦ rfl, fun _ hd _ ↦ hd⟩
  | cons x r ih =>
    obtain ⟨hx, hr⟩ := List.nodup_cons.1 hnodup
    obtain ⟨k, hk, hgroup, hhost⟩ := hkinds x List.mem_cons_self
    obtain ⟨ds, t₁, hok, harranged, hext, hdecided, hkeep⟩ :=
      h.exists_holding_run c hk hgroup hhost (hnew x List.mem_cons_self)
    have hkinds' : ∀ y ∈ r, ∃ k, t₁.kind? y = some k ∧ k ≠ .group ∧ k ≠ .host := fun y hy ↦ by
      obtain ⟨k, hk, hne⟩ := hkinds y (List.mem_cons_of_mem _ hy)
      exact ⟨k, hext.kind?_eq hk, hne⟩
    obtain ⟨ds', t₂, hrest, hdecided', hext', hkeep'⟩ := ih harranged hkinds' hr fun y hy hmem ↦ by
      rcases List.mem_cons.1 hmem with rfl | hmem
      · exact hx hy
      · exact hnew y (List.mem_cons_of_mem _ hy) hmem
    refine ⟨ds ++ ds', t₂, Classify.runs_cons hok hrest, fun d hd ↦ ?_, hext.trans hext',
      fun d hd hnot ↦ ?_⟩
    · rcases List.mem_append.1 hd with hd | hd
      · obtain ⟨hholds, howner⟩ := hdecided d hd
        have howner' : d.owner ∈ x :: r ∨ t₂.kind? d.owner = some .group :=
          howner.imp (fun heq ↦ by rw [heq]; exact List.mem_cons_self) hext'.kind?_eq
        refine ⟨hkeep' d hholds fun hmem ↦ ?_, howner'⟩
        rcases howner with heq | hkind
        · exact hx (heq ▸ hmem)
        · obtain ⟨k, hk, hne, -⟩ := hkinds' d.owner hmem
          exact hne (Option.some.inj (hk.symm.trans hkind))
      · exact (hdecided' d hd).imp_right (.imp_left (List.mem_cons_of_mem _))
    · rw [List.mem_cons, not_or] at hnot
      exact hkeep' d (hkeep d hd hnot.1) hnot.2

end Arranged

end ViewCompiler
