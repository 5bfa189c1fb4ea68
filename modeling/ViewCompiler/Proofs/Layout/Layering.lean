import ViewCompiler.Proofs.Layout.Recording

/-!
# Layers

Boxes that have left the flow are layered over it, in the order of their stacking indices, unless
they lie where the flow begins. The boxes in the flow are planned without them, and become one
member of a frame, in front of the positioned ones; with no positioned box there is no frame, and
the plan of the flow is the plan of the run (`Classify.layers_positioned`).

The mark of positioned members is set before the plan is carried out. No step of carrying it out
sets or takes away that mark (`Classify.Steps.isOverlay`), so that it tells the positioned members
from all others.
-/

namespace ViewCompiler

open NodeTree

/-! ### The mark of positioned members -/

namespace NodeTree

/-- Whether there is a node with the mark of positioned members. -/
def isOverlay (t : NodeTree) (i : NodeId) : Bool :=
  (t.get? i).any fun n ↦ n.flags.contains .overlay

theorem isOverlay_modify (t : NodeTree) {f : Node → Node}
    (hf : ∀ n, (f n).flags.contains .overlay = n.flags.contains .overlay) (id i : NodeId) :
    (t.modify id f).isOverlay i = t.isOverlay i := by
  rw [isOverlay, isOverlay, get?_modify]
  split
  · rw [Option.any_map]
    exact congrArg (Option.any · (t.get? i)) (funext hf)
  · rfl

end NodeTree

namespace Classify

variable {c : LayoutConfig} {parent : NodeId} {t t' : NodeTree}

/-- **No step of carrying a plan out** changes the mark of positioned members. -/
theorem Steps.isOverlay {member owner : NodeId → Prop} (h : Steps parent member owner t t')
    (i : NodeId) : t'.isOverlay i = t.isOverlay i := by
  induction h with
  | refl => rfl
  | @tail t₁ t₂ _ hstep ih =>
    refine Eq.trans ?_ ih
    cases hstep with
    | alloc made =>
      obtain ⟨p, hp⟩ := exists_get?_of_allocGroup made
      rw [allocGroup_eq hp] at made
      obtain ⟨-, rfl⟩ := Prod.mk.inj (Except.ok.inj made)
      refine (isOverlay_modify _ (fun _ ↦ by rfl) _ i).trans ?_
      rw [NodeTree.isOverlay, NodeTree.isOverlay, get?_alloc]
      split
      · rename_i heq
        rw [get?_eq_none_iff.2 (Nat.le_of_eq heq.symm)]
        simp [Node.new]
      · rfl
    | place position isMember isOwner placed =>
      rw [eq_of_setRenderParent placed]
      exact (isOverlay_modify _ (fun _ ↦ by rfl) _ i).trans
        ((isOverlay_modify _ (fun _ ↦ by rfl) _ i).trans
          (isOverlay_modify _ (fun _ ↦ by rfl) _ i))
    | mark isMember inFlow =>
      refine isOverlay_modify _ (fun n ↦ ?_) _ i
      rw [Node.addFlags, Flags.contains_union, inFlow, Bool.or_false]
    | hold container grid isOwner inFlow =>
      refine isOverlay_modify _ (fun n ↦ ?_) _ i
      rw [Flags.contains_union, inFlow, Bool.or_false]

/-- The positioned members of a run are marked, and no other node is. -/
theorem isOverlay_foldl (ms : List Node) (t : NodeTree) (i : NodeId) :
    (ms.foldl (fun t m ↦ t.modify m.id fun n ↦ { n with flags := n.flags.insert .overlay })
      t).isOverlay i = true ↔ t.isOverlay i = true ∨ i < t.size ∧ i ∈ ms.map Node.id := by
  induction ms generalizing t with
  | nil => simp
  | cons m r ih =>
    rw [List.foldl_cons, ih, size_modify, List.map_cons, List.mem_cons]
    have hone : (t.modify m.id fun n ↦ { n with flags := n.flags.insert .overlay }).isOverlay i =
        true ↔ t.isOverlay i = true ∨ i < t.size ∧ i = m.id := by
      rw [NodeTree.isOverlay, NodeTree.isOverlay, get?_modify]
      by_cases heq : m.id = i
      · rw [if_pos heq]
        cases hi : t.get? i with
        | none => simp [Nat.not_lt.2 (get?_eq_none_iff.1 hi)]
        | some n => simp [lt_size_of_get? hi, heq]
      · rw [if_neg heq]
        simp [Ne.symm heq]
    rw [hone]
    tauto

/-- **Classifying a run** marks the positioned members, and no other node. -/
theorem isOverlay_run {p : Node} (hp : t.get? parent = some p) {o : ClassifyOutcome}
    (hne : t.pending parent ≠ []) (hok : run c t parent = .ok (o, t')) (i : NodeId) :
    t'.isOverlay i = true ↔ t.isOverlay i = true ∨
      i ∈ (Plan.positioned c p.contentBox (t.lookup (t.pending parent))).map Node.id := by
  rcases steps_run hok with ⟨hnil, -⟩ | ⟨q, hq, hsteps⟩
  · exact absurd hnil hne
  · obtain rfl := Option.some.inj (hp.symm.trans hq)
    rw [hsteps.isOverlay, markOverlays, isOverlay_foldl]
    refine or_congr_right (and_iff_right_of_imp fun hi ↦ ?_)
    obtain ⟨n, hn, rfl⟩ := List.mem_map.1 hi
    rw [Plan.positioned, mem_stableSort] at hn
    exact lt_size_of_get? (mem_lookup.1 (List.mem_filter.1 hn).1).2

end Classify

/-! ### The flow as a member -/

namespace Plan

variable {c : LayoutConfig} {parent : Node} {run : List Node}

theorem members_ofParent_singleton (n : Node) :
    (ofParent c parent [n]).members = [.member n.id] := by
  have haxis : ∃ g, axis? c parent.contentBox [n] = some g := by
    rw [axis?]
    split <;> exact ⟨_, rfl⟩
  obtain ⟨g, hg⟩ := haxis
  have hrun : (ofRun c parent.contentBox [n]).members = [.member n.id] := by
    rw [ofRun, hg]
    exact members_axis? hg
  unfold ofParent
  split
  · rfl
  · split
    · rfl
    · dsimp only
      split <;> exact hrun

/-- One box is a member itself. -/
theorem collapse_ofParent_singleton (n : Node) :
    (ofParent c parent [n]).collapse = .member n.id := by
  rw [GroupPlan.collapse, members_ofParent_singleton]

/-- Two boxes or more are in a group. -/
theorem collapse_ofParent (hmany : 2 ≤ run.length) :
    (ofParent c parent run).collapse =
      .group (ofParent c parent run).arrangement (ofParent c parent run).members := by
  have hwide := (covers_ofParent c parent run).many hmany
  rw [GroupPlan.collapse]
  split
  · rename_i h
    rw [h] at hwide
    exact absurd hwide (by simp)
  · rfl

/-- The boxes of a run that are in the flow. -/
def inFlow (c : LayoutConfig) (content : Rect) (run : List Node) : List Node :=
  run.filter fun n ↦ !isPositioned c content n

/-- A run without positioned members is planned as the flow that it is. -/
theorem ofPending_of_positioned_eq_nil (hnone : positioned c parent.contentBox run = [])
    (hne : run ≠ []) :
    ofPending c parent run = ofParent c parent (inFlow c parent.contentBox run) := by
  have hflow : (inFlow c parent.contentBox run).isEmpty = false := by
    rw [List.isEmpty_eq_false_iff]
    intro hnil
    obtain ⟨n, hn⟩ := List.exists_mem_of_ne_nil _ hne
    have hpositioned : n ∉ positioned c parent.contentBox run := hnone ▸ List.not_mem_nil
    rw [positioned, mem_stableSort] at hpositioned
    cases htest : isPositioned c parent.contentBox n with
    | true => exact hpositioned (List.mem_filter.2 ⟨hn, htest⟩)
    | false =>
      have hmem : n ∈ inFlow c parent.contentBox run := List.mem_filter.2 ⟨hn, by rw [htest]; rfl⟩
      rw [hnil] at hmem
      exact absurd hmem List.not_mem_nil
  unfold ofPending
  dsimp only
  rw [hnone]
  rw [inFlow] at hflow
  rw [hflow]
  rfl

/-- **Positioned members are layered over the flow** in a frame. -/
theorem ofPending_of_positioned_ne_nil (hsome : positioned c parent.contentBox run ≠ []) :
    ofPending c parent run = .of .frame
      ((if (inFlow c parent.contentBox run).isEmpty then []
        else [(ofParent c parent (inFlow c parent.contentBox run)).collapse]) ++
        (positioned c parent.contentBox run).map fun n ↦ .member n.id) := by
  unfold ofPending
  dsimp only
  rw [inFlow]
  cases hlayered : positioned c parent.contentBox run with
  | nil => exact absurd hlayered hsome
  | cons n r =>
    cases (run.filter fun n ↦ !isPositioned c parent.contentBox n).isEmpty <;> rfl

theorem stableOrder_positioned (c : LayoutConfig) (content : Rect) (run : List Node) :
    StableOrder (fun a b ↦ a.style.zIndex ≤ b.style.zIndex)
      (run.filter (isPositioned c content)) (positioned c content run) :=
  stableOrder_stableSort (fun a b ↦ by simpa using Int.le_total _ _)
    (fun a b c hab hbc ↦ by simpa using Int.le_trans (by simpa using hab) (by simpa using hbc)) _

end Plan

/-! ### Whole runs -/

namespace Classify

variable {c : LayoutConfig} {parent : NodeId} {t : NodeTree}

theorem flatMap_inner_map_member (run : List Node) :
    (run.map fun n ↦ Plan.member n.id).flatMap Plan.inner = [] := by
  induction run with
  | nil => rfl
  | cons n r ih => exact ih

/-- What the members of a group come to, where the plan of the flow is a group. -/
theorem inside_flow {o : ClassifyOutcome} {gs : List LayoutDecision} {last : LayoutDecision}
    (hdecisions : o.decisions = gs ++ [last]) (hlast : last.synthetic = false) {inner : List NodeId}
    (hgs : ∀ d ∈ gs, d.synthetic = true ∧ ∀ i ∈ d.members, t.size ≤ i ∨ i ∈ inner) {g i : NodeId}
    (hi : i < t.size) (h : o.Inside g i) : i ∈ inner := by
  have hmember : ∀ d ∈ o.decisions, d.synthetic = true →
      ∀ k ∈ d.members, t.size ≤ k ∨ k ∈ inner := by
    intro d hd hsynthetic
    rw [hdecisions] at hd
    rcases List.mem_append.1 hd with hd | hd
    · exact (hgs d hd).2
    · rw [List.mem_singleton.1 hd, hlast] at hsynthetic
      exact absurd hsynthetic (by decide)
  induction h with
  | member decided synthetic mem =>
    exact (hmember _ decided synthetic _ mem).resolve_left (Nat.not_le.2 hi)
  | deeper _ _ _ _ ih => exact ih hi

/-- **Positioned boxes are layered over the flow.** Classifying a run with pending members succeeds,
and its last decision is on the node whose run it is. Exactly the positioned members get the mark of
positioned members. If there are any, the decision is a frame: first at most one member for the
flow, and then the positioned ones by stacking index, those with the same index in source order. The
member for the flow is the only box in the flow, or a group that is planned as the flow and has all
boxes of the flow inside. If there are none, the decision is that of the flow itself. Members that
have a place elsewhere are left out and reported; if all are different nodes that still need a place
there are none of these. -/
theorem layers_positioned (c : LayoutConfig) (t : NodeTree) (parent : NodeId) (p : Node)
    (pending : List NodeId) (hp : t.get? parent = some p)
    (hpending : t.pendingRun parent = .ok pending) (hne : pending ≠ []) :
    ∃ o t' last layered, run c t parent = .ok (o, t') ∧ o.decisions.getLast? = some last ∧
      last.owner = parent ∧ last.synthetic = false ∧
      (pending.Nodup → (∀ i ∈ pending, t.renderParent? i = none) → o.skipped = []) ∧
      StableOrder (fun a b ↦ a.style.zIndex ≤ b.style.zIndex)
        ((t.lookup pending).filter (Plan.isPositioned c p.contentBox)) layered ∧
      (∀ i, t'.isOverlay i = true ↔ t.isOverlay i = true ∨ i ∈ layered.map Node.id) ∧
      let inFlow := Plan.inFlow c p.contentBox (t.lookup pending)
      let flow := Plan.ofParent c p inFlow
      (layered = [] → ∃ ids, AllAt t.size o flow.members ids ∧
        last.Arranges t.size o flow.arrangement ids) ∧
      (layered ≠ [] → last.container = .frame ∧ ∃ first,
        (o.skipped = [] → last.members = first ++ layered.map Node.id) ∧
        last.Arranges t.size o ⟨.frame, .empty, none, none⟩ (first ++ layered.map Node.id) ∧
        (inFlow = [] ∧ first = [] ∨ (∃ n, inFlow = [n] ∧ first = [n.id]) ∨
          2 ≤ inFlow.length ∧ ∃ g, first = [g] ∧
            (Plan.group flow.arrangement flow.members).IsAt t.size o g ∧
            ∀ i < t.size, (o.Inside g i → i ∈ inFlow.map Node.id) ∧
              (i ∈ inFlow.map Node.id → o.Inside g i ∨ o.LeavesOut i))) := by
  obtain rfl : t.pending parent = pending :=
    Except.ok.inj ((pendingRun_eq (lt_size_of_get? hp)).symm.trans hpending)
  obtain ⟨gs, last, o, t', ids, hok, hdecisions, howner, hsynthetic, hgs, hat, harranges⟩ :=
    exists_recorded c hp hne
  refine ⟨o, t', last, Plan.positioned c p.contentBox (t.lookup (t.pending parent)), hok,
    by rw [hdecisions]; simp, howner, hsynthetic, fun hnodup hnone ↦ ?_,
    Plan.stableOrder_positioned c _ _, isOverlay_run hp hne hok, ?_⟩
  · have hopen : Open t (t.pending parent) :=
      ⟨hnodup, fun i hi ↦ ⟨lt_size_of_mem_pending hi, hnone i hi⟩⟩
    obtain ⟨gs', last', t'', hok', -⟩ := exists_run c (lt_size_of_get? hp) hopen hne
    rw [(Prod.mk.inj (Except.ok.inj (hok.symm.trans hok'))).1]
  have hrun : t.lookup (t.pending parent) ≠ [] := fun hnil ↦ by
    have hids : (t.lookup (t.pending parent)).map Node.id = t.pending parent :=
      map_id_lookup fun i hi ↦ lt_size_of_mem_pending hi
    rw [hnil] at hids
    exact hne hids.symm
  refine ⟨fun hnone ↦ ?_, fun hsome ↦ ?_⟩
  · rw [Plan.ofPending_of_positioned_eq_nil hnone hrun] at hat harranges
    exact ⟨ids, hat, harranges⟩
  · rw [Plan.ofPending_of_positioned_ne_nil hsome] at hat harranges hgs
    obtain ⟨first, rest, rfl, hfirst, hrest⟩ := allAt_append.1 hat
    obtain rfl := allAt_map_member.1 hrest
    refine ⟨harranges.container, first, harranges.members_eq, harranges, ?_⟩
    generalize Plan.inFlow c p.contentBox (t.lookup (t.pending parent)) = flow at hfirst hgs ⊢
    rcases flow with - | ⟨n, - | ⟨m, r⟩⟩
    · exact .inl ⟨rfl, hfirst⟩
    · obtain ⟨id, more, rfl, hid, rfl⟩ := hfirst
      rw [Plan.collapse_ofParent_singleton] at hid
      exact .inr (.inl ⟨n, rfl, congrArg (fun i ↦ [i]) hid⟩)
    · obtain ⟨g, more, rfl, hg, rfl⟩ := hfirst
      have hmany : 2 ≤ (n :: m :: r).length := by simp
      rw [Plan.collapse_ofParent hmany] at hg
      refine .inr (.inr ⟨hmany, g, rfl, hg, fun i hi ↦ ⟨fun hinside ↦ ?_, fun hmem ↦ ?_⟩⟩)
      · have hinner := inside_flow hdecisions hsynthetic hgs hi hinside
        rw [GroupPlan.of, List.flatMap_append, flatMap_inner_map_member, List.append_nil] at hinner
        simp only [List.isEmpty_cons, Bool.false_eq_true, if_false, Plan.collapse_ofParent hmany,
          List.flatMap_singleton, Plan.inner] at hinner
        exact (Plan.covers_ofParent c p (n :: m :: r)).leaves.mem_iff.1 hinner
      · have hleaf := (Plan.covers_ofParent c p (n :: m :: r)).leaves.mem_iff.2 hmem
        rcases hg.inside i hleaf with rfl | ⟨-, hinside⟩ | ⟨-, hout⟩
        · exact absurd hi (Nat.not_lt.2 hg.1)
        · exact .inl hinside
        · exact .inr hout

/-- A root with an element in the flow, and another one that is positioned. -/
def overlaid : NodeTree :=
  twoBoxes.modify 2 fun n ↦ { n with
    bounds := ⟨10, 10, 5, 5⟩
    style := n.style.set "position" "absolute" }

/-- The second element is layered over the first. -/
theorem layers_positioned_overlaid :
    ∃ p, overlaid.get? 0 = some p ∧ overlaid.pendingRun 0 = .ok [1, 2] ∧
      ∃ o t' last, run .default overlaid 0 = .ok (o, t') ∧ o.decisions.getLast? = some last ∧
        last.container = .frame ∧ last.members = [1, 2] ∧
        t'.isOverlay 1 = false ∧ t'.isOverlay 2 = true := by
  obtain ⟨p, hp⟩ : ∃ p, overlaid.get? 0 = some p := exists_get? (by decide)
  have hpending : overlaid.pendingRun 0 = .ok [1, 2] := by decide +kernel
  obtain ⟨o, t', last, layered, hok, hlast, -, -, hskipped, horder, hoverlay, -, hlayers⟩ :=
    layers_positioned .default overlaid 0 p [1, 2] hp hpending (by simp)
  have hboxes : (overlaid.get? 0).map (fun p ↦
      (((overlaid.lookup [1, 2]).filter (Plan.isPositioned .default p.contentBox)).map Node.id,
        (Plan.inFlow .default p.contentBox (overlaid.lookup [1, 2])).map Node.id)) =
      some ([2], [1]) := by decide +kernel
  rw [hp, Option.map_some, Option.some.injEq, Prod.mk.injEq] at hboxes
  obtain ⟨hpositioned, hflow⟩ := hboxes
  have hids : layered.map Node.id = [2] :=
    List.perm_singleton.1 (hpositioned ▸ horder.perm.map Node.id)
  have hnone : o.skipped = [] := hskipped (by decide) (by decide +kernel)
  obtain ⟨hcontainer, first, hmembers, -, hfirst⟩ := hlayers fun hnil ↦ by
    rw [hnil] at hids
    exact absurd hids (by simp)
  have hone : first = [1] := by
    rcases hfirst with ⟨hnil, -⟩ | ⟨n, hn, rfl⟩ | ⟨hmany, -⟩
    · rw [hnil] at hflow
      exact absurd hflow (by simp)
    · rw [hn] at hflow
      exact hflow
    · rw [← List.length_map Node.id, hflow] at hmany
      exact absurd hmany (by decide)
  refine ⟨p, hp, hpending, o, t', last, hok, hlast, hcontainer, ?_, ?_, ?_⟩
  · rw [hmembers hnone, hone, hids]
    rfl
  · rw [← Bool.not_eq_true, hoverlay, hids]
    decide +kernel
  · rw [hoverlay, hids]
    exact .inr (List.mem_singleton_self 2)

end Classify

end ViewCompiler
