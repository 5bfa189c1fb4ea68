import Mathlib.Data.List.Basic
import Mathlib.Data.List.Perm.Basic
import ViewCompiler.Layout.Plan

/-!
# Plans lose no member

The plan of a run groups its members in many ways, and in all of them every member of the run is in
the plan exactly once, and every group inside the plan has at least two members
(`Plan.coveredBy_ofPending`).

What is split at floats is put together again from seven parts (`FloatParts.perm_all`). A part
becomes a group only if there are two nodes in it, but that does not make the group wide: the last
part is planned by the same rules again, and its plan could be one member with all nodes inside.
`Plan.stack` unpacks such a plan, which is what `GroupPlan.Covers.stack` is about.
-/

namespace ViewCompiler

/-! ### Splitting at floats -/

namespace FloatParts

/-- All nodes of the parts. -/
def all (p : FloatParts) : List Node :=
  p.above ++ p.leftAbove ++ p.rightAbove ++ p.inline ++ p.leftBelow ++ p.rightBelow ++ p.below

theorem perm_all_push (n : Node) (cleared : Bool) (p : FloatParts) :
    (p.push n cleared).all.Perm (n :: p.all) := by
  rw [List.perm_iff_count]
  intro m
  unfold push
  split <;> simp only [all, List.count_append, List.count_cons] <;> omega

theorem above_push (n : Node) (cleared : Bool) (p : FloatParts) :
    (p.push n cleared).above = p.above := by
  unfold push
  split <;> rfl

theorem above_scan (p : Pending) (run : List Node) : (scan p run).above = [] := by
  induction run generalizing p with
  | nil => rfl
  | cons n run ih =>
    rw [scan]
    split
    · rfl
    · rw [above_push, ih]

theorem perm_all_scan (p : Pending) (run : List Node) : (scan p run).all.Perm run := by
  induction run generalizing p with
  | nil => exact .refl _
  | cons n run ih =>
    rw [scan]
    split
    · exact .refl _
    · exact (perm_all_push _ _ _).trans ((ih _).cons n)

/-- **No node of a run is lost or repeated where it is split at floats.** -/
theorem perm_all (run : List Node) : (ofRun run).all.Perm run := by
  have hscan := perm_all_scan ⟨0, 0, false⟩ (run.dropWhile fun n ↦ !n.isFloating)
  have habove := above_scan ⟨0, 0, false⟩ (run.dropWhile fun n ↦ !n.isFloating)
  have hall : (ofRun run).all = (run.takeWhile fun n ↦ !n.isFloating) ++
      (scan ⟨0, 0, false⟩ (run.dropWhile fun n ↦ !n.isFloating)).all := by
    simp [all, ofRun, habove]
  have hsplit : (run.takeWhile fun n ↦ !n.isFloating) ++ (run.dropWhile fun n ↦ !n.isFloating) =
      run := List.takeWhile_append_dropWhile
  rw [hall]
  exact (hscan.append_left _).trans (.of_eq hsplit)

end FloatParts

/-! ### Leaves and width -/

mutual

/-- Every group in a plan has at least two members. -/
def Plan.Wide : Plan → Prop
  | .member _ => True
  | .group _ members => 2 ≤ members.length ∧ WideAll members

def WideAll : List Plan → Prop
  | [] => True
  | p :: r => p.Wide ∧ WideAll r

end

theorem wideAll_iff {ps : List Plan} : WideAll ps ↔ ∀ p ∈ ps, p.Wide := by
  induction ps with
  | nil => simp [WideAll]
  | cons p r ih => simp [WideAll, ih]

theorem leavesOfAll_eq (ps : List Plan) : leavesOfAll ps = ps.flatMap Plan.leaves := by
  induction ps with
  | nil => rfl
  | cons p r ih => rw [leavesOfAll, ih, List.flatMap_cons]

theorem leavesOfAll_append (ps qs : List Plan) :
    leavesOfAll (ps ++ qs) = leavesOfAll ps ++ leavesOfAll qs := by
  rw [leavesOfAll_eq, leavesOfAll_eq, leavesOfAll_eq, List.flatMap_append]

theorem leavesOfAll_map_member (run : List Node) :
    leavesOfAll (run.map fun n ↦ .member n.id) = run.map Node.id := by
  induction run with
  | nil => rfl
  | cons n r ih =>
    rw [List.map_cons, leavesOfAll, ih, Plan.leaves, List.map_cons, List.singleton_append]

theorem wideAll_map_member (run : List Node) : WideAll (run.map fun n ↦ .member n.id) := by
  rw [wideAll_iff]
  intro p hp
  obtain ⟨n, -, rfl⟩ := List.mem_map.1 hp
  trivial

/-- Members that stand for the nodes of a run. -/
structure CoveredBy (ps : List Plan) (run : List Node) : Prop where
  leaves : (leavesOfAll ps).Perm (run.map Node.id)
  wide : WideAll ps

namespace CoveredBy

theorem nil : CoveredBy [] [] := ⟨.refl _, trivial⟩

theorem members (run : List Node) : CoveredBy (run.map fun n ↦ .member n.id) run :=
  ⟨.of_eq (leavesOfAll_map_member run), wideAll_map_member run⟩

theorem append {ps qs : List Plan} {run run' : List Node} (h : CoveredBy ps run)
    (h' : CoveredBy qs run') : CoveredBy (ps ++ qs) (run ++ run') where
  leaves := by
    rw [leavesOfAll_append, List.map_append]
    exact h.leaves.append h'.leaves
  wide := by
    rw [wideAll_iff]
    intro p hp
    rcases List.mem_append.1 hp with hp | hp
    · exact wideAll_iff.1 h.wide p hp
    · exact wideAll_iff.1 h'.wide p hp

theorem of_perm {ps : List Plan} {run run' : List Node} (h : CoveredBy ps run)
    (hperm : run.Perm run') : CoveredBy ps run' :=
  ⟨h.leaves.trans (hperm.map _), h.wide⟩

theorem ne_nil {ps : List Plan} {run : List Node} (h : CoveredBy ps run) (hrun : run ≠ []) :
    ps ≠ [] := by
  rintro rfl
  have hlength := h.leaves.length_eq
  rw [leavesOfAll, List.length_nil, List.length_map] at hlength
  exact hrun (List.length_eq_zero_iff.1 hlength.symm)

end CoveredBy

/-- A group that stands for the nodes of a run, and is wide if there are two of them. -/
structure GroupPlan.Covers (g : GroupPlan) (run : List Node) : Prop extends
  CoveredBy g.members run where
  many : 2 ≤ run.length → 2 ≤ g.members.length

namespace GroupPlan

namespace Covers

/-- A group whose members are the nodes themselves. -/
theorem of_members {g : GroupPlan} {run : List Node}
    (h : g.members = run.map fun n ↦ .member n.id) : g.Covers run where
  toCoveredBy := h ▸ CoveredBy.members run
  many hrun := by
    rw [h, List.length_map]
    exact hrun

/-- Two or more nodes as one member. -/
theorem asMember {g : GroupPlan} {run : List Node} (h : g.Covers run) (hrun : 2 ≤ run.length) :
    CoveredBy [.group g.arrangement g.members] run where
  leaves := by
    rw [leavesOfAll, leavesOfAll, Plan.leaves, List.append_nil]
    exact h.leaves
  wide := ⟨⟨h.many hrun, h.wide⟩, trivial⟩

/-- **Parts put together again**, even where there is one part only. -/
theorem stack {ps : List Plan} {run : List Node} (h : CoveredBy ps run) :
    (Plan.stack ps).Covers run := by
  unfold Plan.stack
  split
  · rename_i arrangement inner
    refine ⟨⟨?_, h.wide.1.2⟩, fun _ ↦ h.wide.1.1⟩
    have hleaves := h.leaves
    rw [leavesOfAll, leavesOfAll, Plan.leaves, List.append_nil] at hleaves
    exact hleaves
  · rename_i hgroup
    refine ⟨h, fun hrun ↦ ?_⟩
    -- one node alone cannot stand for two
    obtain - | ⟨p, - | ⟨q, r⟩⟩ := ps
    · exact absurd rfl (h.ne_nil (List.ne_nil_of_length_pos (by omega)))
    · cases p with
      | member id =>
        have hlength := h.leaves.length_eq
        rw [List.length_map] at hlength
        simp [leavesOfAll, Plan.leaves] at hlength
        omega
      | group arrangement inner => exact absurd rfl (hgroup arrangement inner)
    · simp [of, mark]

end Covers

end GroupPlan

namespace Plan

/-! ### Runs that are not split -/

theorem members_axis? {c : LayoutConfig} {content : Rect} {run : List Node} {g : GroupPlan}
    (h : axis? c content run = some g) : g.members = run.map fun n ↦ .member n.id := by
  unfold axis? at h
  split at h
  · split at h <;> exact Option.some.inj h ▸ rfl
  · split at h
    · exact Option.some.inj h ▸ rfl
    · split at h
      · exact Option.some.inj h ▸ rfl
      · exact absurd h (by simp)

theorem members_free (run : List Node) : (free run).members = run.map fun n ↦ .member n.id := by
  unfold free
  split <;> rfl

theorem members_whole (c : LayoutConfig) (content : Rect) (run : List Node) :
    (whole c content run).members = run.map fun n ↦ .member n.id := by
  rw [whole]
  cases h : axis? c content run with
  | none => exact members_free run
  | some g => exact members_axis? h

/-- A run that is neither empty nor one node has two nodes or more. -/
theorem one_lt_length {run : List Node} (hnil : run ≠ []) (hone : ∀ n, run ≠ [n]) :
    1 < run.length := by
  obtain - | ⟨n, - | ⟨m, r⟩⟩ := run
  · exact absurd rfl hnil
  · exact absurd rfl (hone n)
  · simp

/-- A part of a run, as one member or as none. -/
theorem coveredBy_part? (c : LayoutConfig) (content : Rect) (run : List Node) :
    CoveredBy (part? (whole c content) run).toList run := by
  unfold part?
  split
  · exact .nil
  · rename_i n
    exact .members [n]
  · rename_i hnil hone
    refine (GroupPlan.Covers.of_members (members_whole c content run)).asMember ?_
    exact one_lt_length hnil hone

theorem coveredBy_parts (c : LayoutConfig) (content : Rect) (parts : List (List Node)) :
    CoveredBy (parts.filterMap (part? (whole c content))) parts.flatten := by
  induction parts with
  | nil => exact .nil
  | cons run r ih =>
    have hcons : (run :: r).filterMap (part? (whole c content)) =
        (part? (whole c content) run).toList ++ r.filterMap (part? (whole c content)) := by
      cases h : part? (whole c content) run <;> simp [h]
    rw [hcons, List.flatten_cons]
    exact (coveredBy_part? c content run).append ih

/-- The floats above the first clear and what wraps around them. -/
theorem coveredBy_bandMembers (c : LayoutConfig) (content : Rect) (p : FloatParts) :
    CoveredBy (bandMembers c content p) (p.leftAbove ++ p.rightAbove ++ p.inline) := by
  unfold bandMembers
  dsimp only
  split
  · rename_i hband
    have hmany : 1 < (p.leftAbove ++ p.inline ++ p.rightAbove).length := by
      simp only [Bool.and_eq_true, decide_eq_true_eq] at hband
      exact hband.1.2
    refine CoveredBy.of_perm (GroupPlan.Covers.asMember (.of_members rfl) hmany) ?_
    rw [List.append_assoc, List.append_assoc]
    exact List.perm_append_comm.append_left _
  · have hparts := coveredBy_parts c content [p.leftAbove, p.rightAbove, p.inline]
    simpa using hparts

/-! ### Runs that are split at floats -/

/-- **The plan of a run.** The induction is on the length of the run, for the part from the last
clear on. -/
theorem covers_ofRun (c : LayoutConfig) (content : Rect) (run : List Node) :
    (ofRun c content run).Covers run := by
  induction hlen : run.length using Nat.strongRecOn generalizing run with
  | ind n ih =>
    rw [ofRun]
    split
    · rename_i g hg
      exact .of_members (members_axis? hg)
    · split
      · rename_i hfloat
        have habove := coveredBy_part? c content (FloatParts.ofRun run).above
        have hband := coveredBy_bandMembers c content (FloatParts.ofRun run)
        have hbelow := coveredBy_parts c content
          [(FloatParts.ofRun run).leftBelow, (FloatParts.ofRun run).rightBelow]
        have hlast := ih _ (hlen ▸ FloatParts.length_below_lt hfloat) _ rfl
        refine GroupPlan.Covers.stack (CoveredBy.of_perm (((habove.append hband).append
          hbelow).append (show CoveredBy _ (FloatParts.ofRun run).below from ?_)) ?_)
        · split
          · rename_i h
            rw [h]
            exact .nil
          · rename_i m h
            rw [h]
            exact .members [m]
          · rename_i hnil hone
            refine hlast.asMember ?_
            exact one_lt_length hnil hone
        · refine List.Perm.trans (.of_eq ?_) (FloatParts.perm_all run)
          simp [FloatParts.all]
      · exact .of_members (members_free run)

/-! ### Runs of a node -/

theorem covers_ofParent (c : LayoutConfig) (parent : Node) (run : List Node) :
    (ofParent c parent run).Covers run := by
  unfold ofParent
  split
  · exact .of_members rfl
  · split
    · exact .of_members rfl
    · have hrun := covers_ofRun c parent.contentBox run
      dsimp only
      split
      · exact ⟨hrun.toCoveredBy, hrun.many⟩
      · exact hrun

theorem coveredBy_collapse {g : GroupPlan} {run : List Node} (h : g.Covers run)
    (hrun : run ≠ []) : CoveredBy [g.collapse] run := by
  obtain ⟨arrangement, members⟩ := g
  obtain - | ⟨p, - | ⟨q, r⟩⟩ := members
  · exact absurd rfl (h.ne_nil hrun)
  · exact h.toCoveredBy
  · refine ⟨?_, ⟨⟨by simp, h.wide⟩, trivial⟩⟩
    rw [GroupPlan.collapse, leavesOfAll, leavesOfAll, Plan.leaves, List.append_nil]
    exact h.leaves

/-- **The plan of all pending members of a node.** -/
theorem coveredBy_ofPending (c : LayoutConfig) (parent : Node) (run : List Node) :
    CoveredBy (ofPending c parent run).members run := by
  have hsplit : (run.filter (fun n ↦ !isPositioned c parent.contentBox n) ++
      positioned c parent.contentBox run).Perm run := by
    refine ((perm_stableSort _ _).append_left _).trans (List.perm_append_comm.trans ?_)
    exact List.filter_append_perm _ run
  refine CoveredBy.of_perm ?_ hsplit
  unfold ofPending
  dsimp only
  by_cases hflow : run.filter (fun n ↦ !isPositioned c parent.contentBox n) = []
  · rw [hflow]
    exact .members _
  · have hparent := covers_ofParent c parent
      (run.filter fun n ↦ !isPositioned c parent.contentBox n)
    rw [List.isEmpty_eq_false_iff.2 hflow]
    cases hlayered : positioned c parent.contentBox run with
    | nil =>
      rw [List.append_nil]
      exact hparent.toCoveredBy
    | cons n r => exact (coveredBy_collapse hparent hflow).append (.members (n :: r))

end Plan

end ViewCompiler
