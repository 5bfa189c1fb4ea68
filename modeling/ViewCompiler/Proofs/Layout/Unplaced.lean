import ViewCompiler.Layout.Plan

/-!
# Plans do not look at places

A plan is made of what was measured of the members of a run and of the node whose run it is. Where
these are in the output, and what has been put into them, makes no difference
(`Plan.ofPending_unplaced`). So the plan of a run does not depend on the numbers of the groups that
have been made before.

Every test of a run is shown to be the same for the nodes without their places. For a single node
this holds by definition, so all that is left is how the tests go through a list.
-/

namespace ViewCompiler

/-- A node without its place in the output. -/
def Node.unplaced (n : Node) : Node :=
  { n with renderParent := none, rendered := false, renderChildren := [], renderPosition := -1 }

/-! ### Lists that are mapped -/

section

variable {α β : Type}

theorem insertOrdered_map (le : β → β → Bool) (f : α → β) (a : α) (l : List α) :
    insertOrdered le (f a) (l.map f) =
      (insertOrdered (fun a b ↦ le (f a) (f b)) a l).map f := by
  induction l with
  | nil => rfl
  | cons b r ih =>
    rw [List.map_cons, insertOrdered, insertOrdered]
    split
    · rfl
    · rw [ih, List.map_cons]

theorem stableSort_map (le : β → β → Bool) (f : α → β) (l : List α) :
    stableSort le (l.map f) = (stableSort (fun a b ↦ le (f a) (f b)) l).map f := by
  induction l with
  | nil => rfl
  | cons a r ih => rw [List.map_cons, stableSort, stableSort, ih, insertOrdered_map]

end

namespace Axis

variable (f : Node → Node)

theorem allPairs_map (related : Node → Node → Bool) (run : List Node) :
    allPairs related (run.map f) = allPairs (fun a b ↦ related (f a) (f b)) run := by
  induction run with
  | nil => rfl
  | cons n r ih =>
    rw [List.map_cons, allPairs, allPairs, ih, List.all_map]
    rfl

theorem allNeighbours_map (related : Node → Node → Bool) (run : List Node) :
    allNeighbours related (run.map f) = allNeighbours (fun a b ↦ related (f a) (f b)) run := by
  induction run with
  | nil => rfl
  | cons n r ih =>
    cases r with
    | nil => rfl
    | cons m r =>
      rw [List.map_cons] at ih ⊢
      rw [List.map_cons, allNeighbours, allNeighbours, ih]

/-! ### The tests of a run -/

variable (run : List Node)

theorem isHorizontal_unplaced (tolerance : Scalar) :
    isHorizontal tolerance (run.map Node.unplaced) = isHorizontal tolerance run := by
  rw [isHorizontal, isHorizontal, List.any_map, allPairs_map]
  rfl

theorem isVertical_unplaced (content : Rect) (tolerance : Scalar) :
    isVertical content tolerance (run.map Node.unplaced) = isVertical content tolerance run :=
  allNeighbours_map Node.unplaced (goesBelow content tolerance) run

theorem bestAnchor?_unplaced :
    bestAnchor? (run.map Node.unplaced) = (bestAnchor? run).map Node.unplaced := by
  cases run with
  | nil => rfl
  | cons n r =>
    have hfold : ∀ best : Node,
        (r.map Node.unplaced).foldl (fun best n ↦ if isBetterAnchor best n then n else best)
          best.unplaced =
        (r.foldl (fun best n ↦ if isBetterAnchor best n then n else best) best).unplaced := by
      induction r with
      | nil => exact fun _ ↦ rfl
      | cons m r ih =>
        intro best
        rw [List.map_cons, List.foldl_cons, List.foldl_cons,
          show isBetterAnchor best.unplaced m.unplaced = isBetterAnchor best m from rfl]
        split
        · exact ih m
        · exact ih best
    rw [List.map_cons, bestAnchor?, bestAnchor?, hfold n]
    rfl

theorem anchor?_unplaced : anchor? (run.map Node.unplaced) = anchor? run := by
  have hbaseline : (run.map Node.unplaced).filter (fun n ↦ n.style.verticalAlign.isBaseline) =
      (run.filter fun n ↦ n.style.verticalAlign.isBaseline).map Node.unplaced := List.filter_map
  have hbest : ∀ l : List Node, (bestAnchor? (l.map Node.unplaced)).map Node.id =
      (bestAnchor? l).map Node.id := fun l ↦ by
    rw [bestAnchor?_unplaced, Option.map_map]
    rfl
  rw [anchor?, anchor?, List.all_map, hbaseline]
  dsimp only
  rw [List.isEmpty_map]
  show (if run.all isAlignable then _ else _) = _
  split
  · split
    · exact hbest _
    · exact hbest _
  · rfl

end Axis

/-! ### Splitting at floats -/

namespace FloatParts

/-- Parts without the places of their nodes. -/
def unplaced (p : FloatParts) : FloatParts :=
  ⟨p.above.map Node.unplaced, p.leftAbove.map Node.unplaced, p.rightAbove.map Node.unplaced,
    p.inline.map Node.unplaced, p.leftBelow.map Node.unplaced, p.rightBelow.map Node.unplaced,
    p.below.map Node.unplaced⟩

theorem push_unplaced (n : Node) (cleared : Bool) (p : FloatParts) :
    p.unplaced.push n.unplaced cleared = (p.push n cleared).unplaced := by
  have hfloat : n.unplaced.style.float = n.style.float := rfl
  unfold push
  rw [hfloat]
  cases n.style.float <;> cases cleared <;> rfl

theorem scan_unplaced (p : Pending) (run : List Node) :
    scan p (run.map Node.unplaced) = (scan p run).unplaced := by
  induction run generalizing p with
  | nil => rfl
  | cons n run ih =>
    have hended : p.isEndedBy n.unplaced = p.isEndedBy n := rfl
    have hafter : (p.afterClear n.unplaced).afterFloat n.unplaced =
        (p.afterClear n).afterFloat n := rfl
    rw [List.map_cons, scan, scan, hended, hafter, ih]
    split
    · rfl
    · exact push_unplaced n _ _

theorem ofRun_unplaced (run : List Node) :
    ofRun (run.map Node.unplaced) = (ofRun run).unplaced := by
  rw [ofRun, ofRun, List.takeWhile_map, List.dropWhile_map, scan_unplaced]
  rfl

end FloatParts

/-! ### Plans -/

namespace Plan

variable (c : LayoutConfig) (content : Rect) (run : List Node)

theorem ofRun_unplaced_members (container : Container) :
    GroupPlan.ofRun container (run.map Node.unplaced) = GroupPlan.ofRun container run := by
  rw [GroupPlan.ofRun, GroupPlan.ofRun, List.map_map]
  rfl

theorem axis?_unplaced : axis? c content (run.map Node.unplaced) = axis? c content run := by
  obtain - | ⟨n, - | ⟨m, r⟩⟩ := run
  · rfl
  · rfl
  · have hhorizontal := Axis.isHorizontal_unplaced (n :: m :: r) c.tolerance
    have hvertical := Axis.isVertical_unplaced (n :: m :: r) content c.tolerance
    have hmembers := ofRun_unplaced_members (n :: m :: r)
    simp only [List.map_cons] at hhorizontal hvertical hmembers
    simp only [List.map_cons, axis?, hhorizontal, hvertical, hmembers]

theorem free_unplaced : free (run.map Node.unplaced) = free run := by
  rw [free, free, Axis.anchor?_unplaced]
  split <;> rw [ofRun_unplaced_members]

theorem whole_unplaced : whole c content (run.map Node.unplaced) = whole c content run := by
  rw [whole, whole, axis?_unplaced, free_unplaced]

theorem part?_unplaced :
    part? (whole c content) (run.map Node.unplaced) = part? (whole c content) run := by
  obtain - | ⟨n, - | ⟨m, r⟩⟩ := run
  · rfl
  · rfl
  · have hwhole := whole_unplaced c content (n :: m :: r)
    simp only [List.map_cons] at hwhole
    simp only [List.map_cons, part?, hwhole]

theorem parts_unplaced (parts : List (List Node)) :
    (parts.map (List.map Node.unplaced)).filterMap (part? (whole c content)) =
      parts.filterMap (part? (whole c content)) := by
  rw [List.filterMap_map]
  exact congrArg (List.filterMap · parts) (funext (part?_unplaced c content))

theorem bandMembers_unplaced (p : FloatParts) :
    bandMembers c content p.unplaced = bandMembers c content p := by
  have hband : p.unplaced.leftAbove ++ p.unplaced.inline ++ p.unplaced.rightAbove =
      (p.leftAbove ++ p.inline ++ p.rightAbove).map Node.unplaced := by
    rw [List.map_append, List.map_append]
    rfl
  have hparts := parts_unplaced c content [p.leftAbove, p.rightAbove, p.inline]
  have hempty : p.unplaced.inline.isEmpty = p.inline.isEmpty := List.isEmpty_map
  unfold bandMembers
  dsimp only
  rw [hband, List.length_map, Axis.isHorizontal_unplaced, ofRun_unplaced_members, hempty]
  split
  · rfl
  · exact hparts

/-- **The plan of a run.** The induction is on the length of the run, for the part from the last
clear on. -/
theorem ofRun_unplaced : ofRun c content (run.map Node.unplaced) = ofRun c content run := by
  induction hlen : run.length using Nat.strongRecOn generalizing run with
  | ind n ih =>
    rw [ofRun, ofRun, axis?_unplaced]
    cases axis? c content run with
    | some g => rfl
    | none =>
      have hfloats : (run.map Node.unplaced).any Node.isFloating = run.any Node.isFloating := by
        rw [List.any_map]
        rfl
      dsimp only
      by_cases hfloat : run.any Node.isFloating = true
      · rw [dif_pos hfloat, dif_pos (hfloats.trans hfloat), FloatParts.ofRun_unplaced,
          bandMembers_unplaced]
        have hbelow := ih _ (hlen ▸ FloatParts.length_below_lt hfloat)
          (FloatParts.ofRun run).below rfl
        have habove := part?_unplaced c content (FloatParts.ofRun run).above
        have hafter := parts_unplaced c content
          [(FloatParts.ofRun run).leftBelow, (FloatParts.ofRun run).rightBelow]
        generalize FloatParts.ofRun run = p at *
        obtain ⟨above, leftAbove, rightAbove, inline, leftBelow, rightBelow, below⟩ := p
        dsimp only [FloatParts.unplaced] at *
        simp only [List.map_cons, List.map_nil] at hafter
        rw [habove, hafter]
        obtain - | ⟨n, - | ⟨m, r⟩⟩ := below
        · rfl
        · rfl
        · simp only [List.map_cons] at hbelow ⊢
          rw [hbelow]
      · rw [dif_neg hfloat, dif_neg fun h ↦ hfloat (hfloats.symm.trans h), free_unplaced]

theorem ofParent_unplaced (parent : Node) :
    ofParent c parent.unplaced (run.map Node.unplaced) = ofParent c parent run := by
  have hboxes : (run.map Node.unplaced).map Node.bounds = run.map Node.bounds := by
    rw [List.map_map]
    rfl
  unfold ofParent
  rw [hboxes, ofRun_unplaced_members, ofRun_unplaced_members, ofRun_unplaced]
  rfl

theorem positioned_unplaced :
    positioned c content (run.map Node.unplaced) =
      (positioned c content run).map Node.unplaced := by
  rw [positioned, positioned, List.filter_map, stableSort_map]
  rfl

/-- **The plan of all pending members** is made without their places. -/
theorem ofPending_unplaced (parent : Node) :
    ofPending c parent.unplaced (run.map Node.unplaced) = ofPending c parent run := by
  have hcontent : parent.unplaced.contentBox = parent.contentBox := rfl
  have hflow : (run.map Node.unplaced).filter
      (fun n ↦ !isPositioned c parent.contentBox n) =
        (run.filter fun n ↦ !isPositioned c parent.contentBox n).map Node.unplaced :=
    List.filter_map
  unfold ofPending
  rw [hcontent, hflow, positioned_unplaced]
  dsimp only
  rw [List.isEmpty_map, ofParent_unplaced]
  generalize positioned c parent.contentBox run = layered
  have hmembers : (layered.map Node.unplaced).map (fun n ↦ Plan.member n.id) =
      layered.map fun n ↦ .member n.id := by
    rw [List.map_map]
    rfl
  generalize (if (run.filter fun n ↦ !isPositioned c parent.contentBox n).isEmpty then none
    else some (ofParent c parent (run.filter fun n ↦ !isPositioned c parent.contentBox n))) = flow
  cases layered with
  | nil => cases flow <;> rfl
  | cons n r => cases flow <;> exact congrArg (fun l ↦ GroupPlan.of .frame (_ ++ l)) hmembers

/-- Nodes that are the same but for their places have the same plan. -/
theorem ofPending_congr {parent parent' : Node} {run run' : List Node}
    (hparent : parent'.unplaced = parent.unplaced)
    (hrun : run'.map Node.unplaced = run.map Node.unplaced) :
    ofPending c parent' run' = ofPending c parent run := by
  rw [← ofPending_unplaced c run' parent', hparent, hrun, ofPending_unplaced]

end Plan

end ViewCompiler
