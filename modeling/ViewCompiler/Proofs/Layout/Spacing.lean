import ViewCompiler.Proofs.Layout.Footprint

/-!
# The same nodes with others in between

Two conversions have the first `n` nodes in common, and the second has `k` more before it makes its
first group. The groups that both make for the common nodes then have other numbers in the second
one, shifted by `k`, and so do all references to them. `Spaced n k` says that the second tree holds
the nodes of the first in this way; of the nodes in between nothing is said.

Every step of classification that is done to common nodes in both trees keeps this
(`Spaced.settle`, `Spaced.realize`), so that their runs come to the same (`Spaced.run`,
`Spaced.runs`). What is needed for it is that plans do not depend on places, that they consist of
nodes of the run, and that the new number of a group is one more than the last in both trees.
-/

namespace ViewCompiler

open NodeTree

/-- The number of a node when there are `k` others from `n` on. -/
def skip (n k i : Nat) : Nat := if i < n then i else i + k

theorem skip_of_lt {n i : Nat} (k : Nat) (h : i < n) : skip n k i = i := if_pos h

theorem skip_of_le {n i : Nat} (k : Nat) (h : n ≤ i) : skip n k i = i + k :=
  if_neg (Nat.not_lt.2 h)

theorem skip_inj {n k i j : Nat} : skip n k i = skip n k j ↔ i = j := by
  unfold skip
  constructor
  · intro h
    split at h <;> split at h <;> omega
  · rintro rfl
    rfl

/-- The numbers of the others are left out. -/
theorem skip_not_between (n k i : Nat) : ¬(n ≤ skip n k i ∧ skip n k i < n + k) := by
  unfold skip
  split <;> omega

/-- A node with other numbers for itself and for the nodes that it is inside or around in the
output. -/
def Node.renumber (f : NodeId → NodeId) (m : Node) : Node :=
  { m with
    id := f m.id
    renderParent := m.renderParent.map f
    renderChildren := m.renderChildren.map f }

/-- A node without a place in the output refers to no others. -/
theorem Node.renumber_eq_self {f : NodeId → NodeId} {m : Node} (hid : f m.id = m.id)
    (hplace : m.renderParent = none ∧ m.renderChildren = []) : m.renumber f = m := by
  obtain ⟨hparent, hmembers⟩ := hplace
  cases m
  simp only [Node.renumber] at *
  rw [hid, hparent, hmembers]
  rfl

/-- The second tree has the first `n` nodes and the groups of the first, and `k` other nodes in
between. -/
structure Spaced (n k : Nat) (t t' : NodeTree) : Prop where
  size_le : n ≤ t.size
  size_eq : t'.size = t.size + k
  get? : ∀ i, t'.get? (skip n k i) = (t.get? i).map (Node.renumber (skip n k))

namespace Spaced

variable {n k : Nat} {t t' : NodeTree} (h : Spaced n k t t')

include h

theorem skip_size : skip n k t.size = t'.size := by
  rw [skip_of_le k h.size_le, h.size_eq]

theorem get?_of_lt {i : Nat} (hi : i < n) :
    t'.get? i = (t.get? i).map (Node.renumber (skip n k)) := by
  rw [← h.get? i, skip_of_lt k hi]

/-! ### Operations on nodes -/

/-- **The same change at the same node.** -/
theorem modify {f f' : Node → Node} (hf : ∀ m : Node,
      ({ f' (m.renumber (skip n k)) with id := skip n k m.id } : Node) =
        ({ f m with id := m.id } : Node).renumber (skip n k)) (id : Nat) :
    Spaced n k (t.modify id f) (t'.modify (skip n k id) f') where
  size_le := by
    rw [size_modify]
    exact h.size_le
  size_eq := by
    rw [size_modify, size_modify, h.size_eq]
  get? i := by
    rw [get?_modify, get?_modify, h.get?]
    by_cases hi : id = i
    · rw [if_pos hi, if_pos (congrArg _ hi), Option.map_map, Option.map_map]
      exact congrArg (Option.map · (t.get? i)) (funext hf)
    · rw [if_neg hi, if_neg fun heq ↦ hi (skip_inj.1 heq)]

/-- A change at a node with a number that both trees give it. -/
theorem modify_of_lt {f f' : Node → Node} (hf : ∀ m : Node,
      ({ f' (m.renumber (skip n k)) with id := skip n k m.id } : Node) =
        ({ f m with id := m.id } : Node).renumber (skip n k)) {id : Nat} (hid : id < n) :
    Spaced n k (t.modify id f) (t'.modify id f') := by
  have hsame := h.modify hf id
  rwa [skip_of_lt k hid] at hsame

/-- **One more node in both trees.** -/
theorem alloc (kind : NodeKind) (tag : String) :
    Spaced n k (t.alloc kind tag).2 (t'.alloc kind tag).2 where
  size_le := by
    rw [size_alloc]
    exact Nat.le_succ_of_le h.size_le
  size_eq := by
    rw [size_alloc, size_alloc, h.size_eq, Nat.add_right_comm]
  get? i := by
    rw [get?_alloc, get?_alloc, h.get?, ← h.skip_size]
    by_cases hi : i = t.size
    · rw [if_pos hi, if_pos (congrArg _ hi)]
      rfl
    · rw [if_neg hi, if_neg fun heq ↦ hi (skip_inj.1 heq)]

/-- **A group for a common node.** -/
theorem allocGroup {parent : Nat} (hparent : parent < n) (bounds : Rect) :
    ∃ t₁ t₁', t.allocGroup parent bounds = .ok (t.size, t₁) ∧
      t'.allocGroup parent bounds = .ok (skip n k t.size, t₁') ∧ Spaced n k t₁ t₁' := by
  obtain ⟨p, hp⟩ := exists_get? (Nat.lt_of_lt_of_le hparent h.size_le)
  have hp' := h.get?_of_lt hparent
  rw [hp, Option.map_some] at hp'
  have hok' := allocGroup_eq hp' bounds
  rw [← h.skip_size] at hok'
  exact ⟨_, _, allocGroup_eq hp bounds, hok',
    (h.alloc .group "group").modify (fun _ ↦ by rfl) t.size⟩

end Spaced

namespace Classify

variable {n k : Nat} {t t' : NodeTree}

/-! ### One container -/

/-- Placings that stand at the same member. -/
structure Placing.Spaced (n k : Nat) (p p' : Placing) : Prop where
  tree : ViewCompiler.Spaced n k p.tree p'.tree
  placed : p'.placed = p.placed.map (skip n k)

theorem Placing.Spaced.placeMember {p p' : Placing} (h : p.Spaced n k p') (owner id : NodeId) :
    (placeMember owner p id).Spaced n k (placeMember (skip n k owner) p' (skip n k id)) := by
  unfold Classify.placeMember setRenderParent
  rw [h.tree.get?, h.tree.get?]
  cases p.tree.get? owner with
  | none => exact ⟨h.tree, h.placed⟩
  | some q =>
    cases hid : p.tree.get? id with
    | none => exact ⟨h.tree, h.placed⟩
    | some m =>
      cases hparent : m.renderParent with
      | some existing =>
        have hparent' : (m.renumber (skip n k)).renderParent = some (skip n k existing) := by
          rw [Node.renumber, hparent]
          rfl
        simp only [Option.map_some, hparent, hparent']
        exact ⟨h.tree, h.placed⟩
      | none =>
        have hparent' : (m.renumber (skip n k)).renderParent = none := by
          rw [Node.renumber, hparent]
          rfl
        simp only [Option.map_some, hparent, hparent']
        refine ⟨?_, ?_⟩
        · refine ((h.tree.modify (fun _ ↦ ?_) id).modify (fun l ↦ ?_) owner).modify (fun _ ↦ ?_) id
          · rfl
          · rw [Node.renumber, Node.renumber, List.map_append]
            rfl
          · rw [h.placed, List.length_map]
            rfl
        · rw [h.placed, List.map_append]
          rfl

theorem Placing.Spaced.placeMembers {p p' : Placing} (h : p.Spaced n k p') (owner : NodeId)
    (ids : List NodeId) : (ids.foldl (Classify.placeMember owner) p).Spaced n k
      ((ids.map (skip n k)).foldl (Classify.placeMember (skip n k owner)) p') := by
  induction ids generalizing p p' with
  | nil => exact h
  | cons id r ih => exact ih (h.placeMember owner id)

end Classify

namespace Spaced

open Classify

variable {n k : Nat} {t t' : NodeTree} (h : Spaced n k t t')

include h

theorem geometricOrder (container : Container) (members : List NodeId) :
    geometricOrder t' container (members.map (skip n k)) =
      (geometricOrder t container members).map (skip n k) := by
  unfold Classify.geometricOrder
  dsimp only
  rw [stableSort_map]
  refine congrArg (List.map (skip n k)) (congrArg (stableSort · members)
    (funext fun a ↦ funext fun b ↦ ?_))
  rw [h.get?, h.get?]
  cases t.get? a <;> cases t.get? b <;> rfl

theorem reordering? (a : Arrangement) (members : List NodeId) :
    reordering? t' a (members.map (skip n k)) =
      (reordering? t a members).map (List.map (skip n k)) := by
  have hinj : Function.Injective (skip n k) := fun _ _ ↦ skip_inj.1
  have hsame : decide ((Classify.geometricOrder t a.container members).map (skip n k) ≠
      members.map (skip n k)) = decide (Classify.geometricOrder t a.container members ≠ members) :=
    decide_eq_decide.2 (List.map_injective_iff.2 hinj).ne_iff
  unfold Classify.reordering?
  dsimp only
  rw [h.geometricOrder, hsame]
  split <;> rfl

theorem contentOf (owner : NodeId) (synthetic : Bool) :
    contentOf t' (skip n k owner) synthetic = contentOf t owner synthetic := by
  unfold Classify.contentOf
  rw [h.get?]
  cases t.get? owner <;> rfl

/-- **The marks of a container** and of its members. -/
theorem mark (c : LayoutConfig) (owner : NodeId) (content : Rect) (a : Arrangement) (flags : Flags)
    (members : List NodeId) (hbaseline : ∀ id, a.baseline = some id → id < n) :
    Spaced n k (mark c owner content a flags members t)
      (Classify.mark c (skip n k owner) content a flags (members.map (skip n k)) t') := by
  have hmembers : ∀ {t t' : NodeTree}, Spaced n k t t' →
      Spaced n k (members.foldl (fun t id ↦ t.modify id fun n ↦
        n.addFlags (memberFlags c a.container content n)) t)
        ((members.map (skip n k)).foldl (fun t id ↦ t.modify id fun n ↦
          n.addFlags (memberFlags c a.container content n)) t') := by
    clear h
    induction members with
    | nil => exact fun h ↦ h
    | cons id r ih => exact fun h ↦ ih (h.modify (fun _ ↦ rfl) id)
  have hmarked := hmembers h
  unfold Classify.mark
  dsimp only
  refine Spaced.modify ?_ (fun _ ↦ rfl) owner
  cases hid : a.baseline with
  | none => exact hmarked
  | some id => exact hmarked.modify_of_lt (fun _ ↦ rfl) (hbaseline id hid)

end Spaced

namespace Classify

variable {n k : Nat}

/-- **The members of a container get the same places.** -/
theorem spaced_settle (c : LayoutConfig) (owner : NodeId) (synthetic : Bool) {a : Arrangement}
    (hbaseline : ∀ id, a.baseline = some id → id < n) (members : List NodeId) {s s' : State}
    (h : Spaced n k s.tree s'.tree) :
    Spaced n k (settle c owner synthetic a members s).tree
      (settle c (skip n k owner) synthetic a (members.map (skip n k)) s').tree := by
  have hinj : Function.Injective (skip n k) := fun _ _ ↦ skip_inj.1
  have hout : ((reordering? s.tree a members).map (List.map (skip n k))).getD
      (members.map (skip n k)) = ((reordering? s.tree a members).getD members).map (skip n k) := by
    cases reordering? s.tree a members <;> rfl
  have hplaced := Placing.Spaced.placeMembers
    (⟨h, rfl⟩ : Placing.Spaced n k ⟨s.tree, [], []⟩ ⟨s'.tree, [], []⟩) owner
    ((reordering? s.tree a members).getD members)
  have hmembers : ∀ placed : List NodeId,
      (members.map (skip n k)).filter (placed.map (skip n k)).contains =
        (members.filter placed.contains).map (skip n k) := fun placed ↦ by
    rw [List.filter_map]
    refine congrArg (List.map (skip n k)) (List.filter_congr fun i _ ↦ ?_)
    simp [List.mem_map_of_injective hinj]
  unfold settle
  dsimp only
  rw [h.reordering?, hout, hplaced.placed, hmembers, h.contentOf, Option.isSome_map]
  exact hplaced.tree.mark c owner _ a _ _ hbaseline

end Classify

namespace Spaced

variable {n k : Nat} {t t' : NodeTree} (h : Spaced n k t t')

include h

theorem lookup {ids : List NodeId} (hids : ∀ i ∈ ids, i < n) :
    t'.lookup ids = (t.lookup ids).map (Node.renumber (skip n k)) := by
  rw [NodeTree.lookup, NodeTree.lookup, List.map_filterMap]
  exact List.filterMap_congr fun i hi ↦ h.get?_of_lt (hids i hi)

end Spaced

namespace Classify

variable {n k : Nat} (c : LayoutConfig) {parent : NodeId}

mutual

/-- **A plan of common nodes** is carried out in the same way. -/
theorem spaced_realize (hparent : parent < n) : ∀ (p : Plan) (s s' : State), p.Level →
    (∀ i ∈ p.leaves, i < n) → Spaced n k s.tree s'.tree →
    ∃ id s₁ s₁', realize c parent s p = .ok (id, s₁) ∧
      realize c parent s' p = .ok (skip n k id, s₁') ∧ Spaced n k s₁.tree s₁'.tree
  | .member id, s, s' => by
    intro _ hleaves h
    refine ⟨id, s, s', by rw [realize], ?_, h⟩
    rw [realize, skip_of_lt k (hleaves id (by simp [Plan.leaves]))]
  | .group a members, s, s' => by
    intro hlevel hleaves h
    rw [Plan.leaves] at hleaves
    have hboxes : (s'.tree.lookup (leavesOfAll members)).map Node.bounds =
        (s.tree.lookup (leavesOfAll members)).map Node.bounds := by
      rw [h.lookup hleaves, List.map_map]
      rfl
    obtain ⟨t₁, t₁', halloc, halloc', hgroup⟩ := h.allocGroup hparent
      ((Rect.unionAll? ((s.tree.lookup (leavesOfAll members)).map Node.bounds)).getD .zero)
    obtain ⟨ids, s₁, s₁', hall, hall', hmade⟩ := spaced_realizeAll hparent members ⟨t₁, s.outcome⟩
      ⟨t₁', s'.outcome⟩ hlevel.2 hleaves hgroup
    refine ⟨s.tree.size, _, _, ?_, ?_, spaced_settle c s.tree.size true
      (fun id hid ↦ hleaves id (hlevel.1.baseline id hid)) ids hmade⟩
    · exact realize_group c halloc hall
    · rw [← hboxes] at halloc'
      exact realize_group c halloc' hall'

theorem spaced_realizeAll (hparent : parent < n) : ∀ (ps : List Plan) (s s' : State),
    LevelAll ps → (∀ i ∈ leavesOfAll ps, i < n) → Spaced n k s.tree s'.tree →
    ∃ ids s₁ s₁', realizeAll c parent s ps = .ok (ids, s₁) ∧
      realizeAll c parent s' ps = .ok (ids.map (skip n k), s₁') ∧ Spaced n k s₁.tree s₁'.tree
  | [], s, s' => by
    intro _ _ h
    exact ⟨[], s, s', by rw [realizeAll], by rw [realizeAll]; rfl, h⟩
  | p :: r, s, s' => by
    intro hlevel hleaves h
    rw [leavesOfAll] at hleaves
    obtain ⟨id, s₁, s₁', hfirst, hfirst', hmade⟩ := spaced_realize hparent p s s' hlevel.1
      (fun i hi ↦ hleaves i (List.mem_append_left _ hi)) h
    obtain ⟨ids, s₂, s₂', hrest, hrest', hmade'⟩ := spaced_realizeAll hparent r s₁ s₁' hlevel.2
      (fun i hi ↦ hleaves i (List.mem_append_right _ hi)) hmade
    exact ⟨id :: ids, s₂, s₂', realizeAll_cons c hfirst hrest, realizeAll_cons c hfirst' hrest',
      hmade'⟩

end

variable {t t' : NodeTree}

section

variable (hparent : parent < n) (h : Spaced n k t t') (hrun : ∀ i ∈ t.layoutRun parent, i < n)

include hparent h hrun

/-- The members that have no place are the same. -/
theorem spaced_pending : t'.pending parent = t.pending parent := by
  obtain ⟨p, hp⟩ := exists_get? (Nat.lt_of_lt_of_le hparent h.size_le)
  have hp' := h.get?_of_lt hparent
  rw [hp, Option.map_some] at hp'
  have hsame : t'.pendingRun parent = t.pendingRun parent := by
    rw [pendingRun, pendingRun, hp, hp']
    refine congrArg Except.ok (List.filter_congr fun i hi ↦ ?_)
    rw [h.get?_of_lt (hrun i (layoutRun_of_get? hp ▸ hi))]
    cases t.get? i <;> rfl
  rw [pendingRun_eq (lt_size_of_get? hp), pendingRun_eq (lt_size_of_get? hp')] at hsame
  exact Except.ok.inj hsame

theorem lookup_spaced_pending : t'.lookup (t'.pending parent) =
    (t.lookup (t.pending parent)).map (Node.renumber (skip n k)) := by
  rw [spaced_pending hparent h hrun]
  exact h.lookup fun i hi ↦ hrun i (List.mem_filter.1 hi).1

/-- **Both runs have one plan**, since it is made without the places of the nodes. -/
theorem ofPending_spaced {p : Node} (hp : t.get? parent = some p) :
    Plan.ofPending c (p.renumber (skip n k)) (t'.lookup (t'.pending parent)) =
      Plan.ofPending c p (t.lookup (t.pending parent)) := by
  have hid : ∀ {m : Node}, m.id < n → (m.renumber (skip n k)).unplaced = m.unplaced := by
    intro m hm
    rw [Node.renumber, Node.unplaced, skip_of_lt k hm]
    rfl
  refine Plan.ofPending_congr c (hid (id_of_get? hp ▸ hparent)) ?_
  rw [lookup_spaced_pending hparent h hrun, List.map_map]
  exact List.map_congr_left fun m hm ↦
    hid (hrun m.id (List.mem_filter.1 (mem_lookup.1 hm).1).1)

end

/-- The marks of positioned members. -/
theorem spaced_markOverlays (h : Spaced n k t t') (p : Node) (run : List Node) :
    Spaced n k (markOverlays c t p run)
      (markOverlays c t' (p.renumber (skip n k)) (run.map (Node.renumber (skip n k)))) := by
  have hpositioned : Plan.positioned c p.contentBox (run.map (Node.renumber (skip n k))) =
      (Plan.positioned c p.contentBox run).map (Node.renumber (skip n k)) := by
    rw [Plan.positioned, Plan.positioned, List.filter_map, stableSort_map]
    rfl
  rw [markOverlays, markOverlays, show (p.renumber (skip n k)).contentBox = p.contentBox from rfl,
    hpositioned]
  generalize Plan.positioned c p.contentBox run = l
  induction l generalizing t t' with
  | nil => exact h
  | cons m r ih => exact ih (h.modify (fun _ ↦ by rfl) m.id)

/-- **The run of a common node** comes to the same. -/
theorem spaced_run (hparent : parent < n) (h : Spaced n k t t')
    (hrun : ∀ i ∈ t.layoutRun parent, i < n) :
    ∃ o t₁ o' t₁', run c t parent = .ok (o, t₁) ∧ run c t' parent = .ok (o', t₁') ∧
      Spaced n k t₁ t₁' := by
  obtain ⟨p, hp⟩ := exists_get? (Nat.lt_of_lt_of_le hparent h.size_le)
  have hp' := h.get?_of_lt hparent
  rw [hp, Option.map_some] at hp'
  have hpending := spaced_pending hparent h hrun
  by_cases hnil : t.pending parent = []
  · exact ⟨_, t, _, t', run_of_pending_eq_nil c (lt_size_of_get? hp) hnil,
      run_of_pending_eq_nil c (lt_size_of_get? hp') (hpending.trans hnil), h⟩
  have hplan := ofPending_spaced c hparent h hrun hp
  have hmarked := spaced_markOverlays c h p (t.lookup (t.pending parent))
  rw [← lookup_spaced_pending hparent h hrun] at hmarked
  have hlevel := Plan.level_ofPending c p (t.lookup (t.pending parent))
  have hleaves : ∀ i ∈ leavesOfAll (Plan.ofPending c p (t.lookup (t.pending parent))).members,
      i < n := fun i hi ↦ hrun i (List.mem_filter.1 ((mem_leaves_ofPending p).1 hi)).1
  obtain ⟨ids, s, s', hall, hall', hmade⟩ := spaced_realizeAll c hparent
    (Plan.ofPending c p (t.lookup (t.pending parent))).members
    ⟨markOverlays c t p (t.lookup (t.pending parent)), .empty⟩
    ⟨markOverlays c t' (p.renumber (skip n k)) (t'.lookup (t'.pending parent)), .empty⟩
    hlevel.members hleaves hmarked
  have hok := run_of_realizeAll hp hnil hall rfl
  rw [← hplan] at hall'
  have hok' := run_of_realizeAll hp' (hpending ▸ hnil) hall' rfl
  refine ⟨_, _, _, _, hok, hok', ?_⟩
  rw [hplan]
  have hsettled := spaced_settle c parent false
    (fun id hid ↦ hleaves id (hlevel.arrangement.baseline id hid)) ids hmade
  rwa [skip_of_lt k hparent] at hsettled

/-- **The runs of common nodes** come to the same. -/
theorem spaced_runs (h : Spaced n k t t') {xs : List NodeId}
    (hxs : ∀ x ∈ xs, x < n ∧ ∀ i ∈ t.layoutRun x, i < n) :
    ∃ o t₁ o' t₁', runs c t xs = .ok (o, t₁) ∧ runs c t' xs = .ok (o', t₁') ∧
      Spaced n k t₁ t₁' := by
  induction xs generalizing t t' with
  | nil => exact ⟨.empty, t, .empty, t', rfl, rfl, h⟩
  | cons x r ih =>
    obtain ⟨hx, hrun⟩ := hxs x List.mem_cons_self
    obtain ⟨o, t₁, o', t₁', hok, hok', hone⟩ := spaced_run c hx h hrun
    have hsame := (confined_run (P := fun _ ↦ True) trivial (fun _ _ ↦ trivial) hok).layoutRun_eq
    obtain ⟨os, t₂, os', t₂', hrest, hrest', hall⟩ := ih hone fun y hy ↦ by
      rw [hsame]
      exact hxs y (List.mem_cons_of_mem _ hy)
    exact ⟨o.append os, t₂, o'.append os', t₂', runs_cons hok hrest, runs_cons hok' hrest', hall⟩

end Classify

end ViewCompiler
