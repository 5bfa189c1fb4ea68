import ViewCompiler.Proofs.Layout.Footprint
import ViewCompiler.Proofs.Layout.Linked

/-!
# What the decisions of a run record

A plan that is carried out is written down in decisions: a member is a node of the run itself, and a
group is a new node with a decision on it, whose members are in turn what the members of the group
have become (`Plan.IsAt`). A node that has a place elsewhere cannot be given another one. It is left
out of the members and reported as skipped, so that a decision says which of the nodes it was made
for are in it (`LayoutDecision.Arranges`), and all of them if nothing is skipped.

`Classify.isAt_realize` says so of every plan, in any tree whatever: a group is never left out,
since nothing can have placed it before.
-/

namespace ViewCompiler

open NodeTree

namespace ClassifyOutcome

/-- Whether a member could not be given a place. -/
def LeavesOut (o : ClassifyOutcome) (i : NodeId) : Prop := ∃ e, (i, e) ∈ o.skipped

/-- An outcome that contains all of another one. -/
structure Extends (o o' : ClassifyOutcome) : Prop where
  decisions : o.decisions ⊆ o'.decisions
  skipped : o.skipped ⊆ o'.skipped

theorem extends_append_left (o o' : ClassifyOutcome) : o.Extends (o.append o') :=
  ⟨List.subset_append_left _ _, List.subset_append_left _ _⟩

theorem extends_append_right (o o' : ClassifyOutcome) : o'.Extends (o.append o') :=
  ⟨List.subset_append_right _ _, List.subset_append_right _ _⟩

theorem LeavesOut.mono {o o' : ClassifyOutcome} (h : o.Extends o') {i : NodeId}
    (hi : o.LeavesOut i) : o'.LeavesOut i :=
  hi.imp fun _ he ↦ h.skipped he

/-- A node among the members of a group, or in a group among them, and so on. -/
inductive Inside (o : ClassifyOutcome) : NodeId → NodeId → Prop
  | member {d : LayoutDecision} {i : NodeId} (decided : d ∈ o.decisions)
      (synthetic : d.synthetic = true) (mem : i ∈ d.members) : Inside o d.owner i
  | deeper {d : LayoutDecision} {g i : NodeId} (decided : d ∈ o.decisions)
      (synthetic : d.synthetic = true) (mem : g ∈ d.members) (inside : Inside o g i) :
      Inside o d.owner i

end ClassifyOutcome

/-- **What a decision says of an arrangement of nodes**, in a tree that had some number of them
before: those that are left out are reported, and none of them is new. -/
structure LayoutDecision.Arranges (d : LayoutDecision) (size : Nat) (o : ClassifyOutcome)
    (a : Arrangement) (ids : List NodeId) : Prop where
  container : d.container = a.container
  grid : d.grid = a.grid
  baseline : d.baseline = a.baseline
  flags : d.flags = if d.reorder.isSome then a.flags else a.flags.erase .reversed
  members : d.members = ids.filter d.members.contains
  kept : ∀ i ∈ ids, i ∈ d.members ∨ i < size ∧ o.LeavesOut i

namespace LayoutDecision.Arranges

variable {d : LayoutDecision} {size : Nat} {o o' : ClassifyOutcome} {a : Arrangement}
  {ids : List NodeId}

theorem mono (h : d.Arranges size o a ids) (hext : o.Extends o') : d.Arranges size o' a ids :=
  { h with kept := fun i hi ↦ (h.kept i hi).imp_right fun hout ↦ ⟨hout.1, hout.2.mono hext⟩ }

/-- Where nothing is skipped nothing is left out. -/
theorem members_eq (h : d.Arranges size o a ids) (hnone : o.skipped = []) : d.members = ids := by
  rw [h.members, List.filter_eq_self]
  intro i hi
  refine List.contains_iff_mem.2 ((h.kept i hi).resolve_right fun ⟨_, e, he⟩ ↦ ?_)
  rw [hnone] at he
  exact absurd he List.not_mem_nil

end LayoutDecision.Arranges

/-! ### Plans -/

section IsAt

variable (size : Nat) (o : ClassifyOutcome)

mutual

/-- **Where a plan is in an outcome**: a group is a new node with a decision on it. -/
def Plan.IsAt : Plan → NodeId → Prop
  | .member i, id => id = i
  | .group a members, id => size ≤ id ∧ ∃ d ∈ o.decisions, d.owner = id ∧ d.synthetic = true ∧
      ∃ ids, AllAt members ids ∧ d.Arranges size o a ids

/-- Where the members of a group are. -/
def AllAt : List Plan → List NodeId → Prop
  | [], ids => ids = []
  | p :: r, ids => ∃ id rest, ids = id :: rest ∧ p.IsAt id ∧ AllAt r rest

end

end IsAt

section Mono

variable {size : Nat} {o o' : ClassifyOutcome}

mutual

/-- A plan stays where it is when more is decided. -/
theorem Plan.IsAt.mono (hext : o.Extends o') :
    ∀ {p : Plan} {id : NodeId}, p.IsAt size o id → p.IsAt size o' id
  | .member _, _, h => h
  | .group _ _, _, ⟨hnew, d, hd, howner, hsynthetic, ids, hids, harranges⟩ =>
    ⟨hnew, d, hext.decisions hd, howner, hsynthetic, ids, AllAt.mono hext hids,
      harranges.mono hext⟩

theorem AllAt.mono (hext : o.Extends o') :
    ∀ {ps : List Plan} {ids : List NodeId}, AllAt size o ps ids → AllAt size o' ps ids
  | [], _, h => h
  | _ :: _, _, ⟨id, rest, heq, hid, hrest⟩ =>
    ⟨id, rest, heq, Plan.IsAt.mono hext hid, AllAt.mono hext hrest⟩

end

end Mono

theorem allAt_append {size : Nat} {o : ClassifyOutcome} {ps qs : List Plan} {ids : List NodeId} :
    AllAt size o (ps ++ qs) ids ↔
      ∃ first rest, ids = first ++ rest ∧ AllAt size o ps first ∧ AllAt size o qs rest := by
  induction ps generalizing ids with
  | nil =>
    refine ⟨fun h ↦ ⟨[], ids, rfl, rfl, h⟩, fun ⟨first, rest, heq, hfirst, hrest⟩ ↦ ?_⟩
    obtain rfl : first = [] := hfirst
    exact heq ▸ hrest
  | cons p r ih =>
    constructor
    · rintro ⟨id, rest, rfl, hid, hrest⟩
      obtain ⟨first, last, rfl, hfirst, hlast⟩ := ih.1 hrest
      exact ⟨id :: first, last, rfl, ⟨id, first, rfl, hid, hfirst⟩, hlast⟩
    · rintro ⟨first, last, rfl, ⟨id, rest, rfl, hid, hrest⟩, hlast⟩
      exact ⟨id, rest ++ last, rfl, hid, ih.2 ⟨rest, last, rfl, hrest, hlast⟩⟩

/-- The nodes of the run that are in a group of a plan. -/
def Plan.inner : Plan → List NodeId
  | .member _ => []
  | .group _ members => leavesOfAll members

theorem Plan.inner_subset_leaves (p : Plan) : p.inner ⊆ p.leaves := by
  cases p with
  | member id => exact List.nil_subset _
  | group a members => exact List.Subset.refl _

theorem flatMap_inner_subset (ps : List Plan) : ps.flatMap Plan.inner ⊆ leavesOfAll ps := by
  intro i hi
  obtain ⟨p, hp, hmem⟩ := List.mem_flatMap.1 hi
  rw [leavesOfAll_eq]
  exact List.mem_flatMap.2 ⟨p, hp, p.inner_subset_leaves hmem⟩

/-- Nodes of the run are where they are. -/
theorem allAt_map_member {size : Nat} {o : ClassifyOutcome} {run : List Node}
    {ids : List NodeId} :
    AllAt size o (run.map fun n ↦ .member n.id) ids ↔ ids = run.map Node.id := by
  induction run generalizing ids with
  | nil => rfl
  | cons n r ih =>
    constructor
    · rintro ⟨id, rest, rfl, hid, hrest⟩
      obtain rfl : id = n.id := hid
      rw [ih.1 hrest, List.map_cons]
    · rintro rfl
      exact ⟨n.id, r.map Node.id, rfl, rfl, ih.2 rfl⟩

/-! ### Leaves -/

section Leaves

variable {size : Nat} {o : ClassifyOutcome}

mutual

/-- **The leaves of a plan** are inside its group, or left out. -/
theorem Plan.IsAt.inside : ∀ {p : Plan} {id : NodeId}, p.IsAt size o id → ∀ i ∈ p.leaves,
    id = i ∨ size ≤ id ∧ o.Inside id i ∨ i < size ∧ o.LeavesOut i
  | .member j, _, h, i, hi => by
    rw [Plan.leaves, List.mem_singleton] at hi
    exact .inl (h.trans hi.symm)
  | .group a members, _, ⟨hnew, d, hd, howner, hsynthetic, ids, hids, harranges⟩, i, hi => by
    rw [Plan.leaves] at hi
    subst howner
    obtain ⟨k, hk, hleaf⟩ := AllAt.inside hids i hi
    rcases hleaf with rfl | ⟨hsize, hinside⟩ | hout
    · rcases harranges.kept k hk with hmem | hout
      · exact .inr (.inl ⟨hnew, .member hd hsynthetic hmem⟩)
      · exact .inr (.inr hout)
    · have hmem := (harranges.kept k hk).resolve_right fun hout ↦ Nat.not_lt.2 hsize hout.1
      exact .inr (.inl ⟨hnew, .deeper hd hsynthetic hmem hinside⟩)
    · exact .inr (.inr hout)

theorem AllAt.inside : ∀ {ps : List Plan} {ids : List NodeId}, AllAt size o ps ids →
    ∀ i ∈ leavesOfAll ps, ∃ id ∈ ids,
      id = i ∨ size ≤ id ∧ o.Inside id i ∨ i < size ∧ o.LeavesOut i
  | [], _, _, i, hi => absurd hi List.not_mem_nil
  | p :: r, _, ⟨id, rest, heq, hid, hrest⟩, i, hi => by
    subst heq
    rw [leavesOfAll] at hi
    rcases List.mem_append.1 hi with hi | hi
    · exact ⟨id, List.mem_cons_self, Plan.IsAt.inside hid i hi⟩
    · obtain ⟨k, hk, hleaf⟩ := AllAt.inside hrest i hi
      exact ⟨k, List.mem_cons_of_mem _ hk, hleaf⟩

end

end Leaves

namespace Classify

/-! ### One container -/

section Placing

variable {owner : NodeId}

/-- A node that can be given a place in the output. -/
def IsOpen (t : NodeTree) (i : NodeId) : Prop := i < t.size ∧ t.renderParent? i = none

theorem steps_placeMember_self (owner : NodeId) (p : Placing) (j : NodeId) :
    Steps 0 (fun k ↦ k = j) (fun o ↦ o = owner) p.tree (placeMember owner p j).tree :=
  steps_placeMember (by rfl) (by rfl) p

theorem isOpen_placeMember {p : Placing} {i j : NodeId} (hne : i ≠ j) (hi : IsOpen p.tree i) :
    IsOpen (placeMember owner p j).tree i := by
  have hsteps := steps_placeMember_self owner p j
  exact ⟨Nat.lt_of_lt_of_le hi.1 hsteps.size_le, (hsteps.renderParent? hne).trans hi.2⟩

/-- **Every node is placed or skipped**, and one that can be given a place is placed. -/
theorem mem_placed (out : List NodeId) (p : Placing) (howner : owner < p.tree.size) :
    p.placed ⊆ (out.foldl (placeMember owner) p).placed ∧
      p.skipped ⊆ (out.foldl (placeMember owner) p).skipped ∧
      ∀ i ∈ out, i ∈ (out.foldl (placeMember owner) p).placed ∨
        ¬IsOpen p.tree i ∧ ∃ e, (i, e) ∈ (out.foldl (placeMember owner) p).skipped := by
  induction out generalizing p with
  | nil => exact ⟨List.Subset.refl _, List.Subset.refl _, fun i hi ↦ absurd hi List.not_mem_nil⟩
  | cons j r ih =>
    have hsteps := steps_placeMember_self owner p j
    obtain ⟨hplaced, hskipped, hrest⟩ :=
      ih (placeMember owner p j) (Nat.lt_of_lt_of_le howner hsteps.size_le)
    rw [List.foldl_cons]
    cases hset : p.tree.setRenderParent j owner with
    | ok t =>
      have hstep : (placeMember owner p j).placed = p.placed ++ [j] ∧
          (placeMember owner p j).skipped = p.skipped := by
        simp only [placeMember, hset, and_self]
      rw [hstep.1] at hplaced
      rw [hstep.2] at hskipped
      have hj : j ∈ (r.foldl (placeMember owner) (placeMember owner p j)).placed :=
        hplaced (List.mem_append_right _ (List.mem_singleton_self j))
      refine ⟨fun i hi ↦ hplaced (List.mem_append_left _ hi), hskipped, fun i hi ↦ ?_⟩
      by_cases hij : i = j
      · exact .inl (hij ▸ hj)
      · refine (hrest i ((List.mem_cons.1 hi).resolve_left hij)).imp_right fun hout ↦ ?_
        exact ⟨fun hopen ↦ hout.1 (isOpen_placeMember hij hopen), hout.2⟩
    | error e =>
      have hstep : placeMember owner p j = { p with skipped := p.skipped ++ [(j, e)] } := by
        simp only [placeMember, hset]
      have hclosed : ¬IsOpen p.tree j := fun hopen ↦ by
        obtain ⟨t, hok, -⟩ := exists_setRenderParent hopen.1 howner hopen.2
        exact absurd (hset.symm.trans hok) (by simp)
      rw [hstep] at hplaced hskipped hrest ⊢
      refine ⟨hplaced, fun x hx ↦ hskipped (List.mem_append_left _ hx), fun i hi ↦ ?_⟩
      by_cases hij : i = j
      · subst hij
        exact .inr ⟨hclosed, e, hskipped (List.mem_append_right _ (List.mem_singleton_self _))⟩
      · exact hrest i ((List.mem_cons.1 hi).resolve_left hij)

end Placing

variable (c : LayoutConfig) {parent : NodeId} {size : Nat}

/-- **Settling a container** arranges its nodes, of which those that are new can be placed. -/
theorem exists_arranges {owner : NodeId} (synthetic : Bool) (a : Arrangement) {ids : List NodeId}
    {s : State} (howner : owner < s.tree.size) (hids : ∀ i ∈ ids, i < size ∨ IsOpen s.tree i) :
    ∃ d skipped, (settle c owner synthetic a ids s).outcome = s.outcome.append ⟨[d], skipped⟩ ∧
      d.owner = owner ∧ d.synthetic = synthetic ∧ d.Arranges size ⟨[d], skipped⟩ a ids := by
  have hperm := perm_reordering? s.tree a ids
  obtain ⟨-, -, hplaced⟩ := mem_placed ((reordering? s.tree a ids).getD ids) ⟨s.tree, [], []⟩ howner
  refine ⟨_, _, rfl, rfl, rfl, rfl, rfl, rfl, ?_, ?_, fun i hi ↦ ?_⟩
  · dsimp only
    rw [Option.isSome_map]
  · dsimp only
    refine List.filter_congr fun i hi ↦ ?_
    rw [Bool.eq_iff_iff, List.contains_iff_mem, List.contains_iff_mem, List.mem_filter,
      List.contains_iff_mem]
    exact ⟨fun hmem ↦ ⟨hi, hmem⟩, And.right⟩
  · rcases hplaced i (hperm.mem_iff.2 hi) with hmem | ⟨hclosed, hout⟩
    · exact .inl (List.mem_filter.2 ⟨hi, List.contains_iff_mem.2 hmem⟩)
    · exact .inr ⟨(hids i hi).resolve_right hclosed, hout⟩

/-! ### Plans carried out -/

/-- What carrying plans out adds to an outcome: decisions on groups, and of old nodes only those
that are in the groups of the plans. -/
structure Notes (size : Nat) (inner : List NodeId) (o : ClassifyOutcome) : Prop where
  synthetic : ∀ d ∈ o.decisions, d.synthetic = true
  members : ∀ d ∈ o.decisions, ∀ i ∈ d.members, i ∈ inner ∨ size ≤ i

theorem Notes.nil (size : Nat) : Notes size [] .empty :=
  ⟨fun _ hd ↦ absurd hd List.not_mem_nil, fun _ hd ↦ absurd hd List.not_mem_nil⟩

theorem Notes.append {inner inner' : List NodeId} {o o' : ClassifyOutcome}
    (h : Notes size inner o) (h' : Notes size inner' o') :
    Notes size (inner ++ inner') (o.append o') where
  synthetic d hd := (List.mem_append.1 hd).elim (h.synthetic d) (h'.synthetic d)
  members d hd i hi := by
    rcases List.mem_append.1 hd with hd | hd
    · exact (h.members d hd i hi).imp_left (List.mem_append_left _)
    · exact (h'.members d hd i hi).imp_left (List.mem_append_right _)

theorem Notes.mono {inner inner' : List NodeId} {o : ClassifyOutcome} (h : Notes size inner o)
    (hsub : inner ⊆ inner') : Notes size inner' o :=
  { h with members := fun d hd i hi ↦ (h.members d hd i hi).imp_left fun hmem ↦ hsub hmem }

variable {c} {content : Rect} {nodes : List Node}

theorem isOpen_allocGroup {t t' : NodeTree} {id : NodeId} {bounds : Rect}
    (h : t.allocGroup parent bounds = .ok (id, t')) : IsOpen t' id := by
  obtain ⟨rfl, hsize⟩ := size_allocGroup h
  have hstep : Steps parent (fun _ ↦ False) (fun _ ↦ False) t t' := .single (.alloc h)
  refine ⟨hsize ▸ Nat.lt_succ_self _, (hstep.renderParent? id).trans ?_⟩
  rw [NodeTree.renderParent?, place_eq_blank (Nat.le_refl _)]
  rfl

/-- A node that is neither a leaf nor new can still be given a place. -/
theorem isOpen_realizeAll {ps : List Plan} {s s' : State} {ids : List NodeId} {i : NodeId}
    (hps : ShapedAll c content nodes ps) (hok : realizeAll c parent s ps = .ok (ids, s'))
    (hi : IsOpen s.tree i) (hleaf : i ∉ leavesOfAll ps) : IsOpen s'.tree i := by
  have hsteps : Steps parent (fun i ↦ i ∈ leavesOfAll ps ∨ s.tree.size ≤ i)
      (fun i ↦ s.tree.size ≤ i) s.tree s'.tree :=
    And.left (steps_realizeAll (fun _ ↦ .inr) (fun _ hi ↦ hi) ps s hps (fun _ ↦ .inl)
      (Nat.le_refl _) hok)
  refine ⟨Nat.lt_of_lt_of_le hi.1 hsteps.size_le, (hsteps.renderParent? ?_).trans hi.2⟩
  exact fun hmem ↦ hmem.elim hleaf (Nat.not_le.2 hi.1)

mutual

/-- **Carrying a plan out** puts it into the outcome. -/
theorem isAt_realize : ∀ (p : Plan) (s : State), p.Shaped c content nodes → size ≤ s.tree.size →
    (∀ i ∈ p.leaves, i < size) →
    ∀ {id : NodeId} {s' : State}, realize c parent s p = .ok (id, s') →
      ∃ o, s'.outcome = s.outcome.append o ∧ Notes size p.inner o ∧ p.IsAt size o id ∧
        (id ∈ p.leaves ∨ s.tree.size ≤ id ∧ IsOpen s'.tree id)
  | .member id, s => by
    intro _ _ _ id' s' hok
    obtain ⟨rfl, rfl⟩ := realize_member_cases hok
    exact ⟨.empty, (ClassifyOutcome.append_empty _).symm, .nil size, rfl,
      .inl (List.mem_singleton_self _)⟩
  | .group a members, s => by
    intro hshaped hsize hleaves id s' hok
    rw [Plan.leaves] at hleaves
    obtain ⟨t₁, ids, s₁, halloc, hall, rfl⟩ := realize_group_cases hok
    obtain ⟨hid, hsize₁⟩ := size_allocGroup halloc
    obtain ⟨o, houtcome, hnotes, hat, hids⟩ := isAt_realizeAll members ⟨t₁, s.outcome⟩ hshaped.2
      (hsize₁ ▸ Nat.le_succ_of_le hsize) hleaves hall
    have hnew : id ∉ leavesOfAll members := fun hmem ↦
      Nat.not_lt.2 (hid ▸ hsize) (hleaves id hmem)
    have hopen : IsOpen s₁.tree id :=
      isOpen_realizeAll (s := ⟨t₁, s.outcome⟩) hshaped.2 hall (isOpen_allocGroup halloc) hnew
    have hids' : ∀ i ∈ ids, i < size ∨ IsOpen s₁.tree i := fun i hi ↦
      (hids i hi).imp (hleaves i) And.right
    obtain ⟨d, skipped, hsettle, howner, hsynthetic, harranges⟩ :=
      exists_arranges c true a hopen.1 hids'
    have hext := ClassifyOutcome.extends_append_left o ⟨[d], skipped⟩
    have hext' := ClassifyOutcome.extends_append_right o ⟨[d], skipped⟩
    have hd : Notes size (leavesOfAll members) ⟨[d], skipped⟩ := by
      refine ⟨fun e he ↦ List.mem_singleton.1 he ▸ hsynthetic, fun e he i hi ↦ ?_⟩
      rw [List.mem_singleton.1 he, harranges.members] at hi
      exact (hids i (List.mem_filter.1 hi).1).imp_right fun h ↦
        Nat.le_trans (hsize₁ ▸ Nat.le_succ_of_le hsize) h.1
    refine ⟨o.append ⟨[d], skipped⟩, ?_, ?_, ⟨hid ▸ hsize, d,
      hext'.decisions (List.mem_singleton_self d), howner, hsynthetic, ids, AllAt.mono hext hat,
      harranges.mono hext'⟩, .inr ⟨Nat.le_of_eq hid.symm, ?_⟩⟩
    · rw [hsettle, houtcome, ClassifyOutcome.append_assoc]
    · exact ((hnotes.mono (flatMap_inner_subset members)).append hd).mono
        (List.append_subset.2 ⟨List.Subset.refl _, List.Subset.refl _⟩)
    · -- a group is not a member of itself
      have hself : id ∉ ids := fun hmem ↦ by
        rcases hids id hmem with hleaf | ⟨hlater, -⟩
        · exact hnew hleaf
        · exact Nat.not_succ_le_self _ (hid ▸ hsize₁ ▸ hlater)
      have hsteps : Steps parent (fun i ↦ i ∈ ids ∨ i ∈ leavesOfAll members) (fun o ↦ o = id)
          s₁.tree (settle c id true a ids s₁).tree :=
        steps_settle (by rfl) true hshaped.1.contains_overlay
          (fun i hi ↦ .inr (hshaped.1.level.baseline i hi)) (fun i hi ↦ .inl hi) s₁
      refine ⟨Nat.lt_of_lt_of_le hopen.1 hsteps.size_le, (hsteps.renderParent? ?_).trans hopen.2⟩
      exact fun hmem ↦ hmem.elim hself hnew

theorem isAt_realizeAll : ∀ (ps : List Plan) (s : State), ShapedAll c content nodes ps →
    size ≤ s.tree.size → (∀ i ∈ leavesOfAll ps, i < size) →
    ∀ {ids : List NodeId} {s' : State}, realizeAll c parent s ps = .ok (ids, s') →
      ∃ o, s'.outcome = s.outcome.append o ∧ Notes size (ps.flatMap Plan.inner) o ∧
        AllAt size o ps ids ∧
        ∀ i ∈ ids, i ∈ leavesOfAll ps ∨ s.tree.size ≤ i ∧ IsOpen s'.tree i
  | [], s => by
    intro _ _ _ ids s' hok
    obtain ⟨rfl, rfl⟩ := realizeAll_nil_cases hok
    exact ⟨.empty, (ClassifyOutcome.append_empty _).symm, .nil size, rfl,
      fun i hi ↦ absurd hi List.not_mem_nil⟩
  | p :: r, s => by
    intro hshaped hsize hleaves ids s' hok
    rw [leavesOfAll] at hleaves
    obtain ⟨id, s₁, ids', hfirst, hrest, rfl⟩ := realizeAll_cons_cases hok
    obtain ⟨o, houtcome, hnotes, hat, hid⟩ := isAt_realize p s hshaped.1 hsize
      (fun i hi ↦ hleaves i (List.mem_append_left _ hi)) hfirst
    have hgrown := (confined_realize hshaped.1 hfirst).size_le
    have hleaves' : ∀ i ∈ leavesOfAll r, i < size := fun i hi ↦
      hleaves i (List.mem_append_right _ hi)
    obtain ⟨o', houtcome', hnotes', hat', hids'⟩ := isAt_realizeAll r s₁ hshaped.2
      (Nat.le_trans hsize hgrown) hleaves' hrest
    refine ⟨o.append o', ?_, ?_, ⟨id, ids', rfl,
      Plan.IsAt.mono (ClassifyOutcome.extends_append_left o o') hat,
      AllAt.mono (ClassifyOutcome.extends_append_right o o') hat'⟩, fun i hi ↦ ?_⟩
    · rw [houtcome', houtcome, ClassifyOutcome.append_assoc]
    · rw [List.flatMap_cons]
      exact hnotes.append hnotes'
    · rw [leavesOfAll]
      rcases List.mem_cons.1 hi with rfl | hi
      · refine hid.imp (List.mem_append_left _) fun ⟨hnew, hopen⟩ ↦ ⟨hnew, ?_⟩
        refine isOpen_realizeAll hshaped.2 hrest hopen fun hmem ↦ ?_
        exact Nat.not_lt.2 (Nat.le_trans hsize hnew) (hleaves' _ hmem)
      · exact (hids' i hi).imp (List.mem_append_right _) fun ⟨hnew, hopen⟩ ↦
          ⟨Nat.le_trans hgrown hnew, hopen⟩

end

/-- **What a run with pending members comes to**: its plan is in the outcome, and the last decision
is on the node whose run it is. -/
theorem exists_recorded (c : LayoutConfig) {t : NodeTree} {p : Node} (hp : t.get? parent = some p)
    (hne : t.pending parent ≠ []) :
    ∃ gs last o t' ids, run c t parent = .ok (o, t') ∧ o.decisions = gs ++ [last] ∧
      last.owner = parent ∧ last.synthetic = false ∧
      (∀ d ∈ gs, d.synthetic = true ∧ ∀ i ∈ d.members, t.size ≤ i ∨
        i ∈ (Plan.ofPending c p (t.lookup (t.pending parent))).members.flatMap Plan.inner) ∧
      AllAt t.size o (Plan.ofPending c p (t.lookup (t.pending parent))).members ids ∧
      last.Arranges t.size o
        (Plan.ofPending c p (t.lookup (t.pending parent))).arrangement ids := by
  obtain ⟨o, t', hok, -⟩ := exists_relinked_run c (lt_size_of_get? hp)
  rcases run_cases hok with ⟨hnil, -⟩ | ⟨q, ids, s, hq, -, hall, rfl, rfl⟩
  · exact absurd hnil hne
  · obtain rfl := Option.some.inj (hp.symm.trans hq)
    have hshaped := Plan.shaped_ofPending c p (t.lookup (t.pending parent))
    have hsize := (unmoved_markOverlays c t p (t.lookup (t.pending parent))).size_eq
    have hleaves : ∀ i ∈ leavesOfAll (Plan.ofPending c p (t.lookup (t.pending parent))).members,
        i < t.size := fun i hi ↦ lt_size_of_mem_pending ((mem_leaves_ofPending p).1 hi)
    obtain ⟨og, houtcome, hnotes, hat, hids⟩ := isAt_realizeAll _
      ⟨markOverlays c t p (t.lookup (t.pending parent)), .empty⟩ hshaped.members
      (Nat.le_of_eq hsize.symm) hleaves hall
    have hgrown := (confined_realizeAll hshaped.members hall).size_le
    have hparent : parent < s.tree.size :=
      Nat.lt_of_lt_of_le (hsize.symm ▸ lt_size_of_get? hp) hgrown
    have hids' : ∀ i ∈ ids, i < t.size ∨ IsOpen s.tree i := fun i hi ↦
      (hids i hi).imp (hleaves i) And.right
    obtain ⟨last, skipped, hsettle, howner, hsynthetic, harranges⟩ := exists_arranges c false
      (Plan.ofPending c p (t.lookup (t.pending parent))).arrangement hparent hids'
    have htotal : (settle c parent false
        (Plan.ofPending c p (t.lookup (t.pending parent))).arrangement ids s).outcome =
          og.append ⟨[last], skipped⟩ := by
      rw [hsettle, houtcome]
      rfl
    refine ⟨og.decisions, last, _, _, ids, hok, by rw [htotal]; rfl, howner, hsynthetic,
      fun d hd ↦ ⟨hnotes.synthetic d hd, fun i hi ↦ (hnotes.members d hd i hi).symm⟩, ?_, ?_⟩
    · rw [htotal]
      exact AllAt.mono (ClassifyOutcome.extends_append_left _ _) hat
    · rw [htotal]
      exact harranges.mono (ClassifyOutcome.extends_append_right _ _)

end Classify

end ViewCompiler
