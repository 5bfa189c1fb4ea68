import Mathlib.Logic.Relation
import ViewCompiler.Proofs.Layout.Placement
import ViewCompiler.Proofs.Layout.Shapes

/-!
# The steps of classification

Carrying a plan out goes through the groups of the plan and the members of every group, but what it
does to the tree is one of four things each time: it makes a group, gives a member its place, marks
a member, or says of an owner what it holds (`Classify.Step`). `Classify.steps_run` takes a run
apart into such steps, after the positioned members have been marked.

What classification keeps is then a statement with one case for each step, and does not follow the
plan again. The steps name the nodes that they are done to: members are pending members of the run
or new, and owners are the node whose run it is or new.
-/

namespace ViewCompiler

open NodeTree

theorem Flags.insert_eq_union (s : Flags) (f : Flag) : s.insert f = s.union (empty.insert f) := by
  simp [insert, union, empty]

/-- **How planned groups are marked**: in no other ways than these four. -/
theorem Shape.contains_eq_false {c : LayoutConfig} {content : Rect} {nodes : List Node}
    {a : Arrangement} {members : List Plan} (h : Shape c content nodes a members) {f : Flag}
    (hf : f ∉ [Flag.degenerate, .floatSplit, .multiColumn, .reversed]) :
    a.flags.contains f = false := by
  simp only [List.mem_cons, List.not_mem_nil, or_false, not_or] at hf
  obtain ⟨hdegenerate, hsplit, hcolumns, hreversed⟩ := hf
  induction h with
  | reversed shape ih => simp [ih, Ne.symm hreversed]
  | _ => simp [Ne.symm hdegenerate, Ne.symm hsplit, Ne.symm hcolumns]

/-- No planned group is marked as positioned. -/
theorem Shape.contains_overlay {c : LayoutConfig} {content : Rect} {nodes : List Node}
    {a : Arrangement} {members : List Plan} (h : Shape c content nodes a members) :
    a.flags.contains .overlay = false :=
  h.contains_eq_false (by decide)

/-- What an answer has been made from. -/
theorem exists_of_bind {ε α β : Type} {x : Except ε α} {f : α → Except ε β} {b : β}
    (h : x >>= f = .ok b) : ∃ a, x = .ok a ∧ f a = .ok b := by
  cases x with
  | error e => exact absurd h (by simp [bind, Except.bind])
  | ok a => exact ⟨a, rfl, h⟩

namespace Classify

/-! ### What carrying a plan out comes to -/

section Cases

variable {c : LayoutConfig} {parent : NodeId} {s s' : State}

theorem realize_member_cases {i id : NodeId}
    (hok : realize c parent s (.member i) = .ok (id, s')) : i = id ∧ s = s' := by
  rw [realize] at hok
  exact Prod.mk.inj (Except.ok.inj hok)

/-- A group is made, then its members are realized in it, and then it is settled. -/
theorem realize_group_cases {a : Arrangement} {members : List Plan} {id : NodeId}
    (hok : realize c parent s (.group a members) = .ok (id, s')) :
    ∃ t ids s₁, s.tree.allocGroup parent ((Rect.unionAll?
        ((s.tree.lookup (leavesOfAll members)).map Node.bounds)).getD .zero) = .ok (id, t) ∧
      realizeAll c parent ⟨t, s.outcome⟩ members = .ok (ids, s₁) ∧
      s' = settle c id true a ids s₁ := by
  rw [realize] at hok
  obtain ⟨⟨id, t⟩, halloc, hok⟩ := exists_of_bind hok
  obtain ⟨⟨ids, s₁⟩, hall, hok⟩ := exists_of_bind hok
  obtain ⟨rfl, rfl⟩ := Prod.mk.inj (Except.ok.inj hok)
  exact ⟨t, ids, s₁, halloc, hall, rfl⟩

theorem realizeAll_nil_cases {ids : List NodeId}
    (hok : realizeAll c parent s [] = .ok (ids, s')) : [] = ids ∧ s = s' := by
  rw [realizeAll] at hok
  exact Prod.mk.inj (Except.ok.inj hok)

/-- One plan is realized after the other. -/
theorem realizeAll_cons_cases {p : Plan} {r : List Plan} {ids : List NodeId}
    (hok : realizeAll c parent s (p :: r) = .ok (ids, s')) :
    ∃ id s₁ ids', realize c parent s p = .ok (id, s₁) ∧
      realizeAll c parent s₁ r = .ok (ids', s') ∧ ids = id :: ids' := by
  rw [realizeAll] at hok
  obtain ⟨⟨id, s₁⟩, hfirst, hok⟩ := exists_of_bind hok
  obtain ⟨⟨ids', s₂⟩, hrest, hok⟩ := exists_of_bind hok
  obtain ⟨rfl, rfl⟩ := Prod.mk.inj (Except.ok.inj hok)
  exact ⟨id, s₁, ids', hfirst, hrest, rfl⟩

end Cases

/-! ### Steps -/

/-- **One step** of carrying out the plan of a node's run. -/
inductive Step (parent : NodeId) (member owner : NodeId → Prop) (t : NodeTree) : NodeTree → Prop
  /-- A group is made. -/
  | alloc {id : NodeId} {bounds : Rect} {t' : NodeTree}
      (made : t.allocGroup parent bounds = .ok (id, t')) : Step parent member owner t t'
  /-- A member gets its place. -/
  | place {id o : NodeId} {t' : NodeTree} (position : Int) (isMember : member id)
      (isOwner : owner o) (placed : t.setRenderParent id o = .ok t') :
      Step parent member owner t (t'.modify id fun n ↦ { n with renderPosition := position })
  /-- A member is marked. -/
  | mark {id : NodeId} {marks : Node → Flags} (isMember : member id)
      (inFlow : ∀ n, (marks n).contains .overlay = false) :
      Step parent member owner t (t.modify id fun n ↦ n.addFlags (marks n))
  /-- It is said what an owner holds. -/
  | hold {o : NodeId} {marks : Flags} (container : Container) (grid : Option GridShape)
      (isOwner : owner o) (inFlow : marks.contains .overlay = false) :
      Step parent member owner t (t.modify o fun n ↦ { n with
        container := container
        flags := n.flags.union marks
        grid := grid })

/-- Steps one after another. -/
abbrev Steps (parent : NodeId) (member owner : NodeId → Prop) : NodeTree → NodeTree → Prop :=
  Relation.ReflTransGen (Step parent member owner)

variable {parent : NodeId} {member owner : NodeId → Prop} {t t' : NodeTree}

theorem size_allocGroup {id : NodeId} {bounds : Rect}
    (h : t.allocGroup parent bounds = .ok (id, t')) : id = t.size ∧ t'.size = t.size + 1 := by
  obtain ⟨p, hp⟩ := exists_get?_of_allocGroup h
  rw [allocGroup_eq hp] at h
  obtain ⟨rfl, rfl⟩ := Prod.mk.inj (Except.ok.inj h)
  exact ⟨rfl, by rw [size_modify, size_alloc]⟩

theorem Step.size_le (h : Step parent member owner t t') : t.size ≤ t'.size := by
  cases h with
  | alloc made =>
    rw [(size_allocGroup made).2]
    exact Nat.le_succ _
  | place position isMember isOwner placed =>
    refine Nat.le_of_eq ?_
    rw [eq_of_setRenderParent placed, size_modify, size_modify, size_modify]
  | mark isMember inFlow => exact Nat.le_of_eq (size_modify _ _ _).symm
  | hold container grid isOwner inFlow => exact Nat.le_of_eq (size_modify _ _ _).symm

theorem Steps.size_le (h : Steps parent member owner t t') : t.size ≤ t'.size := by
  induction h with
  | refl => exact Nat.le_refl _
  | tail _ hstep ih => exact Nat.le_trans ih hstep.size_le

/-- **Only members get a render parent.** -/
theorem Steps.renderParent? (h : Steps parent member owner t t') {i : NodeId} (hi : ¬member i) :
    t'.renderParent? i = t.renderParent? i := by
  induction h with
  | refl => rfl
  | @tail t₁ t₂ _ hstep ih =>
    refine Eq.trans ?_ ih
    cases hstep with
    | alloc made =>
      obtain ⟨p, hp⟩ := exists_get?_of_allocGroup made
      obtain ⟨t', hok, -, -, -, hplace⟩ := exists_allocGroup (lt_size_of_get? hp) _
      obtain ⟨-, rfl⟩ := Prod.mk.inj (Except.ok.inj (made.symm.trans hok))
      exact congrArg Place.renderParent (hplace i)
    | @place id o t' position isMember isOwner placed =>
      have hne : i ≠ id := fun heq ↦ hi (heq ▸ isMember)
      obtain ⟨hid, ho, hnone⟩ := open_of_setRenderParent placed
      obtain ⟨t', hok, hattached, -⟩ := exists_setRenderParent hid ho hnone
      obtain rfl := Except.ok.inj (placed.symm.trans hok)
      have hid' : id < t'.size := hattached.size_eq.symm ▸ hid
      have hplace := place_modify (f := fun n ↦ { n with renderPosition := position })
        (g := fun l ↦ { l with renderPosition := position }) (fun _ ↦ by rfl) hid' i
      rw [NodeTree.renderParent?, hplace, if_neg hne, ← NodeTree.renderParent?,
        hattached.renderParent?, if_neg fun hmem ↦ hne (List.mem_singleton.1 hmem)]
    | mark isMember inFlow =>
      exact (unmoved_modify _ _ (fun _ ↦ by rfl) fun _ ↦ by rfl).renderParent? i
    | hold container grid isOwner inFlow =>
      exact (unmoved_modify _ _ (fun _ ↦ by rfl) fun _ ↦ by rfl).renderParent? i

/-! ### One container -/

variable (c : LayoutConfig)

theorem steps_placeMember {o id : NodeId} (ho : owner o) (hid : member id) (p : Placing) :
    Steps parent member owner p.tree (placeMember o p id).tree := by
  unfold placeMember
  cases hset : p.tree.setRenderParent id o with
  | error e => exact .refl
  | ok t => exact .single (.place _ hid ho hset)

/-- **How members are marked**: in no other ways than these four. -/
theorem contains_memberFlags {f : Flag}
    (hf : f ∉ [Flag.matchWidth, .percentWidth, .centerHorizontal, .alignEnd])
    (container : Container) (content : Rect) (n : Node) :
    (memberFlags c container content n).contains f = false := by
  simp only [List.mem_cons, List.not_mem_nil, or_false, not_or] at hf
  obtain ⟨hwidth, hpercent, hcenter, hend⟩ := hf
  unfold memberFlags
  dsimp only
  split
  · split
    · split <;> split <;> simp [Ne.symm hwidth, Ne.symm hpercent, Ne.symm hcenter]
    · split
      · split <;> split <;> simp [Ne.symm hwidth, Ne.symm hpercent, Ne.symm hend]
      · split <;> split <;> simp [Ne.symm hwidth, Ne.symm hpercent]
  · split <;> split <;> simp [Ne.symm hwidth, Ne.symm hpercent]

variable {c}

theorem steps_mark {o : NodeId} (ho : owner o) {members : List NodeId}
    (hmembers : ∀ i ∈ members, member i) {a : Arrangement}
    (hbaseline : ∀ id, a.baseline = some id → member id) (content : Rect) {flags : Flags}
    (hflags : flags.contains .overlay = false) (t : NodeTree) :
    Steps parent member owner t (mark c o content a flags members t) := by
  have hmarked := List.foldlRecOn (motive := Steps parent member owner t) members
    (fun t id ↦ t.modify id fun n ↦ n.addFlags (memberFlags c a.container content n)) .refl
    fun t' h i hi ↦ h.tail (.mark (hmembers i hi) fun n ↦
      contains_memberFlags c (by decide) a.container content n)
  unfold mark
  dsimp only
  refine .tail ?_ (.hold a.container a.grid ho hflags)
  cases hid : a.baseline with
  | none => exact hmarked
  | some id =>
    have hanchor : (fun n : Node ↦ { n with flags := n.flags.insert .baselineAnchor }) =
        fun n ↦ n.addFlags (Flags.empty.insert .baselineAnchor) := funext fun n ↦ by
      rw [Node.addFlags, Flags.insert_eq_union]
    dsimp only
    rw [hanchor]
    exact hmarked.tail (.mark (hbaseline id hid) fun _ ↦ by simp)

/-- **Settling a container.** -/
theorem steps_settle {o : NodeId} (ho : owner o) (synthetic : Bool) {a : Arrangement}
    (ha : a.flags.contains .overlay = false)
    (hbaseline : ∀ id, a.baseline = some id → member id) {members : List NodeId}
    (hmembers : ∀ i ∈ members, member i) (s : State) :
    Steps parent member owner s.tree (settle c o synthetic a members s).tree := by
  have hout : ∀ i ∈ (reordering? s.tree a members).getD members, member i := fun i hi ↦
    hmembers i ((perm_reordering? s.tree a members).mem_iff.1 hi)
  have hplaced := List.foldlRecOn
    (motive := fun p : Placing ↦ Steps parent member owner s.tree p.tree)
    ((reordering? s.tree a members).getD members) (placeMember o) (b := ⟨s.tree, [], []⟩) .refl
    fun p h i hi ↦ h.trans (steps_placeMember ho (hout i hi) p)
  refine hplaced.trans (steps_mark ho (fun i hi ↦ hmembers i (List.mem_filter.1 hi).1) hbaseline _
    ?_ _)
  split
  · exact ha
  · rw [Flags.contains_erase, ha, Bool.and_false]

/-! ### Plans -/

section Plans

variable {content : Rect} {nodes : List Node} {size : Nat}

mutual

/-- **Carrying a plan out**: its leaves and new groups become members, and the groups owners. -/
theorem steps_realize (hmember : ∀ i, size ≤ i → member i) (howner : ∀ i, size ≤ i → owner i) :
    ∀ (p : Plan) (s : State), p.Shaped c content nodes →
    (∀ i ∈ p.leaves, member i) → size ≤ s.tree.size →
    ∀ {id : NodeId} {s' : State}, realize c parent s p = .ok (id, s') →
      Steps parent member owner s.tree s'.tree ∧ member id
  | .member id, s => by
    intro _ hleaves _ id' s' hok
    obtain ⟨rfl, rfl⟩ := realize_member_cases hok
    exact ⟨.refl, hleaves id (by simp [Plan.leaves])⟩
  | .group a members, s => by
    intro hshaped hleaves hsize id s' hok
    rw [Plan.leaves] at hleaves
    obtain ⟨t₁, ids, s₁, halloc, hall, rfl⟩ := realize_group_cases hok
    obtain ⟨hid, hsize₁⟩ := size_allocGroup halloc
    have hnew : size ≤ id := hid ▸ hsize
    obtain ⟨hsteps, hids⟩ := steps_realizeAll hmember howner members ⟨t₁, s.outcome⟩ hshaped.2
      hleaves (hsize₁ ▸ Nat.le_succ_of_le hsize) hall
    refine ⟨.head (.alloc halloc) (hsteps.trans (steps_settle (howner id hnew) true
      hshaped.1.contains_overlay (fun i hi ↦ hleaves i (hshaped.1.level.baseline i hi)) hids s₁)),
      hmember id hnew⟩

theorem steps_realizeAll (hmember : ∀ i, size ≤ i → member i) (howner : ∀ i, size ≤ i → owner i) :
    ∀ (ps : List Plan) (s : State), ShapedAll c content nodes ps →
    (∀ i ∈ leavesOfAll ps, member i) → size ≤ s.tree.size →
    ∀ {ids : List NodeId} {s' : State}, realizeAll c parent s ps = .ok (ids, s') →
      Steps parent member owner s.tree s'.tree ∧ ∀ i ∈ ids, member i
  | [], s => by
    intro _ _ _ ids s' hok
    obtain ⟨rfl, rfl⟩ := realizeAll_nil_cases hok
    exact ⟨.refl, fun i hi ↦ absurd hi List.not_mem_nil⟩
  | p :: r, s => by
    intro hshaped hleaves hsize ids s' hok
    rw [leavesOfAll] at hleaves
    obtain ⟨id, s₁, ids', hfirst, hrest, rfl⟩ := realizeAll_cons_cases hok
    obtain ⟨hsteps, hid⟩ := steps_realize hmember howner p s hshaped.1
      (fun i hi ↦ hleaves i (List.mem_append_left _ hi)) hsize hfirst
    obtain ⟨hsteps', hids⟩ := steps_realizeAll hmember howner r s₁ hshaped.2
      (fun i hi ↦ hleaves i (List.mem_append_right _ hi)) (Nat.le_trans hsize hsteps.size_le) hrest
    exact ⟨hsteps.trans hsteps', fun i hi ↦ (List.mem_cons.1 hi).elim (fun heq ↦ heq ▸ hid)
      (hids i)⟩

end

end Plans

/-! ### Runs -/

/-- **What a run comes to**: nothing if no members are pending, and otherwise its plan carried
out. -/
theorem run_cases {o : ClassifyOutcome} {t' : NodeTree} (hok : run c t parent = .ok (o, t')) :
    (t.pending parent = [] ∧ o = .empty ∧ t' = t) ∨
      ∃ p ids s, t.get? parent = some p ∧ t.pending parent ≠ [] ∧
        realizeAll c parent ⟨markOverlays c t p (t.lookup (t.pending parent)), .empty⟩
          (Plan.ofPending c p (t.lookup (t.pending parent))).members = .ok (ids, s) ∧
        let s' := settle c parent false
          (Plan.ofPending c p (t.lookup (t.pending parent))).arrangement ids s
        o = s'.outcome ∧ t' = s'.tree := by
  rw [run] at hok
  obtain ⟨pending, hpending, hok⟩ := exists_of_bind hok
  cases hp : t.get? parent with
  | none =>
    rw [pendingRun, hp] at hpending
    exact absurd hpending (by simp)
  | some p =>
    rw [pendingRun_eq (lt_size_of_get? hp)] at hpending
    obtain rfl := Except.ok.inj hpending
    split at hok
    · rename_i hnil
      obtain ⟨rfl, rfl⟩ := Prod.mk.inj (Except.ok.inj hok)
      exact .inl ⟨List.isEmpty_iff.1 hnil, rfl, rfl⟩
    · rename_i hne
      rw [node, hp] at hok
      obtain ⟨q, hq, hok⟩ := exists_of_bind hok
      obtain rfl := Except.ok.inj hq
      obtain ⟨⟨ids, s⟩, hall, hok⟩ := exists_of_bind hok
      obtain ⟨rfl, rfl⟩ := Prod.mk.inj (Except.ok.inj hok)
      exact .inr ⟨p, ids, s, rfl, fun hnil ↦ hne (List.isEmpty_iff.2 hnil), hall, rfl, rfl⟩

/-- The leaves of the plan of a run are its pending members. -/
theorem mem_leaves_ofPending (p : Node) {i : NodeId} :
    i ∈ leavesOfAll (Plan.ofPending c p (t.lookup (t.pending parent))).members ↔
      i ∈ t.pending parent := by
  rw [(Plan.coveredBy_ofPending c p (t.lookup (t.pending parent))).leaves.mem_iff,
    map_id_lookup fun i hi ↦ lt_size_of_mem_pending hi]

/-- **Classifying a run** marks the positioned members and carries the plan out. -/
theorem steps_run {o : ClassifyOutcome} (hok : run c t parent = .ok (o, t')) :
    (t.pending parent = [] ∧ t' = t) ∨ ∃ p, t.get? parent = some p ∧
      Steps parent (fun i ↦ i ∈ t.pending parent ∨ t.size ≤ i) (fun i ↦ i = parent ∨ t.size ≤ i)
        (markOverlays c t p (t.lookup (t.pending parent))) t' := by
  rcases run_cases hok with ⟨hnil, -, rfl⟩ | ⟨p, ids, s, hp, -, hall, -, rfl⟩
  · exact .inl ⟨hnil, rfl⟩
  · have hshaped := Plan.shaped_ofPending c p (t.lookup (t.pending parent))
    have hmember : ∀ i ∈ leavesOfAll (Plan.ofPending c p (t.lookup (t.pending parent))).members,
        i ∈ t.pending parent ∨ t.size ≤ i := fun i hi ↦ .inl ((mem_leaves_ofPending p).1 hi)
    have hsize := (unmoved_markOverlays c t p (t.lookup (t.pending parent))).size_eq
    obtain ⟨hsteps, hids⟩ := steps_realizeAll
      (fun i hi ↦ (.inr hi : i ∈ t.pending parent ∨ t.size ≤ i))
      (fun i hi ↦ (.inr hi : i = parent ∨ t.size ≤ i)) _
      ⟨markOverlays c t p (t.lookup (t.pending parent)), .empty⟩ hshaped.members hmember
      (Nat.le_of_eq hsize.symm) hall
    exact .inr ⟨p, hp, hsteps.trans (steps_settle (.inl rfl) false
      hshaped.arrangement.contains_overlay
      (fun i hi ↦ hmember i (hshaped.arrangement.level.baseline i hi)) hids s)⟩

end Classify

end ViewCompiler
