import ViewCompiler.Proofs.Layout.Linked
import ViewCompiler.Proofs.Layout.Stems

/-!
# Changes that fail

A change of a tree looks nodes up and writes to them, one after another, and any look-up can fail.
`Edit` are such changes step by step: what has been written before a step fails is still there
afterwards. The operations of `NodeTree` are the outcomes of such changes (`Edit.run_attach`,
`Edit.run_allocGroup`, `Edit.run_setRenderParent`, `Edit.run_relocate`).

A change that looks up all its nodes before it writes to one leaves no trace when it fails, and
three of the four operations do. The exception is `NodeTree.attach`, which looks the layout parent
up after the parent has got the child. `Change.failed_iff` says why changes fail, and what is left.
-/

namespace ViewCompiler

open NodeTree

/-- A change of a tree that may fail. What has been written by then stays. -/
abbrev Edit (α : Type) := ExceptT TreeError (StateM NodeTree) α

namespace Edit

variable {α β : Type} {t : NodeTree}

/-- The outcome, and the tree that is left. -/
def outcome (x : Edit α) (t : NodeTree) : Except TreeError α × NodeTree := x.run.run t

/-- The node with a number. -/
def node (id : NodeId) : Edit Node := do
  match (← get).get? id with
  | some n => return n
  | none => throw (.unknownNode id)

/-- Writes to the node with a number, and gives the node as it was. -/
def write (id : NodeId) (f : Node → Node) : Edit Node := do
  let n ← node id
  modify fun t ↦ t.modify id f
  return n

/-! ### Steps -/

theorem outcome_pure (a : α) (t : NodeTree) : (pure a : Edit α).outcome t = (.ok a, t) := rfl

theorem outcome_throw (e : TreeError) (t : NodeTree) :
    (throw e : Edit α).outcome t = (.error e, t) := rfl

theorem outcome_bind_of_ok {x : Edit α} {a : α} {u : NodeTree} (h : x.outcome t = (.ok a, u))
    (f : α → Edit β) : (x >>= f).outcome t = (f a).outcome u := by
  show (ExceptT.bindCont f (x.outcome t).1).run (x.outcome t).2 = _
  rw [h]
  rfl

theorem outcome_bind_of_error {x : Edit α} {e : TreeError} {t' : NodeTree}
    (h : x.outcome t = (.error e, t')) (f : α → Edit β) :
    (x >>= f).outcome t = (.error e, t') := by
  show (ExceptT.bindCont f (x.outcome t).1).run (x.outcome t).2 = _
  rw [h]
  rfl

theorem outcome_node_of_get? {id : NodeId} {n : Node} (h : t.get? id = some n) :
    (node id).outcome t = (.ok n, t) := by
  have hget : (node id).outcome t = (match t.get? id with
      | some n => (pure n : Edit Node)
      | none => throw (TreeError.unknownNode id)).outcome t := rfl
  rw [hget, h]
  rfl

theorem outcome_node_of_le {id : NodeId} (h : t.size ≤ id) :
    (node id).outcome t = (.error (TreeError.unknownNode id), t) := by
  have hget : (node id).outcome t = (match t.get? id with
      | some n => (pure n : Edit Node)
      | none => throw (TreeError.unknownNode id)).outcome t := rfl
  rw [hget, get?_eq_none_iff.2 h]
  rfl

theorem outcome_write_of_get? {id : NodeId} {n : Node} (h : t.get? id = some n) (f : Node → Node) :
    (write id f).outcome t = (.ok n, t.modify id f) := by
  rw [write, outcome_bind_of_ok (outcome_node_of_get? h)]
  rfl

/-- A write to a node that is not there changes nothing. -/
theorem outcome_write_of_le {id : NodeId} (h : t.size ≤ id) (f : Node → Node) :
    (write id f).outcome t = (.error (.unknownNode id), t) := by
  rw [write, outcome_bind_of_error (outcome_node_of_le h)]

theorem outcome_bind_node {id : NodeId} {n : Node} (h : t.get? id = some n) (f : Node → Edit β) :
    (node id >>= f).outcome t = (f n).outcome t :=
  outcome_bind_of_ok (outcome_node_of_get? h) f

theorem outcome_bind_write {id : NodeId} {n : Node} (h : t.get? id = some n) (g : Node → Node)
    (f : Node → Edit β) : (write id g >>= f).outcome t = (f n).outcome (t.modify id g) :=
  outcome_bind_of_ok (outcome_write_of_get? h g) f

/-- Nodes stay where they are when another one is written to. -/
theorem exists_get?_modify {i : NodeId} {n : Node} (h : t.get? i = some n) (id : NodeId)
    (f : Node → Node) : ∃ n', (t.modify id f).get? i = some n' :=
  exists_get? (by rw [size_modify]; exact lt_size_of_get? h)

/-! ### The operations, step by step -/

/-- Puts a node among the children of another one, and into the run of a layout parent. -/
def attach (parent child : NodeId) (layoutParent : Option NodeId) : Edit Unit := do
  let _ ← node child
  let p ← write parent (addChild child)
  let above ←
    match layoutParent with
    | some l => write l (addMember child)
    | none => node parent
  let _ ← write child (under parent layoutParent p.children.length (above.depth + 1))
  return ()

/-- The box around members of a run. -/
def boxed (parent : NodeId) (bounds : Rect) (depth : Nat) (n : Node) : Node :=
  { n with
    parent := some parent
    documentParent := some parent
    depth := depth
    bounds := bounds
    style := n.style.set "display" "block" }

/-- Makes a box around members of a run. -/
def allocGroup (parent : NodeId) (bounds : Rect) : Edit NodeId := do
  let p ← node parent
  let id ← modifyGet fun t ↦ t.alloc .group "group"
  let _ ← write id (boxed parent bounds (p.depth + 1))
  return id

/-- Gives a node its place in the output of another one. -/
def setRenderParent (child parent : NodeId) : Edit Unit := do
  let _ ← node parent
  let c ← node child
  match c.renderParent with
  | some existing => throw (.renderParentReassigned child existing parent)
  | none => do
    let _ ← write child (inside parent)
    let _ ← write parent (around child)
    return ()

/-- Gives a node its place in the output of a node other than its own parent. -/
def relocate (child target : NodeId) : Edit Unit := do
  setRenderParent child target
  let _ ← write child fun n ↦ { n with flags := n.flags.insert .relocated }
  return ()

/-! ### They are the operations of trees -/

/-- **Attaching a node step by step.** -/
theorem run_attach (t : NodeTree) (parent child : NodeId) (layoutParent : Option NodeId) :
    (attach parent child layoutParent).outcome t = t.attach parent child layoutParent := by
  rw [attach, NodeTree.attach]
  cases hc : t.get? child with
  | none => exact outcome_bind_of_error (outcome_node_of_le (get?_eq_none_iff.1 hc)) _
  | some c =>
    rw [outcome_bind_node hc]
    cases hp : t.get? parent with
    | none => exact outcome_bind_of_error (outcome_write_of_le (get?_eq_none_iff.1 hp) _) _
    | some p =>
      rw [outcome_bind_write hp]
      obtain ⟨c', hc'⟩ := exists_get?_modify hc parent (addChild child)
      cases layoutParent with
      | none =>
        have hp' : (t.modify parent (addChild child)).get? parent =
            some { addChild child p with id := p.id } := by
          rw [get?_modify, if_pos rfl, hp, Option.map_some]
        rw [outcome_bind_node hp', outcome_bind_write hc']
        rfl
      | some l =>
        cases hl : (t.modify parent (addChild child)).get? l with
        | none =>
          simp only [hl]
          exact outcome_bind_of_error (outcome_write_of_le (get?_eq_none_iff.1 hl) _) _
        | some above =>
          obtain ⟨c'', hc''⟩ := exists_get?_modify hc' l (addMember child)
          simp only [hl]
          rw [outcome_bind_write hl, outcome_bind_write hc'']
          rfl

/-- **Making a group step by step.** -/
theorem run_allocGroup (t : NodeTree) (parent : NodeId) (bounds : Rect) :
    (allocGroup parent bounds).outcome t =
      match t.allocGroup parent bounds with
      | .ok (id, t') => (.ok id, t')
      | .error e => (.error e, t) := by
  rw [allocGroup]
  cases hp : t.get? parent with
  | none =>
    rw [outcome_bind_of_error (outcome_node_of_le (get?_eq_none_iff.1 hp)), NodeTree.allocGroup, hp]
  | some p =>
    have hnew : (t.alloc .group "group").2.get? t.size = some (.new t.size .group "group") := by
      rw [get?_alloc, if_pos rfl]
    have halloc : (modifyGet fun t ↦ t.alloc .group "group" : Edit NodeId).outcome t =
        (.ok t.size, (t.alloc .group "group").2) := rfl
    rw [outcome_bind_node hp, outcome_bind_of_ok halloc, outcome_bind_write hnew,
      allocGroup_eq hp]
    rfl

/-- What is left of a tree that is changed or not at all. -/
def kept (t : NodeTree) : Except TreeError NodeTree → Except TreeError Unit × NodeTree
  | .ok t' => (.ok (), t')
  | .error e => (.error e, t)

/-- **Placing a node step by step.** -/
theorem run_setRenderParent (t : NodeTree) (child parent : NodeId) :
    (setRenderParent child parent).outcome t = kept t (t.setRenderParent child parent) := by
  rw [setRenderParent, NodeTree.setRenderParent]
  cases hp : t.get? parent with
  | none => exact outcome_bind_of_error (outcome_node_of_le (get?_eq_none_iff.1 hp)) _
  | some p =>
    rw [outcome_bind_node hp]
    cases hc : t.get? child with
    | none => exact outcome_bind_of_error (outcome_node_of_le (get?_eq_none_iff.1 hc)) _
    | some c =>
      rw [outcome_bind_node hc]
      obtain ⟨p', hp'⟩ := exists_get?_modify hp child (inside parent)
      cases hplaced : c.renderParent with
      | some existing => rw [outcome_throw]; simp only [hplaced]; rfl
      | none =>
        simp only [hplaced]
        rw [outcome_bind_write hc, outcome_bind_write hp']
        rfl

/-- **Moving a node step by step.** -/
theorem run_relocate (t : NodeTree) (child target : NodeId) :
    (relocate child target).outcome t = kept t (t.relocate child target) := by
  have hplace := run_setRenderParent t child target
  rw [relocate, NodeTree.relocate]
  cases h : t.setRenderParent child target with
  | error e =>
    rw [h] at hplace
    exact outcome_bind_of_error hplace _
  | ok t' =>
    rw [h] at hplace
    obtain ⟨c, hc⟩ := exists_get? (open_of_setRenderParent h).1
    obtain ⟨c', hc'⟩ := exists_get?_modify hc child (inside target)
    obtain ⟨c'', hc''⟩ := exists_get?_modify hc' target (around child)
    rw [← eq_of_setRenderParent h] at hc''
    rw [outcome_bind_of_ok hplace, outcome_bind_write hc'']
    rfl

end Edit

/-! ### Why changes fail, and what is left -/

/-- A change of a tree. -/
inductive Change where
  | attach (parent child : NodeId) (layoutParent : Option NodeId)
  | allocGroup (parent : NodeId) (bounds : Rect)
  | setRenderParent (child parent : NodeId)
  | relocate (child target : NodeId)

namespace Change

variable {t t' : NodeTree}

/-- A change step by step.  Making a group gives its number. -/
def perform : Change → Edit (Option NodeId)
  | attach parent child layoutParent => do
    Edit.attach parent child layoutParent
    return none
  | allocGroup parent bounds => do
    let id ← Edit.allocGroup parent bounds
    return some id
  | setRenderParent child parent => do
    Edit.setRenderParent child parent
    return none
  | relocate child target => do
    Edit.relocate child target
    return none

/-- The change gives a node its place in the output of another one. -/
inductive Places : Change → NodeId → NodeId → Prop
  | setRenderParent (child parent : NodeId) : Places (setRenderParent child parent) child parent
  | relocate (child target : NodeId) : Places (relocate child target) child target

/-- Why a change of a tree fails. -/
inductive Refused (t : NodeTree) : Change → TreeError → Prop
  | noChild {parent child : NodeId} (layoutParent : Option NodeId) (hchild : t.size ≤ child) :
    Refused t (attach parent child layoutParent) (.unknownNode child)
  | noParent {parent child : NodeId} (layoutParent : Option NodeId) (hchild : child < t.size)
      (hparent : t.size ≤ parent) :
    Refused t (attach parent child layoutParent) (.unknownNode parent)
  | noLayoutParent {parent child l : NodeId} (hchild : child < t.size) (hparent : parent < t.size)
      (hl : t.size ≤ l) :
    Refused t (attach parent child (some l)) (.unknownNode l)
  | noOwner {parent : NodeId} (bounds : Rect) (hparent : t.size ≤ parent) :
    Refused t (allocGroup parent bounds) (.unknownNode parent)
  | noTarget {c : Change} {child target : NodeId} (hc : c.Places child target)
      (htarget : t.size ≤ target) :
    Refused t c (.unknownNode target)
  | nothingToPlace {c : Change} {child target : NodeId} (hc : c.Places child target)
      (htarget : target < t.size) (hchild : t.size ≤ child) :
    Refused t c (.unknownNode child)
  | placed {c : Change} {child target existing : NodeId} (hc : c.Places child target)
      (htarget : target < t.size) (hexisting : t.renderParent? child = some existing) :
    Refused t c (.renderParentReassigned child existing target)

/-- What a change leaves that fails half way: the parent has the child, and nothing else of the
tree is changed. -/
inductive Halfway (t : NodeTree) : Change → NodeTree → Prop
  | attach {parent child l : NodeId} (hchild : child < t.size) (hparent : parent < t.size)
      (hl : t.size ≤ l) :
    Halfway t (attach parent child (some l)) (t.modify parent (addChild child))

/-- **What fails half way is seen in the tree.** -/
theorem Halfway.ne {c : Change} (h : c.Halfway t t') : t' ≠ t := by
  cases h with
  | @attach parent child l hchild hparent hl =>
    obtain ⟨p, hp⟩ := exists_get? hparent
    intro heq
    have hp' := congrArg (fun t ↦ (t.get? parent).map (·.children.length)) heq
    rw [get?_modify, if_pos rfl, hp] at hp'
    simp [addChild] at hp'

theorem Halfway.unique {c : Change} {t₁ t₂ : NodeTree} (h₁ : c.Halfway t t₁)
    (h₂ : c.Halfway t t₂) : t₁ = t₂ := by
  cases h₁
  cases h₂
  rfl

/-- What is left of a tree when a change of it has failed. -/
def Left (c : Change) (t t' : NodeTree) : Prop :=
  c.Halfway t t' ∨ t' = t ∧ ∀ t₁, ¬c.Halfway t t₁

theorem Left.unique {c : Change} {t₁ t₂ : NodeTree} (h₁ : c.Left t t₁) (h₂ : c.Left t t₂) :
    t₁ = t₂ := by
  rcases h₁ with h₁ | ⟨rfl, hnone⟩
  · rcases h₂ with h₂ | ⟨-, hnone⟩
    · exact h₁.unique h₂
    · exact absurd h₁ (hnone t₁)
  · rcases h₂ with h₂ | ⟨rfl, -⟩
    · exact absurd h₂ (hnone t₂)
    · rfl

/-- Placing a node is refused before anything is written. -/
theorem Places.left {c : Change} {child target : NodeId} (hc : c.Places child target) :
    c.Left t t := by
  refine .inr ⟨rfl, fun t₁ h ↦ ?_⟩
  cases hc <;> cases h

theorem Places.outcome_of_error {c : Change} {child target : NodeId} {e : TreeError}
    (hc : c.Places child target) (h : t.setRenderParent child target = .error e) :
    c.perform.outcome t = (.error e, t) := by
  cases hc with
  | setRenderParent child parent =>
    refine Edit.outcome_bind_of_error ?_ _
    rw [Edit.run_setRenderParent, h]
    rfl
  | relocate child target =>
    refine Edit.outcome_bind_of_error ?_ _
    rw [Edit.run_relocate, NodeTree.relocate, h]
    rfl

/-- A change that is refused fails for that reason. -/
theorem Refused.exists_outcome {c : Change} {e : TreeError} (h : c.Refused t e) :
    ∃ t', c.perform.outcome t = (.error e, t') ∧ c.Left t t' := by
  cases h with
  | @noChild parent child layoutParent hchild =>
    refine ⟨t, Edit.outcome_bind_of_error ?_ _, .inr ⟨rfl, ?_⟩⟩
    · rw [Edit.run_attach, NodeTree.attach, get?_eq_none_iff.2 hchild]
    · rintro t₁ ⟨hchild', -, -⟩
      exact Nat.not_le.2 hchild' hchild
  | @noParent parent child layoutParent hchild hparent =>
    obtain ⟨c, hc⟩ := exists_get? hchild
    refine ⟨t, Edit.outcome_bind_of_error ?_ _, .inr ⟨rfl, ?_⟩⟩
    · rw [Edit.run_attach, NodeTree.attach, hc, get?_eq_none_iff.2 hparent]
    · rintro t₁ ⟨-, hparent', -⟩
      exact Nat.not_le.2 hparent' hparent
  | @noLayoutParent parent child l hchild hparent hl =>
    obtain ⟨c, hc⟩ := exists_get? hchild
    obtain ⟨p, hp⟩ := exists_get? hparent
    refine ⟨t.modify parent (addChild child), Edit.outcome_bind_of_error ?_ _,
      .inl (.attach hchild hparent hl)⟩
    have hl' : (t.modify parent (addChild child)).get? l = none :=
      get?_eq_none_iff.2 (by rw [size_modify]; exact hl)
    rw [Edit.run_attach, NodeTree.attach, hc, hp]
    simp only [hl']
  | @noOwner parent bounds hparent =>
    refine ⟨t, Edit.outcome_bind_of_error ?_ _, .inr ⟨rfl, fun t₁ h ↦ by cases h⟩⟩
    rw [Edit.run_allocGroup, NodeTree.allocGroup, get?_eq_none_iff.2 hparent]
  | @noTarget c child target hc htarget =>
    refine ⟨t, hc.outcome_of_error ?_, hc.left⟩
    rw [NodeTree.setRenderParent, get?_eq_none_iff.2 htarget]
  | @nothingToPlace c child target hc htarget hchild =>
    obtain ⟨p, hp⟩ := exists_get? htarget
    refine ⟨t, hc.outcome_of_error ?_, hc.left⟩
    rw [NodeTree.setRenderParent, hp, get?_eq_none_iff.2 hchild]
  | @placed c child target existing hc htarget hexisting =>
    obtain ⟨p, hp⟩ := exists_get? htarget
    obtain ⟨n, hn⟩ := exists_get? (lt_size_of_renderParent? hexisting)
    rw [renderParent?, place_of_get? hn] at hexisting
    have hplaced : n.renderParent = some existing := hexisting
    refine ⟨t, hc.outcome_of_error ?_, hc.left⟩
    rw [NodeTree.setRenderParent, hp, hn]
    simp only [hplaced]

theorem Places.refused_or_ok {c : Change} {child target : NodeId} (hc : c.Places child target)
    (t : NodeTree) : (∃ e, c.Refused t e) ∨ ∃ a t', c.perform.outcome t = (.ok a, t') := by
  rcases Nat.lt_or_ge target t.size with htarget | htarget
  · rcases Nat.lt_or_ge child t.size with hchild | hchild
    · cases hplaced : t.renderParent? child with
      | some existing => exact .inl ⟨_, .placed hc htarget hplaced⟩
      | none =>
        refine .inr ⟨none, ?_⟩
        cases hc with
        | setRenderParent =>
          obtain ⟨t', ht', -⟩ := exists_setRenderParent hchild htarget hplaced
          refine ⟨t', Edit.outcome_bind_of_ok (a := ()) (u := t') ?_ _⟩
          rw [Edit.run_setRenderParent, ht']
          rfl
        | relocate =>
          obtain ⟨t', ht', -⟩ := exists_relocate hchild htarget hplaced
          refine ⟨t', Edit.outcome_bind_of_ok (a := ()) (u := t') ?_ _⟩
          rw [Edit.run_relocate, ht']
          rfl
    · exact .inl ⟨_, .nothingToPlace hc htarget hchild⟩
  · exact .inl ⟨_, .noTarget hc htarget⟩

/-- A change that nothing speaks against succeeds. -/
theorem refused_or_ok (c : Change) (t : NodeTree) :
    (∃ e, c.Refused t e) ∨ ∃ a t', c.perform.outcome t = (.ok a, t') := by
  cases c with
  | attach parent child layoutParent =>
    rcases Nat.lt_or_ge child t.size with hchild | hchild
    · rcases Nat.lt_or_ge parent t.size with hparent | hparent
      · by_cases hlayout : ∀ l, layoutParent = some l → l < t.size
        · refine .inr ⟨none, (t.attach parent child layoutParent).2,
            Edit.outcome_bind_of_ok (a := ()) ?_ _⟩
          rw [Edit.run_attach, ← attach_ok hchild hparent hlayout]
        · simp only [not_forall, Nat.not_lt] at hlayout
          obtain ⟨l, rfl, hl⟩ := hlayout
          exact .inl ⟨_, .noLayoutParent hchild hparent hl⟩
      · exact .inl ⟨_, .noParent layoutParent hchild hparent⟩
    · exact .inl ⟨_, .noChild layoutParent hchild⟩
  | allocGroup parent bounds =>
    rcases Nat.lt_or_ge parent t.size with hparent | hparent
    · obtain ⟨t', ht', -⟩ := exists_allocGroup hparent bounds
      refine .inr ⟨some t.size, t', Edit.outcome_bind_of_ok (a := t.size) (u := t') ?_ _⟩
      rw [Edit.run_allocGroup, ht']
    · exact .inl ⟨_, .noOwner bounds hparent⟩
  | setRenderParent child parent => exact Places.refused_or_ok (.setRenderParent child parent) t
  | relocate child target => exact Places.refused_or_ok (.relocate child target) t

/-- **When changes fail, and what is left of the tree.** -/
theorem failed_iff {c : Change} {e : TreeError} :
    c.perform.outcome t = (.error e, t') ↔ c.Refused t e ∧ c.Left t t' := by
  constructor
  · intro h
    rcases c.refused_or_ok t with ⟨e', hrefused⟩ | ⟨a, t₁, hok⟩
    · obtain ⟨t₁, hfailed, hleft⟩ := hrefused.exists_outcome
      obtain ⟨herror, rfl⟩ := Prod.mk.inj (h.symm.trans hfailed)
      rw [Except.error.inj herror]
      exact ⟨hrefused, hleft⟩
    · exact absurd (h.symm.trans hok) (by simp)
  · rintro ⟨hrefused, hleft⟩
    obtain ⟨t₁, hfailed, hleft₁⟩ := hrefused.exists_outcome
    rw [hfailed, hleft.unique hleft₁]

/-- The call of an operation of trees that a change is. -/
def call : Change → Call
  | attach parent child layoutParent => .attach parent child layoutParent
  | allocGroup parent bounds => .allocGroup parent bounds
  | setRenderParent child parent => .setRenderParent child parent
  | relocate child target => .relocate child target

theorem outcome_bind_pure_snd {α β : Type} (x : Edit α) (f : α → β) (t : NodeTree) :
    ((x >>= fun a ↦ pure (f a) : Edit β).outcome t).2 = (x.outcome t).2 := by
  rcases h : x.outcome t with ⟨a | a, t'⟩
  · rw [Edit.outcome_bind_of_error h]
  · rw [Edit.outcome_bind_of_ok h, Edit.outcome_pure]

/-- What is left after the steps of a change is what is left after the call. -/
theorem outcome_snd (c : Change) (t : NodeTree) : (c.perform.outcome t).2 = t.perform c.call := by
  cases c with
  | attach parent child layoutParent =>
    exact (outcome_bind_pure_snd _ (fun _ ↦ none) t).trans
      (congrArg Prod.snd (Edit.run_attach t parent child layoutParent))
  | allocGroup parent bounds =>
    refine (outcome_bind_pure_snd _ some t).trans ?_
    rw [Edit.run_allocGroup, call, NodeTree.perform]
    cases t.allocGroup parent bounds <;> rfl
  | setRenderParent child parent =>
    refine (outcome_bind_pure_snd _ (fun _ ↦ none) t).trans ?_
    rw [Edit.run_setRenderParent, call, NodeTree.perform]
    cases t.setRenderParent child parent <;> rfl
  | relocate child target =>
    refine (outcome_bind_pure_snd _ (fun _ ↦ none) t).trans ?_
    rw [Edit.run_relocate, call, NodeTree.perform]
    cases t.relocate child target <;> rfl

/-- **What a failed change leaves.** The steps of a change come to the call of its operation. They
fail for one of the reasons of `Refused`, and then the tree is as it was before, unless a child is
attached under a layout parent that does not exist. In that case the parent has the child, nothing
else is changed, and the tree is not the one from before. -/
theorem left_by_failure (c : Change) (t : NodeTree) :
    (c.perform.outcome t).2 = t.perform c.call ∧
      (∀ e t', c.perform.outcome t = (.error e, t') ↔
        c.Refused t e ∧ (c.Halfway t t' ∨ t' = t ∧ ∀ t₁, ¬c.Halfway t t₁)) ∧
      ∀ t', c.Halfway t t' → t' ≠ t :=
  ⟨outcome_snd c t, fun _ _ ↦ failed_iff, fun _ ↦ Halfway.ne⟩

/-- The first node lists the second one, which knows nothing of it. -/
example :
    let t := ((empty.alloc .root "div").2.alloc .element "p").2
    let t' := ((attach 0 1 (some 7)).perform.outcome t).2
    (t'.get? 0).map Node.children = some [1] ∧ (t'.get? 1).map Node.parent = some none := by
  decide

end Change

end ViewCompiler
