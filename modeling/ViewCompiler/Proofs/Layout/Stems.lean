import ViewCompiler.Proofs.Layout.Offered

/-!
# The walk makes a node for each element

`Walks` is the walk through a document without a number of steps: it goes on until there is nothing
to be met, and every node that it makes is attached to nodes that exist. **The walk comes to such an
end whatever the elements have inside** (`Ingest.walks_walk`), since an element is met at the
expense of what has not been met.

`Stem` is what a node is made for, an element in the node of another one, and never changes. One
element that is met makes one node or none, and `Seats` says of what kind: a node that stands for
the element, last among the children of its parent, and either last in a run or excluded
(`Ingest.seats_meet`).
-/

namespace ViewCompiler

open NodeTree Sown

/-- What a node is made for. -/
structure Stem where
  parent : Option NodeId
  element : Option Handle
  deriving DecidableEq

def Node.stem (n : Node) : Stem := ⟨n.parent, n.element⟩

namespace NodeTree

variable {t t' : NodeTree}

def stem? (t : NodeTree) (i : NodeId) : Option Stem := (t.get? i).map Node.stem

theorem stem?_of_get? {i : NodeId} {n : Node} (h : t.get? i = some n) :
    t.stem? i = some n.stem := by
  rw [stem?, h, Option.map_some]

theorem lt_size_of_stem? {i : NodeId} {s : Stem} (h : t.stem? i = some s) : i < t.size := by
  obtain ⟨n, hn, -⟩ := Option.map_eq_some_iff.1 h
  exact lt_size_of_get? hn

/-- A change of a node changes its stem only. -/
theorem stem?_modify_of (t : NodeTree) (id : NodeId) {f : Node → Node} (g : Stem → Stem)
    (hstem : ∀ n, (f n).stem = g n.stem) (i : NodeId) :
    (t.modify id f).stem? i = if i = id then (t.stem? i).map g else t.stem? i :=
  view?_modify_of t id g hstem i

theorem stem?_modify (t : NodeTree) (id : NodeId) {f : Node → Node}
    (hstem : ∀ n, (f n).stem = n.stem) (i : NodeId) : (t.modify id f).stem? i = t.stem? i :=
  view?_modify t id hstem i

theorem stem?_alloc (t : NodeTree) (kind : NodeKind) (tag : String) (i : NodeId) :
    (t.alloc kind tag).2.stem? i = if i = t.size then some ⟨none, none⟩ else t.stem? i := by
  rw [stem?, stem?, get?_alloc]
  split <;> rfl

/-- Attaching a node gives it a parent. -/
theorem stem?_attach {parent child : NodeId} {layoutParent : Option NodeId}
    (hchild : child < t.size) (hparent : parent < t.size)
    (hlayout : ∀ p, layoutParent = some p → p < t.size) (i : NodeId) :
    (t.attach parent child layoutParent).2.stem? i =
      if i = child then (t.stem? i).map fun s ↦ { s with parent := some parent }
      else t.stem? i := by
  obtain ⟨index, hattach⟩ := attach_eq hchild hparent hlayout
  have hfirst : ∀ i, (t.modify parent (addChild child)).stem? i = t.stem? i :=
    stem?_modify t parent fun _ ↦ rfl
  rw [hattach, stem?_modify_of _ child (f := under _ _ _ _)
    (fun s ↦ { s with parent := some parent }) fun _ ↦ rfl]
  cases layoutParent with
  | none => rw [hfirst]
  | some p =>
    dsimp only
    rw [stem?_modify _ p (f := addMember child) fun _ ↦ rfl, hfirst]

theorem stem?_grafted (t : NodeTree) (kind : NodeKind) (tag : String) {parent : NodeId}
    {layoutParent : Option NodeId} (hparent : parent < t.size)
    (hlayout : ∀ p, layoutParent = some p → p < t.size) (i : NodeId) :
    (grafted t kind tag parent layoutParent).stem? i =
      if i = t.size then some ⟨some parent, none⟩ else t.stem? i := by
  have hsize : t.size < (t.alloc kind tag).2.size := by
    rw [size_alloc]
    exact Nat.lt_succ_self _
  rw [grafted, stem?_attach hsize (Nat.lt_trans hparent hsize)
    (fun p hp ↦ Nat.lt_trans (hlayout p hp) hsize), stem?_alloc]
  split <;> rfl

/-- A node can be attached to nodes that exist. -/
theorem attach_ok {parent child : NodeId} {layoutParent : Option NodeId} (hchild : child < t.size)
    (hparent : parent < t.size) (hlayout : ∀ p, layoutParent = some p → p < t.size) :
    (t.attach parent child layoutParent).1 = .ok () := by
  obtain ⟨c, hc⟩ := exists_get? hchild
  obtain ⟨p, hp⟩ := exists_get? hparent
  rw [NodeTree.attach, hc, hp]
  cases layoutParent with
  | none => rfl
  | some l =>
    obtain ⟨above, habove⟩ : ∃ above, (t.modify parent (addChild child)).get? l = some above := by
      refine exists_get? ?_
      rw [size_modify]
      exact hlayout l rfl
    dsimp only
    rw [habove]

end NodeTree

namespace Ingest

/-! ### One element -/

theorem stem?_fill (s : State) (id : NodeId) (element : Handle) (m : BoxMeasure) (i : NodeId) :
    (fill s id element m).tree.stem? i =
      if i = id then (s.tree.stem? i).map fun s ↦ { s with element := some element }
      else s.tree.stem? i := by
  rw [fill]
  dsimp only
  rw [stem?_modify_of _ id (fun s ↦ { s with element := some element }) fun _ ↦ rfl, tree_report]

/-- A tree with one more node, made for an element that was to be met. -/
structure Seats (t t' : NodeTree) (task : Task) (run : Option NodeId) (excluded : Bool) :
    Prop where
  stem : ∀ i, t'.stem? i =
    if i = t.size then some ⟨some task.parent, some task.element⟩ else t.stem? i
  links : ∃ kind depth, kind.isTop = false ∧ ∀ i, t'.links? i =
    if i = t.size then some ⟨kind, depth, excluded, run, [], []⟩
    else (t.links? i).map (attached task.parent t.size depth run i)

section

variable {t t' : NodeTree} {task : Task} {run : Option NodeId} {excluded : Bool}

/-- A new node that is changed when it has been attached. -/
theorem seats_grafted (kind : NodeKind) (tag : String) (hkind : kind.isTop = false)
    (hparent : task.parent < t.size) (hrun : ∀ p, run = some p → p < t.size) (excluded : Bool)
    {f : Node → Node} (hstem : ∀ n, (f n).stem = ⟨n.parent, some task.element⟩)
    (hlinks : ∀ n, (f n).links = { n.links with excluded := n.excluded || excluded }) :
    Seats t ((grafted t kind tag task.parent run).modify t.size f) task run excluded where
  stem i := by
    rw [stem?_modify_of _ t.size (fun s ↦ ⟨s.parent, some task.element⟩) hstem,
      stem?_grafted t kind tag hparent hrun]
    split <;> rfl
  links := by
    refine ⟨kind, t.depthOf (run.getD task.parent) + 1, hkind, fun i ↦ ?_⟩
    rw [links?_modify_of _ t.size (fun l ↦ { l with excluded := l.excluded || excluded }) hlinks,
      links?_grafted kind tag hparent hrun]
    split
    · simp
    · rfl

/-- The new node is excluded afterwards. -/
theorem Seats.exclude (h : Seats t t' task run excluded) :
    Seats t (t'.modify t.size fun n ↦ { n with excluded := true }) task run true where
  stem i := by
    rw [stem?_modify _ t.size fun _ ↦ by rfl]
    exact h.stem i
  links := by
    obtain ⟨kind, depth, hkind, hlinks⟩ := h.links
    refine ⟨kind, depth, hkind, fun i ↦ ?_⟩
    rw [links?_modify_of _ t.size (fun l ↦ { l with excluded := true }) fun _ ↦ rfl, hlinks]
    split <;> rfl

end

namespace Seats

variable {t t' : NodeTree} {task : Task} {run : Option NodeId} {excluded : Bool}
  (h : Seats t t' task run excluded)

include h

theorem links?_new : ∃ kind depth, kind.isTop = false ∧
    t'.links? t.size = some ⟨kind, depth, excluded, run, [], []⟩ := by
  obtain ⟨kind, depth, hkind, hlinks⟩ := h.links
  exact ⟨kind, depth, hkind, (hlinks _).trans (if_pos rfl)⟩

theorem links?_old {i : NodeId} {l : Links} (hl : t.links? i = some l) :
    ∃ depth, t'.links? i = some (attached task.parent t.size depth run i l) := by
  obtain ⟨kind, depth, -, hlinks⟩ := h.links
  exact ⟨depth, by rw [hlinks, if_neg (Nat.ne_of_lt (lt_size_of_links? hl)), hl, Option.map_some]⟩

/-- There are the new node and those before. -/
theorem links?_cases {i : NodeId} {l' : Links} (hl' : t'.links? i = some l') :
    (i = t.size ∧ ∃ kind depth, kind.isTop = false ∧ l' = ⟨kind, depth, excluded, run, [], []⟩) ∨
      i ≠ t.size ∧ ∃ l depth, t.links? i = some l ∧
        l' = attached task.parent t.size depth run i l := by
  obtain ⟨kind, depth, hkind, hlinks⟩ := h.links
  rw [hlinks] at hl'
  split at hl'
  · exact .inl ⟨‹_›, kind, depth, hkind, (Option.some.inj hl').symm⟩
  · obtain ⟨l, hl, rfl⟩ := Option.map_eq_some_iff.1 hl'
    exact .inr ⟨‹_›, l, depth, hl, rfl⟩

theorem stem?_new : t'.stem? t.size = some ⟨some task.parent, some task.element⟩ := by
  rw [h.stem, if_pos rfl]

theorem stem?_old {i : NodeId} (hi : i < t.size) : t'.stem? i = t.stem? i := by
  rw [h.stem, if_neg (Nat.ne_of_lt hi)]

theorem stem?_cases {i : NodeId} {s : Stem} (hs : t'.stem? i = some s) :
    (i = t.size ∧ s = ⟨some task.parent, some task.element⟩) ∨ t.stem? i = some s := by
  rw [h.stem] at hs
  split at hs
  · exact .inl ⟨‹_›, (Option.some.inj hs).symm⟩
  · exact .inr hs

theorem kept : Kept t t' := fun i l hl ↦ by
  obtain ⟨depth, hl'⟩ := h.links?_old hl
  refine ⟨_, hl', rfl, ?_⟩
  simp [attached, Nat.ne_of_lt (lt_size_of_links? hl)]

theorem lt_size : t.size < t'.size := by
  obtain ⟨kind, depth, -, hnew⟩ := h.links?_new
  exact lt_size_of_links? hnew

end Seats

section Meet

variable (p : Provider) (s : State) (task : Task) (hparent : task.parent < s.tree.size)
  (hlayout : task.layoutParent < s.tree.size)

include hparent

/-- An element that was measured, with a box or without. -/
theorem seats_elementNode (m : BoxMeasure) {run : Option NodeId}
    (hrun : ∀ p, run = some p → p < s.tree.size) :
    Seats s.tree (elementNode s task m run).tree task run false := by
  rw [elementNode, fill]
  dsimp only
  rw [tree_report]
  exact seats_grafted .element _ rfl hparent hrun false (fun _ ↦ rfl) fun n ↦ by
    simp [Node.links]

include hlayout

/-- **One element makes one node or none.** If it makes one then what is inside the element is to be
met in this node, and in its run or, if it is in none, in the run that it could have been in. -/
theorem seats_meet :
    (meet p s task).1.tree = s.tree ∧ (meet p s task).2 = [] ∨
      ∃ joins : Bool,
        Seats s.tree (meet p s task).1.tree task (if joins then some task.layoutParent else none)
          (!joins) ∧
        ((meet p s task).2 = [] ∨ (meet p s task).2 = tasks p s.tree.size
          (if joins then s.tree.size else task.layoutParent) task.element) := by
  have hnone : ∀ q, (none : Option NodeId) = some q → q < s.tree.size := by simp
  have hsome : ∀ q, some task.layoutParent = some q → q < s.tree.size :=
    fun q hq ↦ Option.some.inj hq ▸ hlayout
  have hhide : ∀ m, Seats s.tree (hide (elementNode s task m none) s.tree.size).tree task none
      true := fun m ↦ (seats_elementNode s task hparent m hnone).exclude
  rw [meet]
  split
  · refine .inr ⟨false, ?_, .inl rfl⟩
    exact seats_grafted .element "" rfl hparent hnone true (fun _ ↦ rfl) fun n ↦ by
      simp [Node.links]
  · rename_i m _
    split
    · rw [meetText]
      dsimp only
      split
      · exact .inl ⟨rfl, rfl⟩
      · refine .inr ⟨true, ?_, .inl rfl⟩
        exact seats_grafted .text textTag rfl hparent hsome false (fun _ ↦ rfl) fun n ↦ by
          simp [Node.links]
    · rw [meetElement_eq]
      split
      · exact .inr ⟨false, hhide m, .inl rfl⟩
      · exact .inr ⟨false, hhide m, .inr rfl⟩
      · exact .inr ⟨true, seats_elementNode s task hparent m hsome, .inr rfl⟩

end Meet

/-- What is inside an element goes to the new node, and what is still to be met goes where it
did. -/
theorem ready_meet (p : Provider) (s : State) {task : Task}
    (hat : Attachable s.tree task.parent task.layoutParent) :
    Kept s.tree (meet p s task).1.tree ∧ Ready (meet p s task).1.tree (meet p s task).2 := by
  have hnone : Ready (meet p s task).1.tree [] := fun _ hmem ↦ absurd hmem List.not_mem_nil
  obtain ⟨htree, hinner⟩ | ⟨joins, hseats, hinner⟩ :=
    seats_meet p s task hat.parent_lt hat.layoutParent_lt
  · rw [htree, hinner]
    exact ⟨.refl _, fun _ hmem ↦ absurd hmem List.not_mem_nil⟩
  refine ⟨hseats.kept, ?_⟩
  rcases hinner with hinner | hinner
  · exact hinner ▸ hnone
  rw [hinner]
  refine ready_tasks p ?_ _
  cases joins with
  | true => exact attachable_self hseats.lt_size
  | false =>
    -- the new node is in no run, and what is inside it does not join its own
    obtain ⟨kind, depth, hkind, hnew⟩ := hseats.links?_new
    refine ⟨hseats.lt_size, hseats.kept.lt_size hat.layoutParent_lt, fun l hl hin ↦ ?_⟩
    obtain rfl := Option.some.inj (hnew.symm.trans hl)
    rcases hin with rfl | hin
    · exact absurd hkind (by decide)
    · exact absurd rfl hin

/-! ### The walk -/

/-- The walk through a document, from some elements that are to be met to its end. -/
inductive Walks (p : Provider) : State → List Task → State → Prop
  | done {s : State} : Walks p s [] s
  /-- An element that has been met is passed over. -/
  | again {s s' : State} {task : Task} {rest : List Task} (old : task.element ∈ s.visited)
      (others : Walks p s rest s') : Walks p s (task :: rest) s'
  /-- Another one is met. If a node is made then it can be attached. -/
  | meets {s s' : State} {task : Task} {rest : List Task} (new : task.element ∉ s.visited)
      (attaches : ∀ kind tag run, run = none ∨ run = some task.layoutParent →
        ((s.tree.alloc kind tag).2.attach task.parent s.tree.size run).1 = .ok ())
      (others : Walks p (meet p { s with visited := task.element :: s.visited } task).1
        ((meet p { s with visited := task.element :: s.visited } task).2 ++ rest) s') :
      Walks p s (task :: rest) s'

/-- There is one way to walk. -/
theorem Walks.unique {p : Provider} {s s' s'' : State} {ts : List Task} (h : Walks p s ts s')
    (h' : Walks p s ts s'') : s'' = s' := by
  induction h with
  | done => cases h'; rfl
  | again old _ ih =>
    cases h' with
    | again _ others => exact ih others
    | meets new _ _ => exact absurd old new
  | meets new _ _ ih =>
    cases h' with
    | again old _ => exact absurd old new
    | meets _ _ others => exact ih others

/-- **The walk comes to its end.** Each element that is met makes what is left to be met less, and
the number of steps is enough for all of them. -/
theorem walks_walk (p : Provider) {fuel : Nat} {s : State} {ts : List Task}
    (hfuel : potential p s.visited + ts.length ≤ fuel) (hready : Ready s.tree ts) :
    Walks p s ts (walk p fuel s ts) := by
  induction fuel generalizing s ts with
  | zero =>
    obtain rfl : ts = [] := List.eq_nil_of_length_eq_zero (by omega)
    rw [walk]
    exact .done
  | succ fuel ih =>
    cases ts with
    | nil =>
      rw [walk]
      exact .done
    | cons task rest =>
      rw [List.length_cons] at hfuel
      have hat := hready task List.mem_cons_self
      have hrest : Ready s.tree rest := fun task htask ↦
        hready task (List.mem_cons_of_mem _ htask)
      by_cases hold : task.element ∈ s.visited
      · rw [walk_old hold]
        exact .again hold (ih (by omega) hrest)
      have hless := potential_cons p hold
      have hlength := length_meet_le p { s with visited := task.element :: s.visited } task
      obtain ⟨hkept, hinner⟩ := ready_meet p { s with visited := task.element :: s.visited } hat
      rw [walk_new hold]
      refine .meets hold (fun kind tag run hrun ↦ ?_) (ih ?_ fun task htask ↦ ?_)
      · have hsize : s.tree.size < (s.tree.alloc kind tag).2.size := by
          rw [size_alloc]
          exact Nat.lt_succ_self _
        refine attach_ok hsize (Nat.lt_trans hat.parent_lt hsize) fun q hq ↦ ?_
        rcases hrun with rfl | rfl
        · exact absurd hq (by simp)
        · exact Option.some.inj hq ▸ Nat.lt_trans hat.layoutParent_lt hsize
      · rw [visited_meet, List.length_append]
        show potential p (task.element :: s.visited) + _ ≤ fuel
        omega
      · rcases List.mem_append.1 htask with htask | htask
        · exact hinner task htask
        · exact hrest.kept hkept task htask

end Ingest

end ViewCompiler
