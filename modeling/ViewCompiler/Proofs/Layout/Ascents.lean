import ViewCompiler.Layout.Walk
import ViewCompiler.Proofs.Layout.Links
import ViewCompiler.Proofs.Trail

/-!
# Walks upwards in any tree

A walk upwards follows one kind of link from node to node, and is a trail in the sense of `Trail`:
the bound on its steps is never reached (`NodeTree.climb_eq_answer`), since it goes through
different nodes of the tree. Nothing else of the tree is used. Links may lead to numbers that no
node has, and round in loops that the node at the start need not be on.

What a walk answers can be told from the links alone (`NodeTree.answersUpwards`): that it has gone
through all nodes up to one without a link, that the same node comes after two different numbers of
links, or that a number comes that no node has. In a tree whose links are known to lead to the top,
what they lead to is all that is needed (`NodeTree.chain_eq_of_upward`).
-/

namespace ViewCompiler

/-! ### Up to a node without a link -/

/-- A node with everything that links lead to, up to a node without a link. -/
inductive Upward (link : NodeId → Option NodeId) : NodeId → List NodeId → Prop
  | last {i : NodeId} (top : link i = none) : Upward link i [i]
  | step {i p : NodeId} {l : List NodeId} (next : link i = some p) (above : Upward link p l) :
      Upward link i (i :: l)

namespace Upward

variable {link : NodeId → Option NodeId} {i j : NodeId} {l : List NodeId}

theorem cons_tail (h : Upward link i l) : l = i :: l.tail := by
  cases h <;> rfl

/-- Links lead one way. -/
theorem unique {l' : List NodeId} (h : Upward link i l) (h' : Upward link i l') : l = l' := by
  induction h generalizing l' with
  | last top =>
    cases h' with
    | last => rfl
    | step next _ => exact absurd (top.symm.trans next) (by simp)
  | step next above ih =>
    cases h' with
    | last top => exact absurd (top.symm.trans next) (by simp)
    | step next' above' =>
      obtain rfl := Option.some.inj (next.symm.trans next')
      rw [ih above']

theorem exists_suffix_of_mem (h : Upward link i l) (hj : j ∈ l) :
    ∃ above, above <:+ l ∧ Upward link j above := by
  induction h with
  | @last i top =>
    obtain rfl := List.mem_singleton.1 hj
    exact ⟨[j], List.suffix_refl _, .last top⟩
  | @step i p l next above ih =>
    rcases List.mem_cons.1 hj with rfl | hj
    · exact ⟨j :: l, List.suffix_refl _, .step next above⟩
    · obtain ⟨r, hr, hup⟩ := ih hj
      exact ⟨r, hr.trans (List.suffix_cons i l), hup⟩

/-- **A walk that ends goes through different nodes**, since from each node there is one way on. -/
theorem nodup (h : Upward link i l) : l.Nodup := by
  induction h with
  | last => exact List.nodup_singleton _
  | @step i p l next above ih =>
    refine List.nodup_cons.2 ⟨fun hi ↦ ?_, ih⟩
    obtain ⟨r, hr, hup⟩ := above.exists_suffix_of_mem hi
    obtain rfl := hup.unique (.step next above)
    exact absurd hr.length_le (by simp)

end Upward

namespace Trail

variable {links : NodeId → Option (Option NodeId)} {seen l : List NodeId} {i : NodeId}
  {e : TrailEnd NodeId}

theorem upward (h : Trail links seen i l e) (he : e = .top) :
    Upward (fun i ↦ (links i).join) i l := by
  induction h with
  | met => exact absurd he (by simp)
  | missing => exact absurd he (by simp)
  | top _ last => exact .last (by rw [last]; rfl)
  | step _ link _ ih => exact .step (by rw [link]; rfl) (ih he)

/-- **A trail runs through** where links lead to a node without one. -/
theorem eq_of_upward (h : Trail links seen i l e) {l' : List NodeId}
    (hup : Upward (fun i ↦ (links i).join) i l') (hknown : ∀ x ∈ l', links x ≠ none)
    (hseen : ∀ x ∈ l', x ∉ seen) : l = l' ∧ e = .top := by
  induction h generalizing l' with
  | met old =>
    rw [hup.cons_tail] at hseen
    exact absurd old (hseen _ List.mem_cons_self)
  | missing _ unknown =>
    rw [hup.cons_tail] at hknown
    exact absurd unknown (hknown _ List.mem_cons_self)
  | top _ last =>
    cases hup with
    | last => exact ⟨rfl, rfl⟩
    | step next => exact absurd next (by simp [last])
  | @step seen l i p e new link rest ih =>
    have hnodup := hup.nodup
    cases hup with
    | last top => exact absurd top (by simp [link])
    | @step _ q r next above =>
      obtain rfl : p = q := by simpa [link] using next
      obtain ⟨rfl, rfl⟩ := ih above (fun x hx ↦ hknown x (List.mem_cons_of_mem i hx)) fun x hx ↦ by
        rw [List.mem_cons, not_or]
        exact ⟨fun heq ↦ (List.nodup_cons.1 hnodup).1 (heq ▸ hx), hseen x (.tail i hx)⟩
      exact ⟨rfl, rfl⟩

end Trail

/-! ### The walk -/

/-- What a walk upwards from a node answers that has gone through some nodes. -/
def TrailEnd.answer (start : NodeId) (ids : List NodeId) :
    TrailEnd NodeId → Except TreeError (List NodeId)
  | top => .ok ids
  | missing i => .error (.unknownNode i)
  | met _ => .error (.ancestorCycle start)

namespace NodeTree

variable {t : NodeTree} {link : Node → Option NodeId} {start : NodeId}

theorem view?_eq_none_iff {i : NodeId} : t.view? link i = none ↔ t.size ≤ i :=
  Option.map_eq_none_iff.trans get?_eq_none_iff

theorem join_view? (i : NodeId) : (t.view? link i).join = (t.get? i).bind link := by
  rw [view?]
  cases t.get? i <;> rfl

/-- **The bound of the walk upwards is not reached.** -/
theorem climb_eq_answer {seen l : List NodeId} {i : NodeId} {e : TrailEnd NodeId}
    (h : Trail (t.view? link) seen i l e) {fuel : Nat} (hfuel : l.length ≤ fuel) :
    t.climb link start (fuel + 1) seen i = e.answer start l := by
  induction h generalizing fuel with
  | met old =>
    rw [climb, if_pos (List.contains_iff_mem.2 old)]
    rfl
  | missing new unknown =>
    rw [climb, if_neg (mt List.contains_iff_mem.1 new), Option.map_eq_none_iff.1 unknown]
    rfl
  | top new last =>
    obtain ⟨n, hn, hlink⟩ := Option.map_eq_some_iff.1 last
    rw [climb, if_neg (mt List.contains_iff_mem.1 new), hn]
    simp only [hlink]
    rfl
  | @step seen l i p e new further rest ih =>
    obtain ⟨fuel, rfl⟩ : ∃ n, fuel = n + 1 := ⟨fuel - 1, by simp at hfuel; omega⟩
    obtain ⟨n, hn, hlink⟩ := Option.map_eq_some_iff.1 further
    rw [climb, if_neg (mt List.contains_iff_mem.1 new), hn]
    simp only [hlink]
    rw [ih (by simpa using hfuel)]
    cases e <;> rfl

variable (t link) in
/-- **A walk upwards comes to an end**, whatever the links are. -/
theorem exists_trail_chain (id : NodeId) :
    ∃ l e, Trail (t.view? link) [] id l e ∧ t.chain link id = e.answer id l := by
  have hsupport : ∀ i, t.view? link i ≠ none → i ∈ List.range t.size := fun i hi ↦ by
    exact List.mem_range.2 (Nat.lt_of_not_le (mt view?_eq_none_iff.2 hi))
  obtain ⟨l, e, h⟩ := exists_trail hsupport .nil (List.nil_subset _) id
  exact ⟨l, e, h, climb_eq_answer h (by simpa using h.length_le hsupport)⟩

/-- **A walk runs through** nodes that lead to one without a link. -/
theorem chain_eq_of_upward {id : NodeId} {l : List NodeId}
    (hup : Upward (fun i ↦ (t.get? i).bind link) id l) (hlt : ∀ i ∈ l, i < t.size) :
    t.chain link id = .ok l := by
  obtain ⟨l', e, htrail, hchain⟩ := t.exists_trail_chain link id
  rw [← funext join_view?] at hup
  obtain ⟨rfl, rfl⟩ := htrail.eq_of_upward hup
    (fun x hx ↦ mt view?_eq_none_iff.1 (Nat.not_le.2 (hlt x hx))) (by simp)
  exact hchain

end NodeTree

/-! ### The answers -/

/-- **What a walk upwards answers**, in which `read` takes what is asked for from the nodes that it
goes through, that at the start included. -/
structure AnswersUpwards {α : Type} (t : NodeTree) (link : Node → Option NodeId) (start : NodeId)
    (read : List NodeId → α) (answer : Except TreeError α) : Prop where
  /-- The walk ends, and without a bound on its steps. -/
  ends : ∃ l e, Trail (t.view? link) [] start l e ∧ answer = (e.answer start l).map read
  /-- Links lead over nodes of the tree to one without a link. -/
  ok_iff : ∀ a, answer = .ok a ↔ ∃ l, Upward (fun i ↦ (t.get? i).bind link) start l ∧
    (∀ i ∈ l, i < t.size) ∧ read l = a
  /-- The same node comes after two different numbers of links. -/
  cycle_iff : answer = .error (.ancestorCycle start) ↔ ∃ j k x, j < k ∧
    follow? (t.view? link) j start = some x ∧ follow? (t.view? link) k start = some x
  /-- Links lead to a number that no node has. -/
  unknown_iff : ∀ x, answer = .error (.unknownNode x) ↔
    t.size ≤ x ∧ ∃ k, follow? (t.view? link) k start = some x
  /-- There are no other errors. -/
  only : ∀ error, answer = .error error →
    error = .ancestorCycle start ∨ ∃ x, error = .unknownNode x

namespace NodeTree

/-- **A walk upwards answers by the links alone.** -/
theorem answersUpwards {α : Type} (t : NodeTree) (link : Node → Option NodeId) (id : NodeId)
    (read : List NodeId → α) : AnswersUpwards t link id read ((t.chain link id).map read) := by
  obtain ⟨l, e, htrail, hchain⟩ := t.exists_trail_chain link id
  refine ⟨⟨l, e, htrail, by rw [hchain]⟩, fun a ↦ ⟨fun hok ↦ ?_, ?_⟩, ?_, fun x ↦ ?_,
    fun error herror ↦ ?_⟩
  · rw [hchain] at hok
    cases e with
    | top =>
      rw [← funext join_view?]
      refine ⟨l, htrail.upward rfl, fun i hi ↦ ?_, Except.ok.inj hok⟩
      exact Nat.lt_of_not_le (mt view?_eq_none_iff.2 (htrail.known i hi))
    | missing => exact absurd hok (by simp [TrailEnd.answer, Except.map])
    | met => exact absurd hok (by simp [TrailEnd.answer, Except.map])
  · rintro ⟨l', hup, hlt, rfl⟩
    rw [chain_eq_of_upward hup hlt]
    rfl
  · rw [hchain, ← htrail.met_iff]
    cases e <;> simp [TrailEnd.answer, Except.map]
  · have hunknown : t.view? link x = none ↔ t.size ≤ x := view?_eq_none_iff
    rw [hchain, ← hunknown, ← htrail.missing_iff]
    cases e <;> simp [TrailEnd.answer, Except.map]
  · rw [hchain] at herror
    cases e with
    | top => exact absurd herror (by simp [TrailEnd.answer, Except.map])
    | missing x => exact .inr ⟨x, (Except.error.inj herror).symm⟩
    | met => exact .inl (Except.error.inj herror).symm

theorem ancestors_eq_map (t : NodeTree) (id : NodeId) :
    t.ancestors id = (t.chain Node.documentParent id).map List.tail := by
  rw [ancestors]
  cases t.chain Node.documentParent id <;> rfl

theorem documentOf_eq_map (t : NodeTree) (id : NodeId) :
    t.documentOf id = (t.chain Node.parent id).map fun l ↦ l.getLastD id := by
  rw [documentOf]
  cases t.chain Node.parent id <;> rfl

/-- **Walks upwards end, and tell loops from ways out of the tree.** In any tree, with any links,
and from any number, the layout ancestors of a node are answered exactly if its layout parents are
nodes up to one without a layout parent, and are then all of these; a loop is reported exactly if
the walk comes to a node a second time, which may be that at the start, and an unknown node exactly
if it comes to a number that no node has. The document of a node is answered in the same way over
the parents in the source, as the last node of the walk. -/
theorem walks_upwards (t : NodeTree) (id : NodeId) :
    AnswersUpwards t Node.documentParent id List.tail (t.ancestors id) ∧
      AnswersUpwards t Node.parent id (fun l ↦ l.getLastD id) (t.documentOf id) := by
  rw [ancestors_eq_map, documentOf_eq_map]
  exact ⟨t.answersUpwards _ id _, t.answersUpwards _ id _⟩

-- up to the root, into a loop that the node at the start is not on, and out of the tree
example :
    let t := [(1, 0), (2, 1), (3, 4), (4, 5), (5, 4), (6, 9)].foldl
      (fun t (i, p) ↦ t.modify i fun n ↦ { n with documentParent := some p })
      ((List.range 7).foldl (fun t _ ↦ (t.alloc .element "div").2) empty)
    t.ancestors 2 = .ok [1, 0] ∧ t.ancestors 3 = .error (.ancestorCycle 3) ∧
      t.ancestors 6 = .error (.unknownNode 9) := by
  decide +kernel

end NodeTree

end ViewCompiler
