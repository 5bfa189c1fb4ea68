import ViewCompiler.Proofs.Layout.Flattened
import ViewCompiler.Proofs.Layout.Sprouting
import ViewCompiler.Proofs.Layout.Stems

/-!
# Documents are trees, whatever the provider has inside what

The elements of a provider need not be a tree. An element can be inside two others, twice inside
one, or inside itself. The nodes made of a document are a tree all the same
(`Ingest.uses_each_once`): no two of them are made for one element, every node but the root is
listed once by its parent and by no other node, the parents lead to the root, and below the root no
node is found twice and none that is excluded.

`Branched` is what holds of the nodes from the root on at every step of the walk and after it.
Nothing is asked of the nodes in front of the root, which stay as they are. A step of the walk makes
one node of an element that has not been met (`Branched.seat`), and a change after the walk empties
runs and excludes nodes that are in no other run (`Branched.prune`).
-/

namespace ViewCompiler

open NodeTree Sown Ingest

/-- The nodes of a document, from its root on, when some elements have been met. -/
structure Branched (root : NodeId) (met : List Handle) (t : NodeTree) : Prop where
  top : ∃ l, t.links? root = some l ∧ l.kind = .root ∧ l.excluded = false
  first : ∀ s, t.stem? root = some s → s.parent = none
  element : ∀ i s, root ≤ i → t.stem? i = some s → ∃ x ∈ met, s.element = some x
  distinct : ∀ i j s s', root ≤ i → root ≤ j → t.stem? i = some s → t.stem? j = some s' →
    s.element = s'.element → i = j
  parent : ∀ i s, root < i → t.stem? i = some s →
    ∃ q l, root ≤ q ∧ s.parent = some q ∧ t.links? q = some l ∧ i ∈ l.children
  child : ∀ q l, root ≤ q → t.links? q = some l →
    l.children.Nodup ∧ ∀ c ∈ l.children, q < c ∧ ∃ s, t.stem? c = some s ∧ s.parent = some q
  /-- A child of a node that takes part in the layout is in its run or in none. -/
  own : ∀ q l, root ≤ q → t.links? q = some l → l.kind = .root ∨ l.documentParent ≠ none →
    ∀ c ∈ l.children, ∃ m, t.links? c = some m ∧
      (m.documentParent = none ∨ m.documentParent = some q)
  member : ∀ q l, root ≤ q → t.links? q = some l →
    l.layoutChildren.Nodup ∧ ∀ c ∈ l.layoutChildren,
      q < c ∧ ∃ m, t.links? c = some m ∧ m.documentParent = some q ∧ m.excluded = false

namespace Branched

variable {root : NodeId} {met : List Handle} {t t' : NodeTree}

theorem lt (h : Branched root met t) : root < t.size := by
  obtain ⟨l, hl, -⟩ := h.top
  exact lt_size_of_links? hl

theorem child_lt (h : Branched root met t) {q : NodeId} {l : Links} (hq : root ≤ q)
    (hl : t.links? q = some l) {c : NodeId} (hc : c ∈ l.children) : c < t.size := by
  obtain ⟨-, s, hs, -⟩ := (h.child q l hq hl).2 c hc
  exact lt_size_of_stem? hs

theorem member_lt (h : Branched root met t) {q : NodeId} {l : Links} (hq : root ≤ q)
    (hl : t.links? q = some l) {c : NodeId} (hc : c ∈ l.layoutChildren) : c < t.size := by
  obtain ⟨-, m, hm, -⟩ := (h.member q l hq hl).2 c hc
  exact lt_size_of_links? hm

/-- Other elements have been met as well. -/
theorem mono (h : Branched root met t) {met' : List Handle} (hsub : met ⊆ met') :
    Branched root met' t :=
  { h with
    element i s hi hs := by
      obtain ⟨x, hx, hs⟩ := h.element i s hi hs
      exact ⟨x, hsub hx, hs⟩ }

/-! ### A new node -/

section Seat

variable (h : Branched root met t) {task : Task} {joins : Bool}
  (hseats : Seats t t' task (if joins then some task.layoutParent else none) (!joins))

include h hseats

theorem element_seat (i : NodeId) (s : Stem) (hi : root ≤ i) (hs : t'.stem? i = some s) :
    ∃ x ∈ task.element :: met, s.element = some x := by
  rcases hseats.stem?_cases hs with ⟨-, rfl⟩ | hs
  · exact ⟨_, List.mem_cons_self, rfl⟩
  · obtain ⟨x, hx, hs⟩ := h.element i s hi hs
    exact ⟨x, List.mem_cons_of_mem _ hx, hs⟩

theorem distinct_seat (hnew : task.element ∉ met) (i j : NodeId) (s s' : Stem) (hi : root ≤ i)
    (hj : root ≤ j) (hs : t'.stem? i = some s) (hs' : t'.stem? j = some s')
    (heq : s.element = s'.element) : i = j := by
  -- an old node stands for an element that has been met
  have hold : ∀ i s, root ≤ i → t.stem? i = some s → s.element ≠ some task.element := by
    intro i s hi hs hx
    obtain ⟨x, hmem, hs⟩ := h.element i s hi hs
    exact hnew (Option.some.inj (hx.symm.trans hs) ▸ hmem)
  rcases hseats.stem?_cases hs with ⟨rfl, rfl⟩ | hs <;>
    rcases hseats.stem?_cases hs' with ⟨rfl, rfl⟩ | hs'
  · rfl
  · exact absurd heq.symm (hold j s' hj hs')
  · exact absurd heq (hold i s hi hs)
  · exact h.distinct i j s s' hi hj hs hs' heq

theorem parent_seat (hparent : root ≤ task.parent) (hlt : task.parent < t.size) (i : NodeId)
    (s : Stem) (hi : root < i) (hs : t'.stem? i = some s) :
    ∃ q l, root ≤ q ∧ s.parent = some q ∧ t'.links? q = some l ∧ i ∈ l.children := by
  rcases hseats.stem?_cases hs with ⟨rfl, rfl⟩ | hs
  · obtain ⟨n, hn⟩ := exists_get? hlt
    obtain ⟨depth, hl⟩ := hseats.links?_old (links?_of_get? hn)
    refine ⟨task.parent, _, hparent, rfl, hl, ?_⟩
    simp [attached]
  · obtain ⟨q, l, hq, hsq, hl, hmem⟩ := h.parent i s hi hs
    obtain ⟨depth, hl'⟩ := hseats.links?_old hl
    refine ⟨q, _, hq, hsq, hl', ?_⟩
    simp only [attached]
    split
    · exact List.mem_append_left _ hmem
    · exact hmem

/-- The new node is the last child of its parent. -/
theorem child_seat (q : NodeId) (l' : Links) (hq : root ≤ q) (hl' : t'.links? q = some l') :
    l'.children.Nodup ∧
      ∀ c ∈ l'.children, q < c ∧ ∃ s, t'.stem? c = some s ∧ s.parent = some q := by
  obtain ⟨-, kind, depth, -, rfl⟩ | ⟨hne, l, depth, hl, rfl⟩ := hseats.links?_cases hl'
  · exact ⟨.nil, fun c hc ↦ absurd hc List.not_mem_nil⟩
  obtain ⟨hnodup, hchild⟩ := h.child q l hq hl
  have hold : ∀ c ∈ l.children, q < c ∧ ∃ s, t'.stem? c = some s ∧ s.parent = some q := by
    intro c hc
    obtain ⟨hlt, s, hs, hparent⟩ := hchild c hc
    exact ⟨hlt, s, (hseats.stem?_old (lt_size_of_stem? hs)).trans hs, hparent⟩
  simp only [attached]
  split
  · rename_i hparent
    refine ⟨hnodup.append (List.nodup_singleton _) fun c hc hc' ↦ ?_, fun c hc ↦ ?_⟩
    · exact Nat.lt_irrefl _ (List.mem_singleton.1 hc' ▸ h.child_lt hq hl hc)
    · rcases List.mem_append.1 hc with hc | hc
      · exact hold c hc
      · rw [List.mem_singleton.1 hc, hparent]
        exact ⟨hparent ▸ lt_size_of_links? hl, _, hseats.stem?_new, rfl⟩
  · exact ⟨hnodup, hold⟩

theorem own_seat (hat : Attachable t task.parent task.layoutParent) (q : NodeId) (l' : Links)
    (hq : root ≤ q) (hl' : t'.links? q = some l')
    (hin : l'.kind = .root ∨ l'.documentParent ≠ none) :
    ∀ c ∈ l'.children, ∃ m, t'.links? c = some m ∧
      (m.documentParent = none ∨ m.documentParent = some q) := by
  intro c hc
  obtain ⟨-, kind, depth, -, rfl⟩ | ⟨hne, l, depth, hl, rfl⟩ := hseats.links?_cases hl'
  · exact absurd hc List.not_mem_nil
  have hin' : l.kind = .root ∨ l.documentParent ≠ none := by simpa [attached, hne] using hin
  have hmem : c ∈ l.children ∨ q = task.parent ∧ c = t.size := by
    simp only [attached] at hc
    split at hc
    · exact (List.mem_append.1 hc).imp_right fun hc ↦ ⟨‹_›, List.mem_singleton.1 hc⟩
    · exact .inl hc
  rcases hmem with hc | ⟨rfl, rfl⟩
  · obtain ⟨m, hm, hparent⟩ := h.own q l hq hl hin' c hc
    obtain ⟨depth, hm'⟩ := hseats.links?_old hm
    exact ⟨_, hm', by simpa [attached, Nat.ne_of_lt (lt_size_of_links? hm)] using hparent⟩
  · obtain ⟨kind, depth, -, hnew⟩ := hseats.links?_new
    refine ⟨_, hnew, ?_⟩
    -- the parent takes part, so that the new node is in its run if it is in one
    cases joins with
    | true => exact .inr (congrArg some (hat.own l hl hin'))
    | false => exact .inl rfl

/-- The new node is the last one of the run that it joins. -/
theorem member_seat (q : NodeId) (l' : Links) (hq : root ≤ q) (hl' : t'.links? q = some l') :
    l'.layoutChildren.Nodup ∧ ∀ c ∈ l'.layoutChildren,
      q < c ∧ ∃ m, t'.links? c = some m ∧ m.documentParent = some q ∧ m.excluded = false := by
  obtain ⟨-, kind, depth, -, rfl⟩ | ⟨hne, l, depth, hl, rfl⟩ := hseats.links?_cases hl'
  · exact ⟨.nil, fun c hc ↦ absurd hc List.not_mem_nil⟩
  obtain ⟨hnodup, hmember⟩ := h.member q l hq hl
  have hold : ∀ c ∈ l.layoutChildren, q < c ∧ ∃ m, t'.links? c = some m ∧
      m.documentParent = some q ∧ m.excluded = false := by
    intro c hc
    obtain ⟨hlt, m, hm, hparent, hshown⟩ := hmember c hc
    obtain ⟨depth, hm'⟩ := hseats.links?_old hm
    exact ⟨hlt, _, hm', by simp [attached, Nat.ne_of_lt (lt_size_of_links? hm), hparent], hshown⟩
  simp only [attached]
  by_cases hrun : (if joins then some task.layoutParent else none) = some q
  · rw [if_pos hrun]
    refine ⟨hnodup.append (List.nodup_singleton _) fun c hc hc' ↦ ?_, fun c hc ↦ ?_⟩
    · exact Nat.lt_irrefl _ (List.mem_singleton.1 hc' ▸ h.member_lt hq hl hc)
    · rcases List.mem_append.1 hc with hc | hc
      · exact hold c hc
      · rw [List.mem_singleton.1 hc]
        obtain ⟨kind, depth, -, hnew⟩ := hseats.links?_new
        refine ⟨lt_size_of_links? hl, _, hnew, hrun, ?_⟩
        cases joins with
        | true => rfl
        | false => exact absurd hrun (by simp)
  · rw [if_neg hrun]
    exact ⟨hnodup, hold⟩

/-- **One more node**, for an element that has not been met. -/
theorem seat (hat : Attachable t task.parent task.layoutParent) (hparent : root ≤ task.parent)
    (hnew : task.element ∉ met) : Branched root (task.element :: met) t' where
  top := by
    obtain ⟨l, hl, hkind, hshown⟩ := h.top
    obtain ⟨depth, hl'⟩ := hseats.links?_old hl
    exact ⟨_, hl', hkind, hshown⟩
  first s hs := h.first s ((hseats.stem?_old h.lt).symm.trans hs)
  element := h.element_seat hseats
  distinct := h.distinct_seat hseats hnew
  parent := h.parent_seat hseats hparent hat.parent_lt
  child := h.child_seat hseats
  own := h.own_seat hseats hat
  member := h.member_seat hseats

end Seat

/-! ### What is found from the root on -/

theorem hung (h : Branched root met t) : Hung root t where
  lt := h.lt
  member p c hp hc := by
    obtain ⟨n, hn⟩ := exists_get? (lt_size_of_mem_layoutRun hc)
    rw [layoutRun_of_get? hn] at hc
    obtain ⟨hlt, m, hm, hparent, -⟩ := (h.member p _ hp (links?_of_get? hn)).2 c hc
    exact ⟨hlt, by rw [documentParent?, hm]; exact hparent⟩
  nodup p hp := by
    cases hl : t.links? p with
    | none =>
      rw [layoutRun, hl]
      exact .nil
    | some l =>
      rw [layoutRun, hl]
      exact (h.member p l hp hl).1

/-- **The walk downwards** finds nodes that are not excluded and take part in the layout. -/
theorem exists_layoutSubtree (h : Branched root met t) :
    ∃ ids, t.layoutSubtree root = .ok ids ∧ ids.Nodup ∧ ∀ i ∈ ids, root ≤ i ∧
      ∃ l, t.links? i = some l ∧ l.excluded = false ∧
        (l.kind = .root ∨ l.documentParent ≠ none) := by
  obtain ⟨ids, hids, hnodup, hmem⟩ := h.hung.exists_layoutSubtree
  refine ⟨ids, hids, hnodup, fun i hi ↦ ?_⟩
  have hin := (hmem i).1 hi
  refine ⟨(h.hung.bounds_of_inside hin).1, ?_⟩
  rcases Relation.ReflTransGen.cases_tail hin with rfl | ⟨q, -, hq⟩
  · obtain ⟨l, hl, hkind, hshown⟩ := h.top
    exact ⟨l, hl, hshown, .inl hkind⟩
  · obtain ⟨hq, hrun⟩ := Rooted.mem_runFrom hq
    obtain ⟨n, hn⟩ := exists_get? (lt_size_of_mem_layoutRun hrun)
    rw [layoutRun_of_get? hn] at hrun
    obtain ⟨-, m, hm, hparent, hshown⟩ := (h.member q _ hq (links?_of_get? hn)).2 i hrun
    exact ⟨m, hm, hshown, .inr (by rw [hparent]; simp)⟩

/-- **The walk upwards** from a node ends at the root. The induction is on the number, since a
parent has a smaller one. -/
theorem exists_upward (h : Branched root met t) {i : NodeId} (hi : root ≤ i) (hlt : i < t.size) :
    ∃ l, Upward (fun i ↦ (t.get? i).bind Node.parent) i l ∧ l.getLast? = some root ∧
      ∀ j ∈ l, j ≤ i := by
  induction i using Nat.strong_induction_on with
  | _ i ih =>
    obtain ⟨n, hn⟩ := exists_get? hlt
    have hlink : (t.get? i).bind Node.parent = n.stem.parent := by
      rw [hn]
      rfl
    rcases Nat.lt_or_eq_of_le hi with hroot | rfl
    · obtain ⟨q, l, hq, hparent, hl, hmem⟩ := h.parent i _ hroot (stem?_of_get? hn)
      obtain ⟨hqi, -⟩ := (h.child q l hq hl).2 i hmem
      obtain ⟨above, hup, hlast, hle⟩ := ih q hqi hq (Nat.lt_trans hqi hlt)
      refine ⟨i :: above, .step (hlink.trans hparent) hup, ?_, fun j hj ↦ ?_⟩
      · rw [List.getLast?_cons, hlast]
        rfl
      · rcases List.mem_cons.1 hj with rfl | hj
        · exact Nat.le_refl _
        · exact Nat.le_trans (hle j hj) (Nat.le_of_lt hqi)
    · exact ⟨[root], .last (hlink.trans (h.first _ (stem?_of_get? hn))), rfl, by simp⟩

theorem documentOf_eq (h : Branched root met t) {i : NodeId} (hi : root ≤ i) (hlt : i < t.size) :
    t.documentOf i = .ok root := by
  obtain ⟨l, hup, hlast, hle⟩ := h.exists_upward hi hlt
  rw [documentOf, chain_eq_of_upward hup fun j hj ↦ Nat.lt_of_le_of_lt (hle j hj) hlt]
  show Except.ok (l.getLastD i) = _
  rw [List.getLastD_eq_getLast?, hlast]
  rfl

/-! ### Changes after the walk -/

/-- **Runs are emptied and nodes excluded.** These are not the root, and in no run but the emptied
one. -/
theorem prune (h : Branched root met t) {cut : Option NodeId} {ids : List NodeId}
    (hp : Pruned cut ids t t') (hstem : ∀ i, t'.stem? i = t.stem? i)
    (hids : ∀ i ∈ ids, i ≠ root ∧
      ∀ q l, root ≤ q → t.links? q = some l → i ∈ l.layoutChildren → cut = some q) :
    Branched root met t' where
  top := by
    obtain ⟨l, hl, hkind, hshown⟩ := h.top
    have hnot : root ∉ ids := fun hmem ↦ (hids root hmem).1 rfl
    exact ⟨_, hp.links_of_some hl, hkind, by simp [hshown, hnot]⟩
  first s hs := h.first s ((hstem root).symm.trans hs)
  element i s hi hs := h.element i s hi ((hstem i).symm.trans hs)
  distinct i j s s' hi hj hs hs' :=
    h.distinct i j s s' hi hj ((hstem i).symm.trans hs) ((hstem j).symm.trans hs')
  parent i s hi hs := by
    obtain ⟨q, l, hq, hparent, hl, hmem⟩ := h.parent i s hi ((hstem i).symm.trans hs)
    exact ⟨q, _, hq, hparent, hp.links_of_some hl, hmem⟩
  child q l' hq hl' := by
    rw [hp.links] at hl'
    obtain ⟨l, hl, rfl⟩ := Option.map_eq_some_iff.1 hl'
    simp only [hstem]
    exact h.child q l hq hl
  own q l' hq hl' hin c hc := by
    rw [hp.links] at hl'
    obtain ⟨l, hl, rfl⟩ := Option.map_eq_some_iff.1 hl'
    obtain ⟨m, hm, hparent⟩ := h.own q l hq hl hin c hc
    exact ⟨_, hp.links_of_some hm, hparent⟩
  member q l' hq hl' := by
    rw [hp.links] at hl'
    obtain ⟨l, hl, rfl⟩ := Option.map_eq_some_iff.1 hl'
    obtain ⟨hnodup, hmember⟩ := h.member q l hq hl
    dsimp only
    split
    · exact ⟨.nil, fun c hc ↦ absurd hc List.not_mem_nil⟩
    · rename_i hcut
      refine ⟨hnodup, fun c hc ↦ ?_⟩
      obtain ⟨hlt, m, hm, hparent, hshown⟩ := hmember c hc
      have hnot : c ∉ ids := fun hmem ↦ hcut ((hids c hmem).2 q l hq hl hc)
      exact ⟨hlt, _, hp.links_of_some hm, hparent, by simp [hshown, hnot]⟩

end Branched

/-- A tree that has been changed from a root on, where it is that of a document still. -/
structure Reshaped (root : NodeId) (met : List Handle) (t t' : NodeTree) : Prop where
  branched : Branched root met t'
  kept : Kept t t'
  old : ∀ i < root, t'.get? i = t.get? i

namespace Reshaped

variable {root : NodeId} {met : List Handle} {t t' t'' : NodeTree}

theorem refl (h : Branched root met t) : Reshaped root met t t := ⟨h, .refl t, fun _ _ ↦ rfl⟩

theorem trans (h : Reshaped root met t t') (h' : Reshaped root met t' t'') :
    Reshaped root met t t'' where
  branched := h'.branched
  kept := h.kept.trans h'.kept
  old i hi := (h'.old i hi).trans (h.old i hi)

/-- Steps at nodes that take part in the layout. -/
theorem foldl {step : NodeTree → NodeId → NodeTree}
    (hstep : ∀ t i, Branched root met t → root ≤ i → t.TakesPart i →
      Reshaped root met t (step t i)) {ids : List NodeId} (h : Branched root met t)
    (hids : ∀ i ∈ ids, root ≤ i ∧ t.TakesPart i) : Reshaped root met t (ids.foldl step t) := by
  induction ids generalizing t with
  | nil => exact .refl h
  | cons i r ih =>
    obtain ⟨hi, hpart⟩ := hids i List.mem_cons_self
    have hfirst := hstep t i h hi hpart
    refine hfirst.trans (ih hfirst.branched fun j hj ↦ ?_)
    obtain ⟨hj, hpart⟩ := hids j (List.mem_cons_of_mem _ hj)
    exact ⟨hj, hfirst.kept.takesPart hpart⟩

/-- **A change at each node below the root.** -/
theorem atEach (change : NodeTree → Node → NodeTree) (h : Branched root met t)
    (hchange : ∀ t n, Branched root met t → t.get? n.id = some n → root ≤ n.id →
      t.TakesPart n.id → Reshaped root met t (change t n)) :
    Reshaped root met t (Ingest.atEach change t root) := by
  obtain ⟨ids, hids, -, hmem⟩ := h.exists_layoutSubtree
  rw [Ingest.atEach, hids]
  refine foldl (fun t i ht hi hpart ↦ ?_) h fun i hi ↦ ?_
  · cases hn : t.get? i with
    | none => exact .refl ht
    | some n =>
      obtain rfl := id_of_get? hn
      exact hchange t n ht hn hi hpart
  · obtain ⟨hle, l, hl, -, hpart⟩ := hmem i hi
    exact ⟨hle, l, hl, hpart⟩

theorem get?_modify_of_lt (t : NodeTree) {id : NodeId} (hid : root ≤ id) (f : Node → Node) :
    ∀ i < root, (t.modify id f).get? i = t.get? i := fun i hi ↦ by
  rw [get?_modify, if_neg (Nat.ne_of_gt (Nat.lt_of_lt_of_le hi hid))]

end Reshaped

namespace Ingest

variable {root : NodeId} {met : List Handle} {t : NodeTree} {n : Node}

/-- The text that is taken over is in no other run. -/
theorem reshaped_collapseText (h : Branched root met t) (hn : t.get? n.id = some n)
    (hroot : root ≤ n.id) : Reshaped root met t (collapseText t n) := by
  rcases collapseText_cases t n with hsame | ⟨only, c, hrun, -, hcollapsed⟩
  · rw [hsame]
    exact .refl h
  · rw [hcollapsed]
    have hp := pruned_collapsed t n.id only c.text
    have hmem : only ∈ n.links.layoutChildren := by simp [Node.links, hrun]
    obtain ⟨hlt, m, hm, hparent, -⟩ := (h.member n.id _ hroot (links?_of_get? hn)).2 only hmem
    refine ⟨h.prune hp (fun i ↦ ?_) fun i hi ↦ ?_, hp.kept, fun i hi ↦ ?_⟩
    · rw [stem?_modify _ only fun _ ↦ by rfl, stem?_modify _ n.id fun _ ↦ by rfl]
    · obtain rfl : i = only := by simpa using hi
      refine ⟨Nat.ne_of_gt (Nat.lt_of_le_of_lt hroot hlt), fun q l hq hl hi ↦ ?_⟩
      obtain ⟨-, m', hm', hparent', -⟩ := (h.member q l hq hl).2 i hi
      obtain rfl := Option.some.inj (hm.symm.trans hm')
      exact hparent.symm.trans hparent'
    · rw [Reshaped.get?_modify_of_lt _ (Nat.le_trans hroot (Nat.le_of_lt hlt)) _ i hi,
        Reshaped.get?_modify_of_lt _ hroot _ i hi]

theorem stem?_foldl_exclude (t : NodeTree) (ns : List Node) (i : NodeId) :
    (ns.foldl (fun t n ↦ t.modify n.id fun n ↦ { n with excluded := true }) t).stem? i =
      t.stem? i := by
  induction ns generalizing t with
  | nil => rfl
  | cons n r ih =>
    rw [List.foldl_cons, ih]
    exact stem?_modify t n.id (fun _ ↦ by rfl) i

theorem get?_foldl_exclude (t : NodeTree) {ns : List Node} (hns : ∀ n ∈ ns, root ≤ n.id) :
    ∀ i < root, (ns.foldl (fun t n ↦ t.modify n.id fun n ↦ { n with excluded := true }) t).get? i =
      t.get? i := by
  induction ns generalizing t with
  | nil => exact fun _ _ ↦ rfl
  | cons n r ih =>
    obtain ⟨hn, hr⟩ := List.forall_mem_cons.1 hns
    intro i hi
    rw [List.foldl_cons, ih _ hr i hi]
    exact Reshaped.get?_modify_of_lt t hn _ i hi

/-- The options that are taken over are in the run of the selection or in none. -/
theorem reshaped_gatherOptions (h : Branched root met t) (hn : t.get? n.id = some n)
    (hroot : root ≤ n.id) (hpart : t.TakesPart n.id) :
    Reshaped root met t (gatherOptions t n) := by
  unfold gatherOptions
  split
  · obtain ⟨l, hl, hin⟩ := hpart
    obtain rfl := Option.some.inj (hl.symm.trans (links?_of_get? hn))
    dsimp only
    generalize hoptions : (t.lookup n.children).filter
      (fun c ↦ c.tag == "option" || c.tag == "optgroup") = options
    have hchild : ∀ c ∈ options, c.id ∈ n.links.children := by
      intro c hc
      rw [← hoptions] at hc
      obtain ⟨j, hj, hget⟩ := List.mem_filterMap.1 (List.mem_filter.1 hc).1
      rw [id_of_get? hget]
      exact hj
    have hlater : ∀ c ∈ options, n.id < c.id := fun c hc ↦
      ((h.child n.id _ hroot hl).2 c.id (hchild c hc)).1
    have hp := (pruned_foldl_exclude t options).trans
      (pruned_cut _ n.id (f := fun m ↦ { m with
        entries := options.filterMap Node.text
        layoutChildren := [] }) (fun _ ↦ by rfl) (fun _ ↦ by rfl)) (.inl rfl)
    refine ⟨h.prune hp (fun i ↦ ?_) fun i hi ↦ ?_, hp.kept, fun i hi ↦ ?_⟩
    · rw [stem?_modify _ n.id fun _ ↦ by rfl, stem?_foldl_exclude]
    · obtain ⟨c, hc, rfl⟩ := List.mem_map.1 (by simpa using hi : i ∈ options.map Node.id)
      refine ⟨Nat.ne_of_gt (Nat.lt_of_le_of_lt hroot (hlater c hc)), fun q l' hq hl' hmem ↦ ?_⟩
      obtain ⟨m, hm, hparent⟩ := h.own n.id _ hroot hl hin c.id (hchild c hc)
      obtain ⟨-, m', hm', hparent', -⟩ := (h.member q l' hq hl').2 c.id hmem
      obtain rfl := Option.some.inj (hm.symm.trans hm')
      rcases hparent with hnone | hsome
      · exact absurd (hnone.symm.trans hparent') (by simp)
      · exact hsome.symm.trans hparent'
    · rw [Reshaped.get?_modify_of_lt _ hroot _ i hi]
      exact get?_foldl_exclude t
        (fun c hc ↦ Nat.le_trans hroot (Nat.le_of_lt (hlater c hc))) i hi
  · exact .refl h

theorem reshaped_bindCompanion (h : Branched root met t) (hroot : root ≤ n.id) :
    Reshaped root met t (bindCompanion root t n) := by
  unfold bindCompanion
  split
  · split
    · rename_i target _
      have hu : Unmoved t (t.modify n.id fun n ↦ { n with companion := some target }) :=
        unmoved_modify t n.id (fun _ ↦ by rfl) (fun _ ↦ by rfl)
      have hp : Pruned none [] t (t.modify n.id fun n ↦ { n with companion := some target }) := by
        refine ⟨fun i ↦ ?_, hu.place⟩
        rw [hu.links]
        cases t.links? i <;> simp
      refine ⟨h.prune hp (fun i ↦ ?_) fun i hi ↦ absurd hi List.not_mem_nil, hp.kept,
        Reshaped.get?_modify_of_lt t hroot _⟩
      exact stem?_modify t n.id (fun _ ↦ by rfl) i
    · exact .refl h
  · exact .refl h

/-! ### The walk -/

/-- **One element** that has not been met. -/
theorem branched_meet (p : Provider) {s : State} {task : Task}
    (h : Branched root s.visited s.tree) (hat : Attachable s.tree task.parent task.layoutParent)
    (hroot : root ≤ task.parent) (hnew : task.element ∉ s.visited) :
    let met := meet p { s with visited := task.element :: s.visited } task
    Branched root met.1.visited met.1.tree ∧ ∀ inner ∈ met.2, root ≤ inner.parent := by
  intro met
  have hvisited : met.1.visited = task.element :: s.visited := visited_meet _ _
  rw [hvisited]
  obtain ⟨htree, hinner⟩ | ⟨joins, hseats, hinner⟩ := seats_meet p
    { s with visited := task.element :: s.visited } task hat.parent_lt hat.layoutParent_lt
  · rw [show met.1.tree = s.tree from htree, show met.2 = [] from hinner]
    exact ⟨h.mono (List.subset_cons_self _ _), by simp⟩
  · refine ⟨h.seat hseats hat hroot hnew, fun inner hmem ↦ ?_⟩
    rcases hinner with hinner | hinner
    · exact absurd (hinner ▸ hmem) List.not_mem_nil
    · rw [show met.2 = _ from hinner] at hmem
      obtain ⟨c, -, rfl⟩ := List.mem_map.1 hmem
      exact Nat.le_of_lt h.lt

/-- **The walk makes a tree** out of whatever is inside what. -/
theorem Walks.branched {p : Provider} {s s' : State} {ts : List Task} (hwalk : Walks p s ts s')
    (h : Branched root s.visited s.tree) (hready : Ready s.tree ts)
    (hroot : ∀ task ∈ ts, root ≤ task.parent) : Branched root s'.visited s'.tree := by
  induction hwalk with
  | done => exact h
  | again _ _ ih =>
    exact ih h (fun task htask ↦ hready task (List.mem_cons_of_mem _ htask))
      fun task htask ↦ hroot task (List.mem_cons_of_mem _ htask)
  | @meets s s' task rest new _ _ ih =>
    have hat := hready task List.mem_cons_self
    obtain ⟨hkept, hinner⟩ := ready_meet p { s with visited := task.element :: s.visited } hat
    obtain ⟨hmet, hbelow⟩ := branched_meet p h hat (hroot task List.mem_cons_self) new
    refine ih hmet (fun inner hmem ↦ ?_) fun inner hmem ↦ ?_
    · rcases List.mem_append.1 hmem with hmem | hmem
      · exact hinner inner hmem
      · exact (hready inner (List.mem_cons_of_mem _ hmem)).kept hkept
    · rcases List.mem_append.1 hmem with hmem | hmem
      · exact hbelow inner hmem
      · exact hroot inner (List.mem_cons_of_mem _ hmem)

end Ingest

/-! ### The theorem -/

/-- The nodes from a root on are those of a document. -/
structure NodeTree.Document (t : NodeTree) (root : NodeId) : Prop where
  /-- Every node stands for an element, and no two for the same. -/
  element : ∀ i n, root ≤ i → t.get? i = some n → n.element.isSome
  distinct : ∀ i j n m, root ≤ i → root ≤ j → t.get? i = some n → t.get? j = some m →
    n.element = m.element → i = j
  /-- Every node but the root is listed once by its parent, and by no other node. -/
  listed : ∀ i n, root < i → t.get? i = some n →
    ∃ q m, root ≤ q ∧ n.parent = some q ∧ t.get? q = some m ∧ m.children.count i = 1 ∧
      ∀ q' m', root ≤ q' → t.get? q' = some m' → i ∈ m'.children → q' = q
  /-- The root is not listed, and neither is a node in front of it or one that does not exist. -/
  children : ∀ q m, root ≤ q → t.get? q = some m → ∀ c ∈ m.children, root < c ∧ c < t.size
  /-- The parents lead to the root. -/
  documentOf : ∀ i, root ≤ i → i < t.size → t.documentOf i = .ok root
  /-- What is found below the root is found once, and is not excluded. -/
  layout : ∃ ids, t.layoutSubtree root = .ok ids ∧ ids.Nodup ∧
    ∀ i ∈ ids, ∃ n, t.get? i = some n ∧ n.excluded = false

theorem Branched.document {root : NodeId} {met : List Handle} {t : NodeTree}
    (h : Branched root met t) : t.Document root where
  element i n hi hn := by
    obtain ⟨x, -, hx⟩ := h.element i _ hi (stem?_of_get? hn)
    exact Option.isSome_iff_exists.2 ⟨x, hx⟩
  distinct i j n m hi hj hn hm heq :=
    h.distinct i j _ _ hi hj (stem?_of_get? hn) (stem?_of_get? hm) heq
  listed i n hi hn := by
    obtain ⟨q, l, hq, hparent, hl, hmem⟩ := h.parent i _ hi (stem?_of_get? hn)
    obtain ⟨m, hm, rfl⟩ := Option.map_eq_some_iff.1 hl
    refine ⟨q, m, hq, hparent, hm, List.count_eq_one_of_mem (h.child q _ hq hl).1 hmem,
      fun q' m' hq' hm' hmem' ↦ ?_⟩
    obtain ⟨-, s, hs, hparent'⟩ := (h.child q' _ hq' (links?_of_get? hm')).2 i hmem'
    obtain rfl := Option.some.inj (hs.symm.trans (stem?_of_get? hn))
    exact Option.some.inj (hparent'.symm.trans hparent)
  children q m hq hm c hc := by
    have hl := links?_of_get? hm
    exact ⟨Nat.lt_of_le_of_lt hq ((h.child q _ hq hl).2 c hc).1, h.child_lt hq hl hc⟩
  documentOf i hi hlt := h.documentOf_eq hi hlt
  layout := by
    obtain ⟨ids, hids, hnodup, hmem⟩ := h.exists_layoutSubtree
    refine ⟨ids, hids, hnodup, fun i hi ↦ ?_⟩
    obtain ⟨-, l, hl, hshown, -⟩ := hmem i hi
    obtain ⟨n, hn, rfl⟩ := Option.map_eq_some_iff.1 hl
    exact ⟨n, hn, hshown⟩

namespace Ingest

section Start

variable (t : NodeTree) (warned : List String) (element : Handle) (m : BoxMeasure)

theorem visited_start : (start t warned element m).visited = [element] := visited_fill _ _ _ _

theorem links?_start (i : NodeId) : (start t warned element m).tree.links? i =
    if i = t.size then some ⟨.root, 0, false, none, [], []⟩ else t.links? i := by
  rw [start, (unmoved_fill _ _ _ _).links]
  exact links?_alloc t .root m.tag i

theorem stem?_start (i : NodeId) : (start t warned element m).tree.stem? i =
    if i = t.size then some ⟨none, some element⟩ else t.stem? i := by
  rw [start, stem?_fill]
  dsimp only
  rw [stem?_alloc]
  split <;> rfl

theorem size_start : (start t warned element m).tree.size = t.size + 1 :=
  (unmoved_fill _ _ _ _).size_eq.trans (size_alloc _ _ _)

/-- A document with its root only. -/
theorem branched_start : Branched t.size [element] (start t warned element m).tree := by
  have hlast : ∀ i, t.size ≤ i → i < (start t warned element m).tree.size → i = t.size := by
    intro i hi hlt
    rw [size_start] at hlt
    omega
  have hlinks : ∀ (i : NodeId) (l : Links), t.size ≤ i →
      (start t warned element m).tree.links? i = some l →
      l = ⟨.root, 0, false, none, [], []⟩ := by
    intro i l hi hl
    have heq := hlast i hi (lt_size_of_links? hl)
    rw [links?_start, if_pos heq] at hl
    exact (Option.some.inj hl).symm
  have hstem : ∀ (i : NodeId) (s : Stem), t.size ≤ i →
      (start t warned element m).tree.stem? i = some s →
      i = t.size ∧ s = ⟨none, some element⟩ := by
    intro i s hi hs
    have heq := hlast i hi (lt_size_of_stem? hs)
    rw [stem?_start, if_pos heq] at hs
    exact ⟨heq, (Option.some.inj hs).symm⟩
  refine ⟨⟨_, (links?_start ..).trans (if_pos rfl), rfl, rfl⟩, fun s hs ↦ ?_, fun i s hi hs ↦ ?_,
    fun i j s s' hi hj hs hs' _ ↦ ?_, fun i s hi hs ↦ ?_, fun q l hq hl ↦ ?_,
    fun q l hq hl _ c hc ↦ ?_, fun q l hq hl ↦ ?_⟩
  · rw [(hstem _ _ (Nat.le_refl _) hs).2]
  · exact ⟨element, List.mem_singleton_self _, by rw [(hstem _ _ hi hs).2]⟩
  · exact (hstem _ _ hi hs).1.trans (hstem _ _ hj hs').1.symm
  · exact absurd (hstem _ _ (Nat.le_of_lt hi) hs).1 (Nat.ne_of_gt hi)
  · rw [hlinks _ _ hq hl]
    exact ⟨.nil, fun c hc ↦ absurd hc List.not_mem_nil⟩
  · rw [hlinks _ _ hq hl] at hc
    exact absurd hc List.not_mem_nil
  · rw [hlinks _ _ hq hl]
    exact ⟨.nil, fun c hc ↦ absurd hc List.not_mem_nil⟩

end Start

section Walked

variable (p : Provider) (t : NodeTree) (warned : List String) (element : Handle) (m : BoxMeasure)

/-- **The walk through a document** comes to its end, and its nodes are a tree then. -/
theorem walks_walked :
    Walks p (start t warned element m) (tasks p t.size t.size element)
        (walked p t warned element m) ∧
      Branched t.size (walked p t warned element m).visited (walked p t warned element m).tree ∧
      ∀ i < t.size, (walked p t warned element m).tree.get? i = t.get? i := by
  have hlt : t.size < (start t warned element m).tree.size := by
    rw [size_start]
    exact Nat.lt_succ_self _
  have hready := ready_tasks p (attachable_self hlt) element
  have hstart : Branched t.size (start t warned element m).visited
      (start t warned element m).tree := by
    rw [visited_start]
    exact branched_start t warned element m
  have hwalks : Walks p (start t warned element m) (tasks p t.size t.size element)
      (walked p t warned element m) := by
    refine walks_walk p ?_ hready
    rw [visited_start, tasks, List.length_map]
    exact potential_le_bound p element
  refine ⟨hwalks, hwalks.branched hstart hready fun task htask ↦ ?_, ?_⟩
  · obtain ⟨c, -, rfl⟩ := List.mem_map.1 htask
    exact Nat.le_refl _
  · have hfilled : Sprouted t (start t warned element m).tree :=
      sprouted_fill ((Sprouted.refl t).alloc .root m.tag) (Nat.le_refl _) element m
    exact (sprouted_walk p (bound p element) hfilled
      (below_tasks p (Nat.le_refl _) (Nat.le_refl _) element)).old

end Walked

/-- **Every element is used once**, whatever the elements of a provider have inside. A document is
refused if its root cannot be measured, and has no nodes if its root makes no box. Otherwise the
walk through it comes to its end, the changes after it are made at all nodes that are found below
the root, and at each of these stages the new nodes are those of a document. The nodes in front of
them are as they were. -/
theorem uses_each_once (p : Provider) (t : NodeTree) (warned : List String) (element : Handle) :
    (∃ e, p.measure element = .error e ∧ document p t warned element = .error ⟨element, e⟩) ∨
      (∃ report, document p t warned element = .ok (report, t, warned) ∧ report.root = none) ∨
      ∃ m s collapsed gathered report t' warned',
        p.measure element = .ok m ∧
        document p t warned element = .ok (report, t', warned') ∧ report.root = some t.size ∧
        Walks p (start t warned element m) (tasks p t.size t.size element) s ∧
        collapsed = atEach collapseText s.tree t.size ∧
        gathered = atEach gatherOptions collapsed t.size ∧
        t' = atEach (bindCompanion t.size) gathered t.size ∧
        (∀ stage ∈ [s.tree, collapsed, gathered, t'], stage.Document t.size) ∧
        ∀ i < t.size, t'.get? i = t.get? i := by
  cases hm : p.measure element with
  | error e =>
    refine .inl ⟨e, rfl, ?_⟩
    rw [document, hm]
  | ok m =>
    cases hbox : (Style.ofMap m.style).display == .none ||
        (Style.ofMap m.style).display == .contents with
    | true =>
      refine .inr (.inl ⟨⟨none, 0, [], []⟩, ?_, rfl⟩)
      rw [document, hm]
      exact if_pos hbox
    | false =>
      obtain ⟨hwalks, hwalked, hold⟩ := walks_walked p t warned element m
      have hdocument := document_eq t warned hm hbox
      have hcollapsed := Reshaped.atEach collapseText hwalked
        fun t n ht hn hid _ ↦ reshaped_collapseText ht hn hid
      have hgathered := Reshaped.atEach gatherOptions hcollapsed.branched
        fun t n ht hn hid hpart ↦ reshaped_gatherOptions ht hn hid hpart
      have hbound := Reshaped.atEach (bindCompanion t.size) hgathered.branched
        fun _ n ht _ hid _ ↦ reshaped_bindCompanion ht hid
      refine .inr (.inr ⟨m, _, _, _, _, _, _, rfl, hdocument, rfl, hwalks, rfl, rfl, rfl,
        fun stage hstage ↦ ?_, fun i hi ↦ ?_⟩)
      · simp only [List.mem_cons, List.not_mem_nil, or_false] at hstage
        rcases hstage with rfl | rfl | rfl | rfl
        exacts [hwalked.document, hcollapsed.branched.document, hgathered.branched.document,
          hbound.branched.document]
      · exact (((hcollapsed.trans hgathered).trans hbound).old i hi).trans (hold i hi)

/-- A root with two elements in it, which have each other and the root inside, and one of them in
the root twice. -/
def entangled : Provider :=
  let element (children : List Handle) : ProvidedElement :=
    ⟨.ok { BoxMeasure.empty with tag := "div" }, children⟩
  .ofElements [⟨"entangled", some 0⟩] #[element [1, 1, 2], element [2, 0], element [1, 0, 2]]

/-- Each element is met where it is come to first. -/
example : (document entangled .empty [] 0).toOption.map (fun made ↦
    made.2.1.toList.map fun n ↦ (n.element, n.parent, n.children)) =
      some [(some 0, none, [1]), (some 1, some 0, [2]), (some 2, some 1, [])] := by
  decide

end Ingest

end ViewCompiler
