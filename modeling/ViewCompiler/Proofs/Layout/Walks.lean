import Mathlib.Data.List.DropRight
import ViewCompiler.Proofs.Layout.Linked
import ViewCompiler.Proofs.Layout.Output

/-!
# Walks downwards in any tree

A walk downwards takes a node from a stack and puts the nodes inside on it. `Descends` is this loop
without a bound on its steps, in the two ways in which a node can be treated that is met again: it
ends the walk over the layout and is passed over in the walk over the output. That the bound that a
walk is given is never reached (`NodeTree.descends_layoutSubtree`,
`NodeTree.descends_renderSubtree`) is because the nodes that have been seen are different nodes of
the tree. Nothing else of the tree is used, so there may be loops, and nodes inside several others.

What a walk lists is read off the loop. One invariant (`Visits`) says that the list has the nodes
that are reached, each once and after a node around it; it holds whatever is met again. If nothing
is, the stack at any time is one of outlines, and the list is theirs (`Descends.exists_outlines`).

Whether something is met again is a question of paths (`UniquePaths`). Places in a list count here:
a node that is listed twice is met twice.
-/

namespace ViewCompiler

/-! ### The loop -/

/-- **The loop of a walk downwards**, from what has been seen, the latest first, and what is on the
stack to the answer. -/
inductive Descends (children : NodeId → List NodeId) (strict : Bool) :
    List NodeId → List NodeId → Except TreeError (List NodeId) → Prop
  | done {seen : List NodeId} : Descends children strict seen [] (.ok seen.reverse)
  | refused {seen stack : List NodeId} {i : NodeId} (met : i ∈ seen) (refuses : strict = true) :
      Descends children strict seen (i :: stack) (.error (.ancestorCycle i))
  | passed {seen stack : List NodeId} {i : NodeId} {answer : Except TreeError (List NodeId)}
      (met : i ∈ seen) (passes : strict = false)
      (rest : Descends children strict seen stack answer) :
      Descends children strict seen (i :: stack) answer
  | visited {seen stack : List NodeId} {i : NodeId} {answer : Except TreeError (List NodeId)}
      (new : i ∉ seen) (rest : Descends children strict (i :: seen) (children i ++ stack) answer) :
      Descends children strict seen (i :: stack) answer

/-- **What holds in a walk from a node**, whatever is met again. -/
structure Visits (children : NodeId → List NodeId) (root : NodeId) (seen stack : List NodeId) :
    Prop where
  nodup : seen.Nodup
  reached : ∀ x, x ∈ seen ∨ x ∈ stack → Inside children root x
  closed : ∀ x ∈ seen, ∀ c ∈ children x, c ∈ seen ∨ c ∈ stack
  rooted : root ∈ seen ∨ root ∈ stack
  /-- A node has been seen after a node around it. -/
  led : ∀ later x earlier, seen = later ++ x :: earlier →
    x = root ∨ ∃ p ∈ earlier, x ∈ children p
  pending : ∀ x ∈ stack, x = root ∨ ∃ p ∈ seen, x ∈ children p

section Loop

variable {children : NodeId → List NodeId} {strict : Bool} {root i : NodeId}
  {seen stack : List NodeId} {answer : Except TreeError (List NodeId)}

namespace Visits

theorem start (children : NodeId → List NodeId) (root : NodeId) :
    Visits children root [] [root] where
  nodup := .nil
  reached x hx := by
    obtain rfl := List.mem_singleton.1 (hx.resolve_left List.not_mem_nil)
    exact .refl
  closed x hx := absurd hx List.not_mem_nil
  rooted := .inr (List.mem_singleton_self root)
  led later x earlier h := absurd h (by simp)
  pending x hx := .inl (List.mem_singleton.1 hx)

/-- A node that has been seen is passed over. -/
theorem pass (h : Visits children root seen (i :: stack)) (hi : i ∈ seen) :
    Visits children root seen stack where
  nodup := h.nodup
  reached x hx := h.reached x (hx.imp_right (List.mem_cons_of_mem i))
  closed x hx c hc := by
    rcases h.closed x hx c hc with hseen | hmem
    · exact .inl hseen
    · rcases List.mem_cons.1 hmem with rfl | hmem
      · exact .inl hi
      · exact .inr hmem
  rooted := by
    rcases h.rooted with hseen | hmem
    · exact .inl hseen
    · rcases List.mem_cons.1 hmem with rfl | hmem
      · exact .inl hi
      · exact .inr hmem
  led := h.led
  pending x hx := h.pending x (List.mem_cons_of_mem i hx)

/-- **A new node is visited.** -/
theorem visit (h : Visits children root seen (i :: stack)) (hi : i ∉ seen) :
    Visits children root (i :: seen) (children i ++ stack) := by
  have hmoved : ∀ {x}, x ∈ seen ∨ x ∈ i :: stack → x ∈ i :: seen ∨ x ∈ children i ++ stack := by
    rintro x (hseen | hmem)
    · exact .inl (List.mem_cons_of_mem i hseen)
    · rcases List.mem_cons.1 hmem with rfl | hmem
      · exact .inl List.mem_cons_self
      · exact .inr (List.mem_append_right _ hmem)
  have hin : Inside children root i := h.reached i (.inr List.mem_cons_self)
  exact {
    nodup := List.nodup_cons.2 ⟨hi, h.nodup⟩
    reached := by
      rintro x (hseen | hmem)
      · rcases List.mem_cons.1 hseen with rfl | hseen
        · exact hin
        · exact h.reached x (.inl hseen)
      · rcases List.mem_append.1 hmem with hchild | hmem
        · exact hin.tail hchild
        · exact h.reached x (.inr (List.mem_cons_of_mem i hmem))
    closed := fun x hx c hc ↦ by
      rcases List.mem_cons.1 hx with rfl | hx
      · exact .inr (List.mem_append_left _ hc)
      · exact hmoved (h.closed x hx c hc)
    rooted := hmoved h.rooted
    led := fun later x earlier heq ↦ by
      rcases List.cons_eq_append_iff.1 heq with ⟨-, hfirst⟩ | ⟨later', -, hrest⟩
      · obtain ⟨rfl, rfl⟩ := List.cons.inj hfirst
        exact h.pending x List.mem_cons_self
      · exact h.led later' x earlier hrest
    pending := fun x hx ↦ by
      rcases List.mem_append.1 hx with hchild | hmem
      · exact .inr ⟨i, List.mem_cons_self, hchild⟩
      · exact (h.pending x (List.mem_cons_of_mem i hmem)).imp_right fun ⟨p, hp, hchild⟩ ↦
          ⟨p, List.mem_cons_of_mem i hp, hchild⟩ }

/-- When the stack is empty, all that is reached has been seen. -/
theorem mem_iff (h : Visits children root seen []) {x : NodeId} :
    x ∈ seen ↔ Inside children root x := by
  refine ⟨fun hx ↦ h.reached x (.inl hx), fun hx ↦ ?_⟩
  induction hx with
  | refl => exact h.rooted.resolve_right List.not_mem_nil
  | tail _ hc ih => exact (h.closed _ ih _ hc).resolve_right List.not_mem_nil

end Visits

namespace Descends

/-- A walk has one of two answers. -/
theorem answers (h : Descends children strict seen stack answer) :
    (∃ ids, answer = .ok ids) ∨ strict = true ∧ ∃ i, answer = .error (.ancestorCycle i) := by
  induction h with
  | done => exact .inl ⟨_, rfl⟩
  | refused _ refuses => exact .inr ⟨refuses, _, rfl⟩
  | passed _ _ _ ih => exact ih
  | visited _ _ ih => exact ih

/-- **What holds in every step holds at the end.** -/
theorem visits (h : Descends children strict seen stack answer)
    (hv : Visits children root seen stack) {ids : List NodeId} (hids : answer = .ok ids) :
    Visits children root ids.reverse [] := by
  induction h with
  | done =>
    obtain rfl := Except.ok.inj hids
    rwa [List.reverse_reverse]
  | refused => exact absurd hids (by simp)
  | passed met _ _ ih => exact ih (hv.pass met) hids
  | visited new _ ih => exact ih (hv.visit new) hids

/-- **A walk that meets nothing again lists outlines**, those of what is on the stack. -/
theorem exists_outlines (h : Descends children true seen stack answer) (hseen : seen.Nodup)
    {ids : List NodeId} (hids : answer = .ok ids) :
    ∃ os : List Outline, os.map Outline.id = stack ∧ (∀ o ∈ os, o.Follows children) ∧
      ids = seen.reverse ++ os.flatMap Outline.ids ∧
      (seen ++ os.flatMap Outline.ids).Nodup := by
  induction h with
  | done =>
    obtain rfl := Except.ok.inj hids
    exact ⟨[], rfl, by simp, by simp, by simpa using hseen⟩
  | refused => exact absurd hids (by simp)
  | passed _ passes => exact absurd passes (by simp)
  | @visited seen stack i answer new rest ih =>
    obtain ⟨os, hstack, hos, rfl, hnodup⟩ := ih (List.nodup_cons.2 ⟨new, hseen⟩) hids
    obtain ⟨below, r, rfl, hbelow, hr⟩ := List.map_eq_append_iff.1 hstack
    have hflat : (Outline.node i below :: r).flatMap Outline.ids =
        i :: (below ++ r).flatMap Outline.ids := by
      rw [List.flatMap_cons, Outline.ids_node, List.flatMap_append, List.cons_append]
    refine ⟨.node i below :: r, by rw [List.map_cons, hr]; rfl, ?_, ?_, ?_⟩
    · refine List.forall_mem_cons.2 ⟨Outline.follows_node.2 ⟨hbelow, fun b hb ↦ ?_⟩, fun o ho ↦ ?_⟩
      · exact hos b (List.mem_append_left _ hb)
      · exact hos o (List.mem_append_right _ ho)
    · rw [hflat, List.reverse_cons, List.append_assoc, List.singleton_append]
    · rw [hflat]
      exact List.perm_middle.nodup_iff.2 hnodup

/-- What is passed over at the top of the stack makes no difference. -/
theorem of_dropWhile
    (h : Descends children false seen (stack.dropWhile seen.contains) answer) :
    Descends children false seen stack answer := by
  induction stack with
  | nil => exact h
  | cons i stack ih =>
    by_cases hi : i ∈ seen
    · rw [List.dropWhile_cons_of_pos (List.contains_iff_mem.2 hi)] at h
      exact .passed hi rfl (ih h)
    · rwa [List.dropWhile_cons_of_neg (mt List.contains_iff_mem.1 hi)] at h

end Descends

end Loop

/-! ### Paths -/

/-- The node at the end of a path, which is given by the places that it takes in the lists of nodes
inside. -/
def pathEnd? (children : NodeId → List NodeId) : NodeId → List Nat → Option NodeId
  | i, [] => some i
  | i, k :: ks => (children i)[k]?.bind fun c ↦ pathEnd? children c ks

/-- **No node is reached on two paths.** -/
def UniquePaths (children : NodeId → List NodeId) (a : NodeId) : Prop :=
  ∀ ks ks' x, pathEnd? children a ks = some x → pathEnd? children a ks' = some x → ks = ks'

section Paths

variable {children : NodeId → List NodeId} {a p c x : NodeId}

theorem pathEnd?_append {ks : List Nat} (h : pathEnd? children a ks = some p) (ks' : List Nat) :
    pathEnd? children a (ks ++ ks') = pathEnd? children p ks' := by
  induction ks generalizing a with
  | nil => rw [← Option.some.inj h, List.nil_append]
  | cons k ks ih =>
    obtain ⟨b, hb, hrest⟩ := Option.bind_eq_some_iff.1 h
    rw [List.cons_append, pathEnd?, hb]
    exact ih hrest

theorem pathEnd?_singleton (k : Nat) : pathEnd? children p [k] = (children p)[k]? := by
  rw [pathEnd?]
  cases (children p)[k]? <;> rfl

theorem inside_of_pathEnd? {ks : List Nat} (h : pathEnd? children a ks = some x) :
    Inside children a x := by
  induction ks generalizing a with
  | nil => exact Option.some.inj h ▸ .refl
  | cons k ks ih =>
    obtain ⟨b, hb, hrest⟩ := Option.bind_eq_some_iff.1 h
    exact .head (List.mem_of_getElem? hb) (ih hrest)

/-- A path with one node more. -/
theorem exists_pathEnd?_concat {ks : List Nat} (h : pathEnd? children a ks = some p)
    (hc : c ∈ children p) : ∃ k, pathEnd? children a (ks ++ [k]) = some c := by
  obtain ⟨k, hk⟩ := List.mem_iff_getElem?.1 hc
  exact ⟨k, by rw [pathEnd?_append h, pathEnd?_singleton, hk]⟩

theorem exists_pathEnd? (h : Inside children a x) : ∃ ks, pathEnd? children a ks = some x := by
  induction h with
  | refl => exact ⟨[], rfl⟩
  | tail _ hc ih =>
    obtain ⟨ks, hks⟩ := ih
    obtain ⟨k, hk⟩ := exists_pathEnd?_concat hks hc
    exact ⟨ks ++ [k], hk⟩

namespace UniquePaths

variable (h : UniquePaths children a)

include h

theorem nodup (hp : Inside children a p) : (children p).Nodup := by
  obtain ⟨ks, hks⟩ := exists_pathEnd? hp
  refine List.nodup_iff_getElem?_ne_getElem?.2 fun i j hij hj heq ↦ ?_
  have hpath : ∀ k, pathEnd? children a (ks ++ [k]) = (children p)[k]? := fun k ↦ by
    rw [pathEnd?_append hks, pathEnd?_singleton]
  have hsame := h (ks ++ [i]) (ks ++ [j]) _ ((hpath i).trans (heq.trans
    (List.getElem?_eq_getElem hj))) ((hpath j).trans (List.getElem?_eq_getElem hj))
  exact Nat.ne_of_lt hij (List.singleton_inj.1 (List.append_cancel_left hsame))

theorem parent {q : NodeId} (hp : Inside children a p) (hq : Inside children a q)
    (hcp : c ∈ children p) (hcq : c ∈ children q) : p = q := by
  obtain ⟨ks, hks⟩ := exists_pathEnd? hp
  obtain ⟨ks', hks'⟩ := exists_pathEnd? hq
  obtain ⟨k, hk⟩ := exists_pathEnd?_concat hks hcp
  obtain ⟨k', hk'⟩ := exists_pathEnd?_concat hks' hcq
  obtain ⟨rfl, -⟩ := List.append_inj' (h _ _ c hk hk') rfl
  exact Option.some.inj (hks.symm.trans hks')

theorem acyclic (hx : Inside children a x) :
    ¬Relation.TransGen (fun p c ↦ c ∈ children p) x x := fun hloop ↦ by
  obtain ⟨ks, hks⟩ := exists_pathEnd? hx
  obtain ⟨q, hin, hq⟩ := Relation.TransGen.tail'_iff.1 hloop
  obtain ⟨round, hround⟩ := exists_pathEnd? hin
  obtain ⟨k, hk⟩ := exists_pathEnd?_concat hround hq
  have hsame := h ks (ks ++ (round ++ [k])) x hks (by rw [pathEnd?_append hks, hk])
  exact absurd (List.self_eq_append_right.1 hsame) (by simp)

/-- **A node from which no node is reached on two paths has an outline.** -/
theorem exists_outline {n : Nat} (hlt : ∀ {p c}, c ∈ children p → c < n) :
    ∃ o : Outline, o.id = a ∧ o.Follows children ∧ o.ids.Nodup :=
  exists_outline_of_inside (fun _ ↦ h.nodup) h.parent hlt fun _ ↦ h.acyclic

end UniquePaths

/-- **In an outline without repetitions** no node is reached on two paths. -/
theorem Outline.uniquePaths {o : Outline} (ho : o.Follows children) (hnodup : o.ids.Nodup) :
    UniquePaths children o.id := by
  induction o using Outline.induction with
  | h i below ih =>
    obtain ⟨hids, hbelow⟩ := follows_node.1 ho
    rw [ids_node, List.nodup_cons, List.nodup_flatMap] at hnodup
    obtain ⟨hi, hnodup, hdisjoint⟩ := hnodup
    -- the first place of a path is that of an outline inside, which the path does not leave
    have hfirst : ∀ {k ks x}, pathEnd? children i (k :: ks) = some x →
        ∃ hk : k < below.length, pathEnd? children below[k].id ks = some x ∧ x ∈ below[k].ids := by
      intro k ks x hx
      obtain ⟨c, hc, hrest⟩ := Option.bind_eq_some_iff.1 hx
      rw [← hids, List.getElem?_map, Option.map_eq_some_iff] at hc
      obtain ⟨b, hb, rfl⟩ := hc
      obtain ⟨hk, rfl⟩ := List.getElem?_eq_some_iff.1 hb
      exact ⟨hk, hrest, (mem_ids_iff (hbelow _ (List.getElem_mem hk))).2
        (inside_of_pathEnd? hrest)⟩
    have hlonger : ∀ {k ks}, pathEnd? children i (k :: ks) ≠ some i := fun hx ↦ by
      obtain ⟨hk, -, hmem⟩ := hfirst hx
      exact hi (List.mem_flatMap.2 ⟨_, List.getElem_mem hk, hmem⟩)
    intro ks ks' x hks hks'
    match ks, ks' with
    | [], [] => rfl
    | [], k' :: ks' => exact absurd (hks'.trans hks.symm) hlonger
    | k :: ks, [] => exact absurd (hks.trans hks'.symm) hlonger
    | k :: ks, k' :: ks' =>
      obtain ⟨hk, hrest, hmem⟩ := hfirst hks
      obtain ⟨hk', hrest', hmem'⟩ := hfirst hks'
      rw [List.pairwise_iff_getElem] at hdisjoint
      rcases Nat.lt_trichotomy k k' with hlt | rfl | hlt
      · exact absurd hmem' (hdisjoint k k' hk hk' hlt hmem)
      · have hb := List.getElem_mem hk
        rw [ih _ hb (hbelow _ hb) (hnodup _ hb) ks ks' x hrest hrest']
      · exact absurd hmem (hdisjoint k' k hk' hk hlt hmem')

end Paths

/-! ### Walks over a tree -/

namespace NodeTree

variable {t : NodeTree}

theorem descendLayout_of_mem {fuel : Nat} {seen stack : List NodeId} {i : NodeId} (hi : i ∈ seen) :
    t.descendLayout (fuel + 1) seen (i :: stack) = .error (.ancestorCycle i) := by
  rw [descendLayout, if_pos (List.contains_iff_mem.2 hi)]

theorem descendRender_dropWhile (fuel : Nat) (seen stack : List NodeId) :
    t.descendRender fuel seen (stack.dropWhile seen.contains) =
      t.descendRender fuel seen stack := by
  rw [descendRender.eq_def, descendRender.eq_def t fuel seen stack]
  dsimp only
  rw [List.dropWhile_idempotent]

section Bound

variable {fuel : Nat} {seen stack : List NodeId} (hnodup : seen.Nodup)
  (hseen : ∀ i ∈ seen, i < t.size) (hstack : ∀ i ∈ stack, i < t.size)
  (hfuel : t.size < seen.length + fuel)

include hnodup hseen hstack hfuel

/-- **The bound of the walk over the layout is not reached.** -/
theorem descends_descendLayout (hlt : ∀ p c, c ∈ t.layoutRun p → c < t.size) :
    Descends t.layoutRun true seen stack (t.descendLayout fuel seen stack) := by
  induction fuel generalizing seen stack with
  | zero => exact absurd (length_le_of_nodup hnodup hseen) (Nat.not_le.2 hfuel)
  | succ fuel ih =>
    cases stack with
    | nil =>
      rw [descendLayout_nil]
      exact .done
    | cons i stack =>
      by_cases hi : i ∈ seen
      · rw [descendLayout_of_mem hi]
        exact .refused hi rfl
      · obtain ⟨hsize, hrest⟩ := List.forall_mem_cons.1 hstack
        rw [descendLayout_cons (by simpa using hi) hsize]
        refine .visited hi (ih (List.nodup_cons.2 ⟨hi, hnodup⟩)
          (List.forall_mem_cons.2 ⟨hsize, hseen⟩) (fun c hc ↦ ?_) ?_)
        · exact (List.mem_append.1 hc).elim (hlt i c) (hrest c)
        · rw [List.length_cons]
          omega

/-- **The bound of the walk over the output is not reached.** -/
theorem descends_descendRender (hlt : ∀ p c, c ∈ t.order p → c < t.size) :
    Descends t.order false seen stack (t.descendRender fuel seen stack) := by
  induction fuel generalizing seen stack with
  | zero => exact absurd (length_le_of_nodup hnodup hseen) (Nat.not_le.2 hfuel)
  | succ fuel ih =>
    refine .of_dropWhile ?_
    rw [← descendRender_dropWhile]
    have hstack' : ∀ i ∈ stack.dropWhile seen.contains, i < t.size := fun i hi ↦
      hstack i ((List.dropWhile_sublist _).subset hi)
    have hfirst := List.head?_dropWhile_not seen.contains stack
    generalize stack.dropWhile seen.contains = left at hstack' hfirst ⊢
    cases left with
    | nil =>
      rw [descendRender_nil]
      exact .done
    | cons i left =>
      have hi : i ∉ seen := by simpa using hfirst
      obtain ⟨hsize, hrest⟩ := List.forall_mem_cons.1 hstack'
      rw [descendRender_cons (by simpa using hi) hsize]
      refine .visited hi (ih (List.nodup_cons.2 ⟨hi, hnodup⟩)
        (List.forall_mem_cons.2 ⟨hsize, hseen⟩) (fun c hc ↦ ?_) ?_)
      · exact (List.mem_append.1 hc).elim (hlt i c) (hrest c)
      · rw [List.length_cons]
        omega

end Bound

theorem mem_order_iff (hlinked : ∀ p c, c ∈ t.renderMembers p ↔ t.renderParent? c = some p)
    {p c : NodeId} : c ∈ t.order p ↔ t.renderParent? c = some p :=
  mem_order.trans (hlinked p c)

section Root

variable {root : NodeId} (hroot : root < t.size)

include hroot

theorem descends_layoutSubtree (hlt : ∀ p c, c ∈ t.layoutRun p → c < t.size) :
    Descends t.layoutRun true [] [root] (t.layoutSubtree root) :=
  descends_descendLayout .nil (by simp) (by simpa using hroot) (by simp) hlt

theorem descends_renderSubtree (hlt : ∀ p c, c ∈ t.order p → c < t.size) :
    Descends t.order false [] [root] (t.renderSubtree root) :=
  descends_descendRender .nil (by simp) (by simpa using hroot) (by simp) hlt

/-- **The walk over the layout** lists an outline if no node is reached on two paths, and otherwise
meets a node again. -/
theorem layoutSubtree_cases (hlt : ∀ p c, c ∈ t.layoutRun p → c < t.size) :
    (UniquePaths t.layoutRun root → ∃ o : Outline, o.id = root ∧ o.Follows t.layoutRun ∧
      t.layoutSubtree root = .ok o.ids) ∧
    (¬UniquePaths t.layoutRun root →
      ∃ i, t.layoutSubtree root = .error (.ancestorCycle i)) := by
  have hwalk := descends_layoutSubtree hroot hlt
  refine ⟨fun hunique ↦ ?_, fun hunique ↦ ?_⟩
  · obtain ⟨o, rfl, ho, hnodup⟩ := hunique.exists_outline fun {p c} ↦ hlt p c
    refine ⟨o, rfl, ho, Outline.walk_root descendLayout_nil descendLayout_cons ho hnodup ?_⟩
    intro i hi
    rcases Relation.ReflTransGen.cases_tail ((Outline.mem_ids_iff ho).1 hi) with rfl | ⟨p, -, hp⟩
    · exact hroot
    · exact hlt p i hp
  · rcases hwalk.answers with ⟨ids, hids⟩ | ⟨-, herror⟩
    · obtain ⟨os, hstack, hos, -, hnodup⟩ := hwalk.exists_outlines .nil hids
      obtain ⟨o, rfl, rfl⟩ := List.map_eq_singleton_iff.1 hstack
      exact absurd (Outline.uniquePaths (hos o List.mem_cons_self) (by simpa using hnodup)) hunique
    · exact herror

variable (hlinked : ∀ p c, c ∈ t.renderMembers p ↔ t.renderParent? c = some p)

include hlinked

/-- **The walk over the output** lists what is reached, each node once and after its render
parent. -/
theorem exists_renderSubtree :
    ∃ ids, t.renderSubtree root = .ok ids ∧ ids.Nodup ∧
      (∀ x, x ∈ ids ↔ Inside t.order root x) ∧
      ∀ before x after, ids = before ++ x :: after → x ≠ root →
        ∃ p ∈ before, t.renderParent? x = some p := by
  have hwalk := descends_renderSubtree hroot fun p c hc ↦
    lt_size_of_renderParent? ((mem_order_iff hlinked).1 hc)
  obtain ⟨ids, hids⟩ := hwalk.answers.resolve_right fun ⟨h, _⟩ ↦ absurd h (by simp)
  have hv := hwalk.visits (.start t.order root) hids
  refine ⟨ids, hids, List.nodup_reverse.1 hv.nodup, fun x ↦ ?_, ?_⟩
  · rw [← hv.mem_iff, List.mem_reverse]
  · rintro before x after rfl hne
    have heq : (before ++ x :: after).reverse = after.reverse ++ x :: before.reverse := by simp
    obtain ⟨p, hp, hx⟩ := (hv.led _ x _ heq).resolve_left hne
    exact ⟨p, List.mem_reverse.1 hp, (mem_order_iff hlinked).1 hx⟩

/-- **From a node on no render loop** it lists an outline. -/
theorem exists_outline_renderSubtree (hnodup : ∀ p, (t.renderMembers p).Nodup)
    (hloop : ¬Relation.TransGen (fun p c ↦ c ∈ t.order p) root root) :
    ∃ o : Outline, o.id = root ∧ o.Follows t.order ∧ t.renderSubtree root = .ok o.ids := by
  have hparent : ∀ {p q c}, c ∈ t.order p → c ∈ t.order q → p = q := fun hp hq ↦
    Option.some.inj (((mem_order_iff hlinked).1 hp).symm.trans ((mem_order_iff hlinked).1 hq))
  have hlt : ∀ {p c}, c ∈ t.order p → c < t.size := fun hc ↦
    lt_size_of_renderParent? ((mem_order_iff hlinked).1 hc)
  obtain ⟨o, rfl, ho, hids⟩ := exists_outline_of_inside
    (fun p _ ↦ (t.perm_order p).nodup_iff.2 (hnodup p)) (fun _ _ ↦ hparent) hlt
    fun _ hi ↦ not_loop_of_inside hparent hloop hi
  refine ⟨o, rfl, ho, renderSubtree_eq ho hids fun i hi ↦ ?_⟩
  rcases Relation.ReflTransGen.cases_tail ((Outline.mem_ids_iff ho).1 hi) with rfl | ⟨p, -, hp⟩
  · exact hroot
  · exact hlt hp

end Root

/-- **Walks downwards end, and list nodes with parents first.** Over a layout in which links lead to
nodes, a walk is the loop without a bound on its steps. It lists the outline of the root if no node
is reached from the root on two paths, and otherwise says that there is a loop. Over an output in
which both sides of every link agree, a walk is that loop too. It lists the nodes that are reached
from the root, each once, and after its render parent if it is not the root itself; and if the root
is on no loop, these are the outline of the root. -/
theorem walks_downwards (t : NodeTree) (root : NodeId) (hroot : root < t.size) :
    ((∀ p c, c ∈ t.layoutRun p → c < t.size) →
      Descends t.layoutRun true [] [root] (t.layoutSubtree root) ∧
      (UniquePaths t.layoutRun root → ∃ o : Outline, o.id = root ∧ o.Follows t.layoutRun ∧
        t.layoutSubtree root = .ok o.ids) ∧
      (¬UniquePaths t.layoutRun root →
        ∃ i, t.layoutSubtree root = .error (.ancestorCycle i))) ∧
    ((∀ p c, c ∈ t.renderMembers p ↔ t.renderParent? c = some p) →
      (∀ p, (t.renderMembers p).Nodup) →
      Descends t.order false [] [root] (t.renderSubtree root) ∧
      (∃ ids, t.renderSubtree root = .ok ids ∧ ids.Nodup ∧
        (∀ x, x ∈ ids ↔ Inside t.order root x) ∧
        ∀ before x after, ids = before ++ x :: after → x ≠ root →
          ∃ p ∈ before, t.renderParent? x = some p) ∧
      (¬Relation.TransGen (fun p c ↦ c ∈ t.order p) root root → ∃ o : Outline,
        o.id = root ∧ o.Follows t.order ∧ t.renderSubtree root = .ok o.ids)) :=
  ⟨fun hlt ↦ ⟨descends_layoutSubtree hroot hlt, layoutSubtree_cases hroot hlt⟩,
    fun hlinked hnodup ↦ ⟨descends_renderSubtree hroot fun _ _ hc ↦
        lt_size_of_renderParent? ((mem_order_iff hlinked).1 hc),
      exists_renderSubtree hroot hlinked,
      exists_outline_renderSubtree hroot hlinked hnodup⟩⟩

/-- A tree with a root that holds two elements, one of them inside the other in the output. Apart
from it there is an element that has a text twice in its run and is inside itself in the output. -/
def knotted : NodeTree :=
  empty.performAll [.alloc .root "div", .alloc .element "p", .alloc .element "b",
    .alloc .element "ul", .alloc .text "", .attach 0 1 (some 0), .attach 0 2 (some 0),
    .attach 3 4 (some 3), .attach 3 4 (some 3), .setRenderParent 1 0, .setRenderParent 2 1,
    .setRenderParent 3 3, .setRenderParent 4 3]

/-- From the root both walks list the outline. From the element apart from it one meets the text
again, and the other one passes over the element itself. -/
theorem walks_downwards_knotted :
    0 < knotted.size ∧ 3 < knotted.size ∧ (∀ p c, c ∈ knotted.layoutRun p → c < knotted.size) ∧
      (∀ p c, c ∈ knotted.renderMembers p ↔ knotted.renderParent? c = some p) ∧
      (∀ p, (knotted.renderMembers p).Nodup) ∧
      UniquePaths knotted.layoutRun 0 ∧ ¬UniquePaths knotted.layoutRun 3 ∧
      ¬Relation.TransGen (fun p c ↦ c ∈ knotted.order p) 0 0 ∧
      (∃ o : Outline, o.id = 0 ∧ o.Follows knotted.layoutRun ∧
        knotted.layoutSubtree 0 = .ok o.ids ∧ o.ids = [0, 1, 2]) ∧
      (∃ i, knotted.layoutSubtree 3 = .error (.ancestorCycle i)) ∧
      (∃ o : Outline, o.id = 0 ∧ o.Follows knotted.order ∧
        knotted.renderSubtree 0 = .ok o.ids ∧ o.ids = [0, 1, 2]) ∧
      ∃ ids, knotted.renderSubtree 3 = .ok ids ∧ ids.Nodup ∧
        (∀ x, x ∈ ids ↔ Inside knotted.order 3 x) ∧ ids = [3, 4] := by
  have hlinked : knotted.Linked := (Relinked.foldl relinked_perform _ empty).linked .empty
  have hsize : knotted.size = 5 := by decide +kernel
  have hlt : ∀ p c, c ∈ knotted.layoutRun p → c < knotted.size := fun p c hc ↦ by
    have hall : ∀ p < 5, ∀ c ∈ knotted.layoutRun p, c < knotted.size := by decide +kernel
    exact hall p (hsize ▸ lt_size_of_mem_layoutRun hc) c hc
  have hunique : UniquePaths knotted.layoutRun 0 := by
    have hruns : knotted.layoutRun 0 = [1, 2] ∧ knotted.layoutRun 1 = [] ∧
        knotted.layoutRun 2 = [] := by decide +kernel
    refine Outline.uniquePaths (o := .node 0 [.node 1 [], .node 2 []]) ?_ ?_
    · simp [Outline.follows_node, Outline.id, hruns]
    · simp [Outline.ids_node]
  have htwice : ¬UniquePaths knotted.layoutRun 3 := fun h ↦
    absurd (h [0] [1] 4 (by decide +kernel) (by decide +kernel)) (by decide)
  have hloop : ¬Relation.TransGen (fun p c ↦ c ∈ knotted.order p) 0 0 :=
    not_loop_of_outermost fun p hp ↦ by
      have hnone : knotted.renderParent? 0 = none := by decide +kernel
      rw [mem_order_iff hlinked.mem_iff, hnone] at hp
      exact absurd hp (by simp)
  have hlisted : knotted.layoutSubtree 0 = .ok [0, 1, 2] ∧
      knotted.renderSubtree 0 = .ok [0, 1, 2] ∧ knotted.renderSubtree 3 = .ok [3, 4] := by
    decide +kernel
  have h0 : 0 < knotted.size := hsize ▸ by decide
  have h3 : 3 < knotted.size := hsize ▸ by decide
  obtain ⟨hlayout, houtput⟩ := walks_downwards knotted 0 h0
  obtain ⟨hlayout', houtput'⟩ := walks_downwards knotted 3 h3
  obtain ⟨o, hid, ho, hlayout⟩ := (hlayout hlt).2.1 hunique
  obtain ⟨o', hid', ho', hrender⟩ := (houtput hlinked.mem_iff hlinked.nodup).2.2 hloop
  obtain ⟨ids, hids, hnodup, hmem, -⟩ := (houtput' hlinked.mem_iff hlinked.nodup).2.1
  exact ⟨h0, h3, hlt, hlinked.mem_iff, hlinked.nodup, hunique, htwice, hloop,
    ⟨o, hid, ho, hlayout, Except.ok.inj (hlayout.symm.trans hlisted.1)⟩,
    (hlayout' hlt).2.2 htwice,
    ⟨o', hid', ho', hrender, Except.ok.inj (hrender.symm.trans hlisted.2.1)⟩,
    ids, hids, hnodup, hmem, Except.ok.inj (hids.symm.trans hlisted.2.2)⟩

end NodeTree

end ViewCompiler
