import Mathlib.Data.Fintype.EquivFin
import Mathlib.Data.List.Nodup
import Mathlib.Data.List.Perm.Subperm
import Mathlib.Logic.Relation
import ViewCompiler.Identity

/-!
# Outlines

Nodes refer to each other by number, and a walk over them is a loop with a stack or a recursion with
fuel. `Outline` is the tree of numbers that such a walk unfolds, so that facts about walks can be
proved by induction on a tree. It is stated for any function that gives the nodes inside a node, and
used for the layout and for the output.

If these form a forest, every node has an outline (`Forest.exists_outline`), no number is in it
twice (`Forest.nodup_ids`), and the numbers in it are what can be reached from the node
(`Outline.mem_ids_iff`). A walk downwards lists them (`Outline.walk_root`). For one node it is
enough that a forest is reached from it (`exists_outline_of_inside`).

Where every node is directly inside one other at most, there may still be loops. None of them can
be reached from a node that is on none (`not_loop_of_inside`), such as a node that is inside no
other, so that this has an outline in any case (`exists_outline_of_outermost`). In the other
direction, where one link at most leaves a number, links lead either round in a loop or to an end
(`exists_loop_or_end`, `not_loop_of_end`).
-/

namespace ViewCompiler

/-- The numbers of a node and of all nodes inside, as a tree. -/
inductive Outline where
  | node (id : NodeId) (below : List Outline)

namespace Outline

/-- The outermost number. -/
def id : Outline → NodeId
  | node id _ => id

/-- All numbers, parents first. -/
def ids : Outline → List NodeId
  | node id below => id :: below.flatMap ids

/-- Whether an outline is what a function unfolds to. -/
def Follows (children : NodeId → List NodeId) : Outline → Prop
  | node id below => below.map Outline.id = children id ∧ ∀ b ∈ below, Follows children b

theorem ids_node (i : NodeId) (below : List Outline) :
    (node i below).ids = i :: below.flatMap ids := by
  rw [ids]

theorem follows_node {children : NodeId → List NodeId} {i : NodeId} {below : List Outline} :
    (node i below).Follows children ↔
      below.map Outline.id = children i ∧ ∀ b ∈ below, b.Follows children := by
  rw [Follows]

/-- Induction on an outline, with the hypothesis for all outlines inside. -/
theorem induction {P : Outline → Prop}
    (h : ∀ id below, (∀ b ∈ below, P b) → P (node id below)) : ∀ o, P o
  | node id below => h id below fun b _ ↦ induction h b

theorem id_mem_ids (o : Outline) : o.id ∈ o.ids := by
  cases o
  rw [ids_node]
  exact List.mem_cons_self

end Outline

/-- Outlines of some kind for each of some nodes. -/
theorem Outline.exists_list {P : Outline → Prop} {ids : List NodeId}
    (h : ∀ i ∈ ids, ∃ o : Outline, o.id = i ∧ P o) :
    ∃ os : List Outline, os.map Outline.id = ids ∧ ∀ o ∈ os, P o := by
  induction ids with
  | nil => exact ⟨[], rfl, by simp⟩
  | cons i r ih =>
    obtain ⟨o, hid, ho⟩ := h i List.mem_cons_self
    obtain ⟨os, hids, hos⟩ := ih fun j hj ↦ h j (List.mem_cons_of_mem _ hj)
    refine ⟨o :: os, by rw [List.map_cons, hid, hids], fun o' ho' ↦ ?_⟩
    rcases List.mem_cons.1 ho' with rfl | ho'
    · exact ho
    · exact hos o' ho'

/-- A node is reached from another one by going inside again and again. -/
def Inside (children : NodeId → List NodeId) : NodeId → NodeId → Prop :=
  Relation.ReflTransGen fun p c ↦ c ∈ children p

section

variable {children : NodeId → List NodeId}

/-- **The numbers in an outline are what is reached.** -/
theorem Outline.mem_ids_iff {o : Outline} (h : o.Follows children) {x : NodeId} :
    x ∈ o.ids ↔ Inside children o.id x := by
  induction o using Outline.induction generalizing x with
  | h i below ih =>
    obtain ⟨hids, hbelow⟩ := follows_node.1 h
    rw [ids_node, List.mem_cons, List.mem_flatMap]
    constructor
    · rintro (rfl | ⟨b, hb, hx⟩)
      · exact .refl
      · have hchild : b.id ∈ children i := hids ▸ List.mem_map_of_mem hb
        exact .head hchild ((ih b hb (hbelow b hb)).1 hx)
    · intro hx
      rcases Relation.ReflTransGen.cases_head hx with rfl | ⟨c, hc, hx⟩
      · exact .inl rfl
      · obtain ⟨b, hb, rfl⟩ := List.mem_map.1 (hids.symm ▸ hc : c ∈ below.map Outline.id)
        exact .inr ⟨b, hb, (ih b hb (hbelow b hb)).2 hx⟩

/-- An outline depends on what is inside the nodes in it only. -/
theorem Outline.Follows.congr {children' : NodeId → List NodeId} {o : Outline}
    (h : o.Follows children) (heq : ∀ i ∈ o.ids, children' i = children i) :
    o.Follows children' := by
  induction o using Outline.induction with
  | h i below ih =>
    obtain ⟨hids, hbelow⟩ := follows_node.1 h
    rw [ids_node] at heq
    refine follows_node.2 ⟨hids.trans (heq i List.mem_cons_self).symm, fun b hb ↦ ?_⟩
    exact ih b hb (hbelow b hb) fun j hj ↦
      heq j (List.mem_cons_of_mem _ (List.mem_flatMap.2 ⟨b, hb, hj⟩))

/-! ### One node around another -/

section

variable (hparent : ∀ {p q c}, c ∈ children p → c ∈ children q → p = q)

include hparent

/-- Of two nodes around the same node one is inside the other. -/
theorem inside_total {a b x : NodeId} (ha : Inside children a x) (hb : Inside children b x) :
    Inside children a b ∨ Inside children b a := by
  have hunique : Relator.RightUnique fun c p ↦ c ∈ children p := fun _ _ _ hp hq ↦ hparent hp hq
  have hswap : ∀ {a}, Inside children a x →
      Relation.ReflTransGen (fun c p ↦ c ∈ children p) x a := fun h ↦
    Relation.reflTransGen_swap.1 h
  rcases Relation.ReflTransGen.total_of_right_unique hunique (hswap ha) (hswap hb) with h | h
  · exact .inr (Relation.reflTransGen_swap.1 h)
  · exact .inl (Relation.reflTransGen_swap.1 h)

/-- A node inside another one is the same or inside one of those directly around it. -/
theorem inside_parent {a p c : NodeId} (hc : c ∈ children p) (h : Inside children a c) :
    a = c ∨ Inside children a p := by
  rcases Relation.ReflTransGen.cases_tail h with rfl | ⟨q, hin, hq⟩
  · exact .inl rfl
  · exact .inr (hparent hq hc ▸ hin)

/-- Of two nodes around the same node the outermost one is around the other. -/
theorem inside_of_outermost {a b x : NodeId} (ha : ∀ p, a ∉ children p)
    (hax : Inside children a x) (hbx : Inside children b x) : Inside children a b := by
  rcases inside_total hparent hax hbx with h | h
  · exact h
  · rcases Relation.ReflTransGen.cases_tail h with rfl | ⟨q, -, hq⟩
    · exact .refl
    · exact absurd hq (ha q)

/-- Outermost nodes have nothing in common. -/
theorem eq_of_inside_outermost {a b x : NodeId} (ha : ∀ p, a ∉ children p)
    (hb : ∀ p, b ∉ children p) (hax : Inside children a x) (hbx : Inside children b x) : a = b := by
  rcases Relation.ReflTransGen.cases_tail (inside_of_outermost hparent ha hax hbx) with
    rfl | ⟨q, -, hq⟩
  · rfl
  · exact absurd hq (hb q)

/-- **No loop is reached from a node that is on none.** -/
theorem not_loop_of_inside {a i : NodeId}
    (ha : ¬Relation.TransGen (fun p c ↦ c ∈ children p) a a) (hi : Inside children a i) :
    ¬Relation.TransGen (fun p c ↦ c ∈ children p) i i := by
  induction hi with
  | refl => exact ha
  | @tail p c _ hc ih =>
    -- the node directly around `c` would be on the loop too
    intro hloop
    obtain ⟨q, hin, hq⟩ := Relation.TransGen.tail'_iff.1 hloop
    obtain rfl := hparent hq hc
    exact ih (.head' hc hin)

end

theorem not_loop_of_outermost {a : NodeId} (ha : ∀ p, a ∉ children p) :
    ¬Relation.TransGen (fun p c ↦ c ∈ children p) a a := fun hloop ↦ by
  obtain ⟨q, -, hq⟩ := Relation.TransGen.tail'_iff.1 hloop
  exact ha q hq

/-- Links between numbers below a bound that lead to no number again do not go on forever. -/
theorem wellFounded_of_acyclic {link : NodeId → NodeId → Prop} {n : Nat}
    (hlt : ∀ {i j}, link i j → i < n) (hacyclic : ∀ i, ¬Relation.TransGen link i i) :
    WellFounded link := by
  let below : Fin n → Fin n → Prop := fun i j ↦ Relation.TransGen link i j
  have : IsTrans (Fin n) below := ⟨fun _ _ _ h h' ↦ h.trans h'⟩
  have : Std.Irrefl below := ⟨fun i ↦ hacyclic i⟩
  have hwf : WellFounded below := Finite.wellFounded_of_trans_of_irrefl below
  have hacc : ∀ i : Fin n, Acc link i.1 := fun i ↦ by
    induction i using hwf.induction with
    | _ i ih => exact ⟨_, fun j hj ↦ ih ⟨j, hlt hj⟩ (.single hj)⟩
  exact ⟨fun i ↦ ⟨i, fun j hj ↦ hacc ⟨j, hlt hj⟩⟩⟩

/-- **Links between numbers below a bound lead round in a loop or to an end.** -/
theorem exists_loop_or_end {link : NodeId → NodeId → Prop} {n : Nat}
    (hlt : ∀ {i j}, link i j → j < n) (i : NodeId) :
    (∃ j, Relation.ReflTransGen link i j ∧ Relation.TransGen link j j) ∨
      ∃ j, Relation.ReflTransGen link i j ∧ ∀ k, ¬link j k := by
  refine or_iff_not_imp_left.2 fun hloop ↦ ?_
  -- the links that are met from `i` on, read backwards
  let back : NodeId → NodeId → Prop := fun k j ↦ Relation.ReflTransGen link i j ∧ link j k
  have hforward : ∀ {k j}, Relation.TransGen back k j →
      Relation.ReflTransGen link i j ∧ Relation.TransGen link j k := by
    intro k j hback
    induction hback with
    | single h => exact ⟨h.1, .single h.2⟩
    | tail _ h ih => exact ⟨h.1, .head h.2 ih.2⟩
  have hwf : WellFounded back :=
    wellFounded_of_acyclic (fun h ↦ hlt h.2) fun j hj ↦ hloop ⟨j, hforward hj⟩
  have hend : ∀ j, Relation.ReflTransGen link i j →
      ∃ last, Relation.ReflTransGen link i last ∧ ∀ k, ¬link last k := by
    intro j
    induction j using hwf.induction with
    | _ j ih =>
      intro hj
      by_cases hnext : ∃ k, link j k
      · obtain ⟨k, hk⟩ := hnext
        exact ih k ⟨hj, hk⟩ (hj.tail hk)
      · exact ⟨j, hj, fun k hk ↦ hnext ⟨k, hk⟩⟩
  exact hend i .refl

section

variable {link : NodeId → NodeId → Prop} (hunique : Relator.RightUnique link)

include hunique

/-- Of two numbers that are reached, one of which no link leaves, the other is on the way. -/
theorem way_to_end {i j last : NodeId} (hend : ∀ k, ¬link last k)
    (hlast : Relation.ReflTransGen link i last) (hj : Relation.ReflTransGen link i j) :
    Relation.ReflTransGen link j last := by
  rcases Relation.ReflTransGen.total_of_right_unique hunique hlast hj with h | h
  · rcases Relation.ReflTransGen.cases_head h with rfl | ⟨k, hk, -⟩
    · exact .refl
    · exact absurd hk (hend k)
  · exact h

/-- **There is one end at most.** -/
theorem eq_of_ends {i j last : NodeId} (hend : ∀ k, ¬link last k) (hend' : ∀ k, ¬link j k)
    (hlast : Relation.ReflTransGen link i last) (hj : Relation.ReflTransGen link i j) :
    j = last := by
  rcases Relation.ReflTransGen.cases_head (way_to_end hunique hend hlast hj) with rfl | ⟨k, hk, -⟩
  · rfl
  · exact absurd hk (hend' k)

/-- **There is no loop on the way to an end.** -/
theorem not_loop_of_end {i j last : NodeId} (hend : ∀ k, ¬link last k)
    (hlast : Relation.ReflTransGen link i last) (hj : Relation.ReflTransGen link i j) :
    ¬Relation.TransGen link j j := by
  have hway := way_to_end hunique hend hlast hj
  clear hj
  induction hway using Relation.ReflTransGen.head_induction_on with
  | refl =>
    intro hloop
    obtain ⟨k, hk, -⟩ := Relation.TransGen.head'_iff.1 hloop
    exact hend k hk
  | head hk _ ih =>
    -- the next number would be on the loop too
    intro hloop
    obtain ⟨k', hk', hback⟩ := Relation.TransGen.head'_iff.1 hloop
    obtain rfl := hunique hk hk'
    exact ih (.tail' hback hk)

end

/-- What is inside each node makes a forest. -/
structure Forest (children : NodeId → List NodeId) : Prop where
  nodup : ∀ p, (children p).Nodup
  parent : ∀ {p q c}, c ∈ children p → c ∈ children q → p = q
  wellFounded : WellFounded fun c p ↦ c ∈ children p

namespace Forest

section

variable (hf : Forest children)

include hf

/-- A node is not inside of what is inside it. -/
theorem not_inside_of_mem {p c : NodeId} (hc : c ∈ children p) : ¬Inside children c p := by
  induction p using hf.wellFounded.induction generalizing c with
  | _ p ih =>
    intro hin
    -- going round the loop from `c` on, one step further inside
    rcases Relation.ReflTransGen.cases_head hin with rfl | ⟨d, hd, hin⟩
    · exact ih c hc hc .refl
    · exact ih c hc hd (hin.tail hc)

/-- **Every node has an outline.** -/
theorem exists_outline (i : NodeId) : ∃ o : Outline, o.id = i ∧ o.Follows children := by
  induction i using hf.wellFounded.induction with
  | _ i ih =>
    obtain ⟨below, hids, hbelow⟩ := Outline.exists_list ih
    exact ⟨.node i below, rfl, Outline.follows_node.2 ⟨hids, hbelow⟩⟩

/-- Nodes inside the same node have nothing in common. -/
theorem eq_of_inside_siblings {p a b x : NodeId} (ha : a ∈ children p) (hb : b ∈ children p)
    (hax : Inside children a x) (hbx : Inside children b x) : a = b := by
  rcases inside_total hf.parent hax hbx with h | h
  · exact (inside_parent hf.parent hb h).resolve_right (hf.not_inside_of_mem ha)
  · exact ((inside_parent hf.parent ha h).resolve_right (hf.not_inside_of_mem hb)).symm

/-- **No number is twice in an outline.** -/
theorem nodup_ids {o : Outline} (ho : o.Follows children) : o.ids.Nodup := by
  induction o using Outline.induction with
  | h i below ih =>
    obtain ⟨hids, hbelow⟩ := Outline.follows_node.1 ho
    have hchild : ∀ b ∈ below, b.id ∈ children i := fun b hb ↦ hids ▸ List.mem_map_of_mem hb
    rw [Outline.ids_node, List.nodup_cons, List.mem_flatMap, List.nodup_flatMap]
    refine ⟨?_, fun b hb ↦ ih b hb (hbelow b hb), ?_⟩
    · rintro ⟨b, hb, hin⟩
      exact hf.not_inside_of_mem (hchild b hb) ((Outline.mem_ids_iff (hbelow b hb)).1 hin)
    · have hdistinct : (below.map Outline.id).Nodup := hids ▸ hf.nodup i
      refine (List.pairwise_map.1 hdistinct).imp_of_mem fun {a b} ha hb hne x hxa hxb ↦ ?_
      exact hne (hf.eq_of_inside_siblings (hchild a ha) (hchild b hb)
        ((Outline.mem_ids_iff (hbelow a ha)).1 hxa) ((Outline.mem_ids_iff (hbelow b hb)).1 hxb))

end

end Forest

/-! ### Outermost nodes -/

/-- **A node has an outline**, in which no number is twice, if what is inside the nodes that are
reached from it makes a forest. -/
theorem exists_outline_of_inside {n : Nat} {a : NodeId}
    (hnodup : ∀ p, Inside children a p → (children p).Nodup)
    (hparent : ∀ {p q c}, Inside children a p → Inside children a q → c ∈ children p →
      c ∈ children q → p = q)
    (hlt : ∀ {p c}, c ∈ children p → c < n)
    (hacyclic : ∀ i, Inside children a i →
      ¬Relation.TransGen (fun p c ↦ c ∈ children p) i i) :
    ∃ o : Outline, o.id = a ∧ o.Follows children ∧ o.ids.Nodup := by
  classical
  -- whatever there is elsewhere is cut off
  let inner : NodeId → List NodeId := fun i ↦ if Inside children a i then children i else []
  have hsub : ∀ {p c}, c ∈ inner p → Inside children a p ∧ c ∈ children p := fun {p c} hc ↦ by
    by_cases hp : Inside children a p
    · exact ⟨hp, by rwa [show inner p = children p from if_pos hp] at hc⟩
    · rw [show inner p = [] from if_neg hp] at hc
      exact absurd hc List.not_mem_nil
  have hforest : Forest inner := by
    refine ⟨fun p ↦ ?_, fun hp hq ↦ hparent (hsub hp).1 (hsub hq).1 (hsub hp).2 (hsub hq).2,
      wellFounded_of_acyclic (fun hc ↦ hlt (hsub hc).2) fun i hloop ↦ ?_⟩
    · show (if Inside children a p then children p else []).Nodup
      split
      · exact hnodup p ‹_›
      · exact .nil
    · have hloop' : Relation.TransGen (fun p c ↦ c ∈ inner p) i i := Relation.transGen_swap.1 hloop
      obtain ⟨c, hc, -⟩ := Relation.TransGen.head'_iff.1 hloop'
      exact hacyclic i (hsub hc).1
        (Relation.TransGen.mono (fun _ _ h ↦ (hsub h).2) _ _ hloop')
  obtain ⟨o, rfl, ho⟩ := hforest.exists_outline a
  refine ⟨o, rfl, ho.congr fun i hi ↦ ?_, hforest.nodup_ids ho⟩
  have hin : Inside children o.id i :=
    Relation.ReflTransGen.mono (fun _ _ h ↦ (hsub h).2) _ _ ((Outline.mem_ids_iff ho).1 hi)
  exact (if_pos hin).symm

section

variable (hparent : ∀ {p q c}, c ∈ children p → c ∈ children q → p = q)

include hparent

/-- **An outermost node has an outline**, in which no number is twice. -/
theorem exists_outline_of_outermost {n : Nat} (hnodup : ∀ p, (children p).Nodup)
    (hlt : ∀ {p c}, c ∈ children p → c < n) {a : NodeId} (ha : ∀ p, a ∉ children p) :
    ∃ o : Outline, o.id = a ∧ o.Follows children ∧ o.ids.Nodup :=
  exists_outline_of_inside (fun p _ ↦ hnodup p) (fun _ _ ↦ hparent) hlt fun _ hi ↦
    not_loop_of_inside hparent (not_loop_of_outermost ha) hi

/-- **No number is twice in the outlines of outermost nodes.** -/
theorem nodup_flatMap_ids {os : List Outline} (hos : ∀ o ∈ os, o.Follows children)
    (hids : ∀ o ∈ os, o.ids.Nodup) (hnodup : (os.map Outline.id).Nodup)
    (houter : ∀ o ∈ os, ∀ p, o.id ∉ children p) : (os.flatMap Outline.ids).Nodup := by
  rw [List.nodup_flatMap]
  refine ⟨hids, ?_⟩
  refine (List.pairwise_map.1 hnodup).imp_of_mem fun {a b} ha hb hne x hxa hxb ↦ ?_
  exact hne (eq_of_inside_outermost hparent (houter a ha) (houter b hb)
    ((Outline.mem_ids_iff (hos a ha)).1 hxa) ((Outline.mem_ids_iff (hos b hb)).1 hxb))

end

/-! ### Walks downwards -/

/-- Different numbers below a bound are not more than the bound. -/
theorem length_le_of_nodup {ids : List NodeId} {n : Nat} (hnodup : ids.Nodup)
    (hlt : ∀ i ∈ ids, i < n) : ids.length ≤ n := by
  have hsubset : ids ⊆ List.range n := fun i hi ↦ List.mem_range.2 (hlt i hi)
  have hle := (List.subperm_of_subset hnodup hsubset).length_le
  rwa [List.length_range] at hle

section

variable {ε : Type} {size : Nat}
  {walk : Nat → List NodeId → List NodeId → Except ε (List NodeId)}
  (hnil : ∀ fuel seen, walk fuel seen [] = .ok seen.reverse)
  (hcons : ∀ {fuel seen stack i}, seen.contains i = false → i < size →
    walk (fuel + 1) seen (i :: stack) = walk fuel (i :: seen) (children i ++ stack))

include hnil hcons

/-- A walk that takes a new node from its stack and puts those inside on it lists the outlines of
what is on the stack. -/
theorem Outline.walk_eq {fuel : Nat} {seen : List NodeId} {os : List Outline}
    (hos : ∀ o ∈ os, o.Follows children) (hnodup : (seen ++ os.flatMap Outline.ids).Nodup)
    (hlt : ∀ i ∈ os.flatMap Outline.ids, i < size)
    (hfuel : (os.flatMap Outline.ids).length ≤ fuel) :
    walk fuel seen (os.map Outline.id) = .ok (seen.reverse ++ os.flatMap Outline.ids) := by
  induction fuel generalizing seen os with
  | zero =>
    obtain - | ⟨⟨i, below⟩, r⟩ := os
    · simp [hnil]
    · simp [Outline.ids_node] at hfuel
  | succ fuel ih =>
    obtain - | ⟨⟨i, below⟩, r⟩ := os
    · simp [hnil]
    obtain ⟨hids, hbelow⟩ := Outline.follows_node.1 (hos _ List.mem_cons_self)
    have hflat : (Outline.node i below :: r).flatMap Outline.ids =
        i :: (below ++ r).flatMap Outline.ids := by
      rw [List.flatMap_cons, Outline.ids_node, List.flatMap_append, List.cons_append]
    rw [hflat] at hnodup hlt hfuel ⊢
    have hseen : seen.contains i = false := by
      rw [List.nodup_append'] at hnodup
      simpa using fun hi ↦ hnodup.2.2 hi List.mem_cons_self
    -- the stack is again one of outlines: those inside the first, and the others
    have hstack : children i ++ r.map Outline.id = (below ++ r).map Outline.id := by
      rw [List.map_append, hids]
    rw [List.map_cons, Outline.id, hcons hseen (hlt i List.mem_cons_self), hstack, ih]
    · simp
    · intro o ho
      rcases List.mem_append.1 ho with ho | ho
      · exact hbelow o ho
      · exact hos o (List.mem_cons_of_mem _ ho)
    · exact List.perm_middle.nodup_iff.1 hnodup
    · exact fun j hj ↦ hlt j (List.mem_cons_of_mem _ hj)
    · rw [List.length_cons] at hfuel
      omega

/-- **A walk from one node lists its outline**, with as many steps as there are numbers. -/
theorem Outline.walk_root {o : Outline} (ho : o.Follows children) (hnodup : o.ids.Nodup)
    (hlt : ∀ i ∈ o.ids, i < size) : walk (size + 1) [] [o.id] = .ok o.ids := by
  have hwalk : walk (size + 1) [] ([o].map Outline.id) =
      .ok ([].reverse ++ [o].flatMap Outline.ids) :=
    Outline.walk_eq hnil hcons (by simpa using ho) (by simpa using hnodup) (by simpa using hlt)
      (by simpa using Nat.le_succ_of_le (length_le_of_nodup hnodup hlt))
  simpa using hwalk

end

end

end ViewCompiler
