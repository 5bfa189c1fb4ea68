import ViewCompiler.Proofs.Layout.Depths
import ViewCompiler.Proofs.Layout.Linked

/-!
# Depths in the output after any calls

Every node of a tree leads, from one render parent to the next, either round in a loop or up to an
outermost node. In the second case its depth in the output is the number of nodes on the way
(`NodeTree.renderDepths_exact`), whatever calls have made the tree: they keep both sides of each
link together (`NodeTree.Linked`), and that is all that the walk over the output needs.

A depth that does not fit that of the render parent is thus found on a loop or inside of one only.
On every loop there is one, since depths cannot grow all the way round.
-/

namespace ViewCompiler

namespace NodeTree

variable {t : NodeTree}

/-- One node renders in another one. -/
def RendersIn (t : NodeTree) (i p : NodeId) : Prop := t.renderParent? i = some p

theorem exists_chain_of_end {i last : NodeId}
    (hway : Relation.ReflTransGen t.RendersIn i last) (hend : ∀ p, ¬t.RendersIn last p) :
    ∃ chain, t.RenderChain i chain := by
  induction hway using Relation.ReflTransGen.head_induction_on with
  | refl => exact ⟨[], .outermost (Option.eq_none_iff_forall_ne_some.2 hend)⟩
  | head hp _ ih =>
    obtain ⟨chain, hchain⟩ := ih
    exact ⟨_, .inside hp hchain⟩

section

variable (hlinked : ∀ p c, c ∈ t.renderMembers p ↔ t.renderParent? c = some p)

include hlinked

/-- **A node is on a loop, inside of one, or has a chain of render parents.** -/
theorem exists_loop_or_chain (i : NodeId) :
    (∃ j, Relation.ReflTransGen t.RendersIn i j ∧ Relation.TransGen t.RendersIn j j) ∨
      ∃ chain, t.RenderChain i chain := by
  have hlt : ∀ {i p}, t.RendersIn i p → p < t.size := lt_size_of_outer hlinked
  refine (exists_loop_or_end hlt i).imp_right ?_
  rintro ⟨last, hway, hend⟩
  exact exists_chain_of_end hway hend

/-- **The depth of a node with a chain fits.** -/
theorem not_mem_violations_of_chain {i : NodeId} {chain : List NodeId}
    (hchain : t.RenderChain i chain) : i ∉ t.computeRenderDepths.renderDepthViolations := by
  have hu := unmoved_computeRenderDepths t
  rw [mem_renderDepthViolations, hu.size_eq, hu.renderParent?]
  rintro ⟨hi, hne⟩
  refine hne ?_
  rw [renderDepth?_computeRenderDepths hlinked hi hchain]
  cases hchain with
  | outermost hnone => rw [hnone]; rfl
  | inside hp houter =>
    have hlt := lt_size_of_outer hlinked hp
    rw [hp, Option.bind_some, renderDepth?_computeRenderDepths hlinked hlt houter]
    rfl

/-- Where all depths fit they grow along the links. -/
theorem lt_of_no_violations {i j : NodeId} (hnone : t.renderDepthViolations = [])
    (hway : Relation.TransGen t.RendersIn i j) :
    ∃ d e, t.renderDepth? i = some d ∧ t.renderDepth? j = some e ∧ e < d := by
  have hstep : ∀ {i p}, t.RendersIn i p →
      ∃ e, t.renderDepth? p = some e ∧ t.renderDepth? i = some (e + 1) := by
    intro i p hp
    obtain ⟨n, hn⟩ := exists_get? (lt_size_of_outer hlinked hp)
    have hdepth : t.renderDepth? p = some n.renderDepth := by rw [renderDepth?, hn, Option.map_some]
    have hfits : i ∉ t.renderDepthViolations := hnone ▸ List.not_mem_nil
    rw [mem_renderDepthViolations, not_and, not_not] at hfits
    refine ⟨n.renderDepth, hdepth, (hfits (lt_size_of_renderParent? hp)).trans ?_⟩
    rw [show t.renderParent? i = some p from hp, Option.bind_some, hdepth]
    rfl
  induction hway with
  | single hp =>
    obtain ⟨e, he, hd⟩ := hstep hp
    exact ⟨e + 1, e, hd, he, Nat.lt_succ_self e⟩
  | tail _ hp ih =>
    obtain ⟨d, e, hd, he, hlt⟩ := ih
    obtain ⟨e', he', heq⟩ := hstep hp
    obtain rfl := Option.some.inj (he.symm.trans heq)
    exact ⟨d, e', hd, he', Nat.lt_of_succ_lt hlt⟩

end

/-- **Depths in the output are exact after any calls**: a node that is inside others up to an
outermost one has their number as its depth. So a depth that does not fit is that of a node on a
render loop or inside of one, and there is none exactly if there is no loop. -/
theorem renderDepths_exact (calls : List Call) :
    let t := empty.performAll calls
    (∀ i chain, i < t.size → t.RenderChain i chain →
      t.computeRenderDepths.renderDepth? i = some chain.length) ∧
    (∀ i ∈ t.computeRenderDepths.renderDepthViolations, ∃ j,
      Relation.ReflTransGen t.RendersIn i j ∧ Relation.TransGen t.RendersIn j j) ∧
    (t.computeRenderDepths.renderDepthViolations = [] ↔
      ∀ j, ¬Relation.TransGen t.RendersIn j j) := by
  intro t
  have hlinked : t.Linked := (Relinked.foldl relinked_perform calls empty).linked .empty
  have hviolations : ∀ i ∈ t.computeRenderDepths.renderDepthViolations, ∃ j,
      Relation.ReflTransGen t.RendersIn i j ∧ Relation.TransGen t.RendersIn j j := fun i hi ↦
    (exists_loop_or_chain hlinked.mem_iff i).resolve_right fun ⟨_, hchain⟩ ↦
      not_mem_violations_of_chain hlinked.mem_iff hchain hi
  refine ⟨fun i chain ↦ renderDepth?_computeRenderDepths hlinked.mem_iff, hviolations,
    fun hnone j hloop ↦ ?_, fun hacyclic ↦ ?_⟩
  · -- the links are the same after the walk
    have hu := unmoved_computeRenderDepths t
    have hlinked' := ((Relinked.of_unmoved hu).linked hlinked).mem_iff
    have hsame : t.RendersIn = t.computeRenderDepths.RendersIn := by
      funext i p
      rw [RendersIn, RendersIn, hu.renderParent?]
    rw [hsame] at hloop
    obtain ⟨d, e, hd, he, hlt⟩ := lt_of_no_violations hlinked' hnone hloop
    obtain rfl := Option.some.inj (hd.symm.trans he)
    exact Nat.lt_irrefl _ hlt
  · refine List.eq_nil_iff_forall_not_mem.2 fun i hi ↦ ?_
    obtain ⟨j, -, hloop⟩ := hviolations i hi
    exact hacyclic j hloop

/-- A node may be put inside itself. Then neither its depth fits nor that of what is inside. -/
example :
    let t := empty.performAll [.alloc .element "div", .alloc .element "p", .alloc .element "ul",
      .setRenderParent 0 0, .setRenderParent 1 0]
    t.computeRenderDepths.renderDepthViolations = [0, 1] := by decide +kernel

end NodeTree

end ViewCompiler
