import ViewCompiler.Proofs.Convert.Decisions
import ViewCompiler.Proofs.Convert.Faithful
import ViewCompiler.Proofs.Convert.Lasting
import ViewCompiler.Proofs.Layout.Renumbered
import ViewCompiler.Proofs.Layout.Reordering

/-!
# Reordered containers in the output

The order of a container is decided on twice. Classification gives the members of a container their
places, and the assembly carries out the orders that have been kept when the level of the container
is closed. Without extensions both come to the order that the decision says
(`Converter.comes_out_in_order`): the elements directly inside the owner of a decision are its
members in that order (`LayoutDecision.ComesOut`), and no order is rejected.

What the decisions say holds when all documents have been decided on (`Decided.holdsIn_decisions`),
so it is the order in which the outlines of the output unfold, and those are what is written.
-/

namespace ViewCompiler

open NodeTree

variable {σ : Type}

/-- **How a decision comes out**: its owner is an element, and directly inside are its members in
the order that it says and nothing else, reordered as it says. -/
structure LayoutDecision.ComesOut (t : NodeTree) (elements : List (NodeId × List NodeId))
    (d : LayoutDecision) : Prop where
  owner : d.owner ∈ elements.map Prod.fst
  inside : Piece.elementsIn elements d.owner = d.outputOrder
  reorders : d.Reorders t

/-! ### Boxes after the decisions -/

theorem NodeTree.sameBoxes_of_bare {t t' : NodeTree} (h : t.bare = t'.bare) : SameBoxes t t' :=
  fun i _ ↦ map_get?_of_bare h (fun _ ↦ rfl) i

theorem Decided.sameBoxes_withDepths (d : Decided σ) :
    SameBoxes d.run.context.tree d.withDepths.run.context.tree := fun i _ ↦
  (deepened_computeRenderDepths d.run.context.tree).map_get? (fun _ _ ↦ by rfl) i

/-! ### All decisions -/

/-- **The decisions of a conversion** are those on the runs of some nodes, which are the nodes that
have been asked about: each once, and no group or host. -/
theorem Decided.exists_decided_runs {h : Host σ} (hnil : h.extensions = []) (layout : LayoutConfig)
    {r : Run σ} (hr : r.context.Ingested) : ∃ xs : List NodeId, xs.Nodup ∧
      (∀ x ∈ xs, ∃ k, r.context.tree.kind? x = some k ∧ k ≠ .group ∧ k ≠ .host) ∧
      (∀ x, x ∈ (answers h layout r.context.documents (.new r) []).map Prod.fst ↔ x ∈ xs) ∧
      Classify.runs layout r.context.tree xs =
        .ok (⟨decisions h layout r.context.documents (.new r), []⟩,
          (documents h layout r).run.context.tree) := by
  have hh := Host.obeys_of_extensions_eq_nil hnil .decides
  obtain ⟨moved, kept, hd⟩ := exists_concluded hh layout hr
  obtain ⟨xs, o, hruns, hdecisions, hasked⟩ :=
    exists_runs_of_settlesAll hnil (settlesAll_documents hh layout hr) []
  rw [List.map_nil, List.append_nil] at hasked
  have hnodup : xs.Nodup := List.nodup_reverse.1 (hasked ▸ hd.answered.nodup)
  have hmem : ∀ x, x ∈ (answers h layout r.context.documents (.new r) []).map Prod.fst ↔
      x ∈ xs := fun x ↦ by rw [hasked, List.mem_reverse]
  have hkinds : ∀ x ∈ xs, ∃ k, r.context.tree.kind? x = some k ∧ k ≠ .group ∧ k ≠ .host := by
    intro x hx
    obtain ⟨e, he, hin, -⟩ := (hd.asked x).1 ((hmem x).2 hx)
    rw [← hd.tree]
    exact hd.ingested.sown.forest.kind?_of_inside (hd.ingested.roots e he) hin
  -- no member is skipped
  obtain ⟨ds, t, hok, -⟩ := (Arranged.of_sown hr.sown).exists_holding_runs layout hkinds hnodup
    fun x _ ↦ List.not_mem_nil
  obtain ⟨rfl, -⟩ := Prod.mk.inj (Except.ok.inj (hok.symm.trans hruns))
  rw [hdecisions]
  exact ⟨xs, hnodup, hkinds, hmem, hruns⟩

/-- **What the decisions of a conversion say** holds when all documents have been decided on. Their
owners are groups or nodes that have been asked about. -/
theorem Decided.holdsIn_decisions {h : Host σ} (hnil : h.extensions = []) (layout : LayoutConfig)
    {r : Run σ} (hr : r.context.Ingested) {e : LayoutDecision}
    (he : e ∈ decisions h layout r.context.documents (.new r)) :
    e.HoldsIn (documents h layout r).run.context.tree ∧
      (e.owner ∈ (answers h layout r.context.documents (.new r) []).map Prod.fst ∨
        (documents h layout r).run.context.tree.kind? e.owner = some .group) := by
  obtain ⟨xs, hnodup, hkinds, hmem, hruns⟩ := exists_decided_runs hnil layout hr
  obtain ⟨ds, t, hok, hholds, -⟩ := (Arranged.of_sown hr.sown).exists_holding_runs layout hkinds
    hnodup fun x _ ↦ List.not_mem_nil
  obtain ⟨houtcome, rfl⟩ := Prod.mk.inj (Except.ok.inj (hruns.symm.trans hok))
  obtain rfl : decisions h layout r.context.documents (.new r) = ds :=
    congrArg ClassifyOutcome.decisions houtcome
  rw [hmem]
  exact hholds e he

namespace Concluded

variable {π : Policy} {h : Host σ} {l : Answers} {moved : List (NodeId × NodeId)} {r kept : Run σ}
  {d : Decided σ} (hd : Concluded π h l moved r kept d) (hproceed : ∀ n, l.about n = .proceed)

include hd hproceed

/-- **Nodes that have been asked about and groups are in the output.** -/
theorem exists_inside_target {x : NodeId}
    (hx : x ∈ l.map Prod.fst ∨ d.run.context.tree.kind? x = some .group) :
    ∃ root ∈ d.run.context.targets.map DocumentEntry.root,
      Inside d.run.context.tree.order root x := by
  have hasked : ∀ {y}, y ∈ l.map Prod.fst → ∃ root ∈ d.run.context.targets.map DocumentEntry.root,
      Inside d.run.context.tree.order root y := fun {y} hy ↦ by
    obtain ⟨e, he, hin, -⟩ := (hd.mem_answers_iff y).1 hy
    obtain ⟨htarget, hinside⟩ := hd.emits_of_proceed hproceed he hin
    exact ⟨e.root, htarget _ rfl, (hinside _ (htarget _ rfl)).2 rfl⟩
  rcases hx with hx | hx
  · exact hasked hx
  · -- a group is inside the node whose run it is in
    obtain ⟨-, -, p, hp, hparent⟩ := hd.answered.arranged.group x hx
    obtain ⟨root, hroot, hin⟩ := hasked (mem_settledIn.1 hp).1
    exact ⟨root, hroot, hin.trans (hd.answered.arranged.inside_group hx hparent)⟩

end Concluded

namespace Converted

variable {π : Policy} {c : Converter σ} {p : Provider} {palette : Palette} {s : σ}
  {moved : List (NodeId × NodeId)} {kept : Run σ} {d : Decided σ} {a : Assembled} {r : Run σ}
  {os : List Outline} {o : ConversionOutput} (h : Converted π c p palette s moved kept d a r os o)
  (hnil : c.host.extensions = [])

include h hnil

/-- **Every decision comes out as it says.** -/
theorem comesOut {e : LayoutDecision} (he : e ∈ c.decisions p palette s) :
    e.ComesOut r.context.tree (os.flatMap (Outline.placed [])) := by
  have hh := Host.obeys_of_extensions_eq_nil hnil .decides
  obtain ⟨hholds, howner⟩ := Decided.holdsIn_decisions hnil c.config.layout
    (Converter.ingested hh p palette s) he
  -- since then only depths, attributes and styles have been given
  have hboxes := Decided.sameBoxes_withDepths (Decided.documents c.host c.config.layout
    (c.loadImages (c.ingest p palette s)))
  have hu := unmoved_computeRenderDepths (Decided.documents c.host c.config.layout
    (c.loadImages (c.ingest p palette s))).run.context.tree
  have hdecided := h.decided
  generalize Decided.documents c.host c.config.layout (c.loadImages (c.ingest p palette s)) = d₀
    at hholds howner hboxes hu hdecided
  have htree : d.run.context.tree = d₀.run.context.tree.computeRenderDepths := by
    rw [hdecided]
    rfl
  rw [← htree] at hu
  have howner' : e.owner ∈ (c.answers p palette s).map Prod.fst ∨
      d.run.context.tree.kind? e.owner = some .group := howner.imp_right hu.extended.kind?_eq
  obtain ⟨root, hroot, hin⟩ := h.concluded.exists_inside_target
    (Converter.about_answers hnil p palette s) howner'
  rw [← h.written.targets, ← h.written.outlined.ids] at hroot
  obtain ⟨o, ho, rfl⟩ := List.mem_map.1 hroot
  have hmem : e.owner ∈ os.flatMap Outline.ids :=
    List.mem_flatMap.2 ⟨o, ho, (Outline.mem_ids_iff (h.written.outlined.follows o ho)).2 hin⟩
  refine ⟨?_, ?_, (hholds.reorders.congr hboxes).congr ?_⟩
  · have hids : (fun o : Outline ↦ (o.placed []).map Prod.fst) = Outline.ids :=
      funext fun o ↦ o.map_fst_placed []
    rwa [List.map_flatMap, hids]
  · rw [Outline.elementsIn_flatMap_placed h.written.outlined.follows h.written.outlined.nodup hmem,
      hu.order]
    exact hholds.order_eq
  · rw [← hdecided]
    exact sameBoxes_of_bare h.written.bare.symm

/-- **No order is rejected.** -/
theorem unrejected : ∀ e ∈ o.diagnostics, e.kind ≠ .rejectedReorder := by
  have hlasting := Converter.lasting_decided (Context.lasting_unrejected _)
    (Host.keeps_of_extensions_eq_nil hnil _) p.says_unstyled palette s
    fun e he ↦ absurd he List.not_mem_nil
  rw [h.diagnostics, h.written.diagnostics, h.decided]
  exact hlasting

end Converted

/-- Nothing is decided if no document has been made into nodes. -/
theorem Converter.decisions_eq_nil {c : Converter σ} {p : Provider} {palette : Palette} {s : σ}
    (hnone : (c.ingest p palette s).context.documents = []) : c.decisions p palette s = [] := by
  rw [decisions, (c.unmoved_loadImages _).documents, hnone]
  rfl

/-- **Reordered containers come out in the order of their boxes.** Without extensions, and whether
or not documents are left out since the conversion is to stop, a conversion fails since the
configuration is wrong or there is no document, or every decision comes out as it says, and no order
is rejected. -/
theorem Converter.comes_out_in_order (c : Converter σ) (p : Provider) (s : σ)
    (hextensions : c.host.extensions = []) :
    (∃ e, c.config.check = .error e ∧ (c.convert p s).1 = .error (.config e)) ∨
      ∃ palette, c.config.check = .ok palette ∧
        ((c.decisions p palette s = [] ∧ (c.convert p s).1 = .error .noRoot) ∨
          ∃ o a r elements, (c.convert p s).1 = .ok o ∧ c.assembled p palette s = (.ok a, r) ∧
            o.documents = (a.targets.zip (a.resolutions r.context.tree)).map (fun e ↦
              e.2.output c.slug c.target r.context.tree e.1) ∧
            List.Forall₂ (fun R es ↦ Piece.elements? [] R.pieces = some es)
              (a.resolutions r.context.tree) elements ∧
            (∀ d ∈ c.decisions p palette s, d.ComesOut r.context.tree elements.flatten) ∧
            ∀ e ∈ o.diagnostics, e.kind ≠ .rejectedReorder) := by
  cases hcheck : c.config.check with
  | error e => exact .inl ⟨e, rfl, by simp only [convert, hcheck]⟩
  | ok palette =>
    refine .inr ⟨palette, rfl, ?_⟩
    have hhost := Host.obeys_of_extensions_eq_nil hextensions .decides
    rcases Converter.exists_converted hhost p s hcheck with
      ⟨hnone, herror⟩ | ⟨moved, kept, d, a, r, os, o, h⟩
    · exact .inl ⟨decisions_eq_nil hnone, herror⟩
    · obtain ⟨hfaithful, -⟩ := h.all_faithful (Converter.about_answers hextensions p palette s)
      refine .inr ⟨o, a, r, _, h.convert, h.assembled, h.documents,
        hfaithful.imp fun _ _ hR ↦ hR.balanced, fun e he ↦ ?_, h.unrejected hextensions⟩
      rw [← List.flatMap_def]
      exact h.comesOut hextensions he

/-- A document of which the root is a row from right to left, with two boxes in that order. -/
def Provider.rightToLeft : Provider :=
  let element (bounds : Rect) (children : List Handle) : ProvidedElement :=
    ⟨.ok { BoxMeasure.empty with
      tag := "div"
      bounds := bounds
      style := .ofList [("direction", "rtl"), ("display", "flex")] }, children⟩
  .ofElements [⟨"page", some 0⟩]
    #[element ⟨0, 0, 200, 50⟩ [1, 2], element ⟨100, 0, 50, 50⟩ [], element ⟨0, 0, 50, 50⟩ []]

/-- The boxes come out from left to right. -/
theorem Converter.comes_out_in_order_rightToLeft :
    plain.host.extensions = [] ∧ ∃ o a r elements, (plain.convert .rightToLeft ()).1 = .ok o ∧
      plain.assembled .rightToLeft ⟨[]⟩ () = (.ok a, r) ∧
      List.Forall₂ (fun R es ↦ Piece.elements? [] R.pieces = some es)
        (a.resolutions r.context.tree) elements ∧
      Piece.elementsIn elements.flatten 0 = [2, 1] := by
  have hcheck : plain.config.check = .ok ⟨[]⟩ := rfl
  have hdecision : ∃ d ∈ plain.decisions .rightToLeft ⟨[]⟩ (),
      d.owner = 0 ∧ d.outputOrder = [2, 1] := by decide +kernel
  refine ⟨rfl, ?_⟩
  obtain ⟨d, hd, howner, horder⟩ := hdecision
  rcases comes_out_in_order plain .rightToLeft () rfl with ⟨e, he, -⟩ | ⟨palette, hpalette, hall⟩
  · exact absurd (hcheck.symm.trans he) (by simp)
  · obtain rfl := Except.ok.inj (hcheck.symm.trans hpalette)
    rcases hall with ⟨hnone, -⟩ | ⟨o, a, r, elements, hok, hassembled, -, helements, hcomes, -⟩
    · exact absurd (hnone ▸ hd) List.not_mem_nil
    · refine ⟨o, a, r, elements, hok, hassembled, helements, ?_⟩
      rw [← howner, ← horder]
      exact (hcomes d hd).inside

end ViewCompiler
