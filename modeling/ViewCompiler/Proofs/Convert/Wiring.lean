import ViewCompiler.Proofs.Convert.InOrder
import ViewCompiler.Proofs.Convert.Sources
import ViewCompiler.Proofs.Template.Alignment

/-!
# Containers that align their members

Three parts of a conversion have to agree on the members of a container that are aligned on a
baseline. Classification decides that they are, and marks the one whose baseline the others follow,
possibly of a group inside another group; the walk over the output reads the members in their order;
and the dialect finds the mark again and gives each member the names of the members that it is tied
to. Without extensions they do (`Converter.wires_members`): the container is one that aligns, the
only member with the mark is the baseline of the decision, and every member is tied to that one and
to the one before it, by the names that these declare.

A mark that a node has got from elsewhere would be taken for that of a baseline, so it matters that
no node has one before the first decision (`Context.Sourced.unmarked`).
-/

namespace ViewCompiler

open NodeTree

variable {σ : Type}

/-- No node is marked before a decision is made. -/
theorem Context.Sourced.unmarked {p : Provider} {c : Context} (h : c.Sourced p) (i : NodeId) :
    (c.tree.originOf i).anchor = false := by
  rw [originOf]
  cases ho : c.tree.origin? i with
  | none => rfl
  | some o =>
    obtain ⟨x, hx⟩ := h.node i o ho
    exact hx.anchor

/-! ### Trees with the same members -/

namespace NodeTree

variable {t t' : NodeTree}

theorem Deepened.sameStanding (h : Deepened t t') : SameStanding t t' :=
  h.map_get? fun _ _ ↦ rfl

theorem sameStanding_of_bare (h : t.bare = t'.bare) : SameStanding t t' :=
  map_get?_of_bare h fun _ ↦ rfl

end NodeTree

namespace Android

/-- **What is given to members in some order**, in whichever trees and stores, comes of the bare
tree only. -/
theorem wired_of_bare {t : NodeTree} {d : LayoutDecision} {anchor : NodeId}
    (h : d.AlignsIn t anchor) (slug : String → String) (s : Screen) {trees : NodeId → NodeTree}
    (htrees : ∀ i, (trees i).bare = t.bare) (values : NodeId → ValueStore) :
    Wired (fun i ↦ ((dialect slug s).finalize (trees i) i (values i)).1) d.outputOrder anchor
      (nameOf slug t) := by
  have hsame : (fun i ↦ ((dialect slug s).finalize (trees i) i (values i)).1) =
      fun i ↦ ((dialect slug s).finalize t i (values i)).1 := funext fun i ↦ by
    have hattributes :
        (dialect slug s).attributes (trees i) i = (dialect slug s).attributes t i := by
      rw [← (onBare_dialect slug s).attributes, htrees, (onBare_dialect slug s).attributes]
    rw [Dialect.finalize, Dialect.finalize, hattributes]
  rw [hsame]
  exact wired h s values

end Android

/-! ### All decisions -/

/-- **Containers that align their members** do so when all documents have been decided on. -/
theorem Decided.alignsIn_decisions {h : Host σ} (hnil : h.extensions = []) (layout : LayoutConfig)
    {r : Run σ} (hr : r.context.Ingested) {p : Provider} (hsourced : r.context.Sourced p)
    {e : LayoutDecision} (he : e ∈ decisions h layout r.context.documents (.new r))
    (hrelative : e.container = .relative) :
    ∃ anchor, e.AlignsIn (documents h layout r).run.context.tree anchor := by
  obtain ⟨xs, hnodup, hkinds, -, hruns⟩ := exists_decided_runs hnil layout hr
  exact (Arranged.of_sown hr.sown).aligns_runs hkinds hnodup (fun x _ ↦ List.not_mem_nil)
    hsourced.unmarked hruns he hrelative

/-- And so they do in the output. -/
theorem Converted.exists_alignsIn {π : Policy} {c : Converter σ} {p : Provider} {palette : Palette}
    {s : σ} {moved : List (NodeId × NodeId)} {kept : Run σ} {d : Decided σ} {a : Assembled}
    {r : Run σ} {os : List Outline} {o : ConversionOutput}
    (h : Converted π c p palette s moved kept d a r os o) (hnil : c.host.extensions = [])
    {e : LayoutDecision} (he : e ∈ c.decisions p palette s) (hrelative : e.container = .relative) :
    ∃ anchor, e.AlignsIn r.context.tree anchor := by
  have hh := Host.obeys_of_extensions_eq_nil hnil .decides
  obtain ⟨anchor, haligns⟩ := Decided.alignsIn_decisions hnil c.config.layout
    (Converter.ingested hh p palette s) (c.sourced hnil p palette s) he hrelative
  have htree : d.run.context.tree = (Decided.documents c.host c.config.layout
      (c.loadImages (c.ingest p palette s))).run.context.tree.computeRenderDepths := by
    rw [h.decided]
    rfl
  -- since then only depths, attributes and styles have been given
  have hdeepened := deepened_computeRenderDepths (Decided.documents c.host c.config.layout
    (c.loadImages (c.ingest p palette s))).run.context.tree
  rw [← htree] at hdeepened
  exact ⟨anchor, (sameStanding_of_bare h.written.bare.symm).alignsIn
    (hdeepened.sameStanding.alignsIn haligns)⟩

/-- **Members that are aligned are wired as decided.** Without extensions a conversion fails since
the configuration is wrong or there is no document, or every decision for a container that aligns
its members comes out in full: its members are inside in the order of output, the only one with the
mark is the baseline of the decision, and the attributes that they are given, in whichever state of
the tree and of the store, tie all others to it and each to the one before. -/
theorem Converter.wires_members (c : Converter σ) (p : Provider) (s : σ)
    (hextensions : c.host.extensions = []) {screen : Android.Screen}
    (hscreen : c.target = Android.dialect c.slug screen) :
    (∃ e, c.config.check = .error e ∧ (c.convert p s).1 = .error (.config e)) ∨
      ∃ palette, c.config.check = .ok palette ∧
        ((c.decisions p palette s = [] ∧ (c.convert p s).1 = .error .noRoot) ∨
          ∃ o a r, (c.convert p s).1 = .ok o ∧ c.assembled p palette s = (.ok a, r) ∧
            ∀ d ∈ c.decisions p palette s, d.container = .relative →
              ∃ anchor, d.AlignsIn r.context.tree anchor ∧
                ∃ name, ∀ (trees : NodeId → NodeTree) (values : NodeId → ValueStore),
                  (∀ i, (trees i).bare = r.context.tree.bare) →
                    Android.Wired (fun i ↦ (c.target.finalize (trees i) i (values i)).1)
                      d.outputOrder anchor name) := by
  cases hcheck : c.config.check with
  | error e => exact .inl ⟨e, rfl, by simp only [convert, hcheck]⟩
  | ok palette =>
    refine .inr ⟨palette, rfl, ?_⟩
    have hhost := Host.obeys_of_extensions_eq_nil hextensions .decides
    rcases Converter.exists_converted hhost p s hcheck with
      ⟨hnone, herror⟩ | ⟨moved, kept, d, a, r, os, o, h⟩
    · exact .inl ⟨decisions_eq_nil hnone, herror⟩
    · refine .inr ⟨o, a, r, h.convert, h.assembled, fun e he hrelative ↦ ?_⟩
      obtain ⟨anchor, haligns⟩ := h.exists_alignsIn hextensions he hrelative
      refine ⟨anchor, haligns, Android.nameOf c.slug r.context.tree, fun trees values htrees ↦ ?_⟩
      rw [hscreen]
      exact Android.wired_of_bare haligns c.slug screen htrees values

/-- A document in which two pieces of a line overlap, the second the taller one. -/
def Provider.overlapping : Provider :=
  let element (tag : String) (bounds : Rect) (style : List (String × String))
      (children : List Handle) : ProvidedElement :=
    ⟨.ok { BoxMeasure.empty with tag := tag, bounds := bounds, style := .ofList style }, children⟩
  .ofElements [⟨"page", some 0⟩] #[element "div" ⟨0, 0, 300, 100⟩ [] [1, 2],
    element "span" ⟨0, 0, 100, 20⟩ [("line-height", "20px")] [],
    element "span" ⟨50, 5, 100, 30⟩ [("line-height", "30px")] []]

/-- The first follows the baseline of the second, and the second is at the end of the first. -/
theorem Converter.wires_members_overlapping :
    plain.host.extensions = [] ∧ plain.target = Android.dialect plain.slug (.new 1 1) ∧
      ∃ d ∈ plain.decisions .overlapping ⟨[]⟩ (), d.container = .relative ∧
        ∃ a r, ∃ name : NodeId → String,
          plain.assembled .overlapping ⟨[]⟩ () = (.ok a, r) ∧ ∀ values,
            (plain.target.finalize r.context.tree 1 values).1.get?
              "android:layout_alignBaseline" = some ("@id/" ++ name 2) ∧
            (plain.target.finalize r.context.tree 2 values).1.get?
              "android:layout_toEndOf" = some ("@id/" ++ name 1) := by
  have hscreen : plain.target = Android.dialect plain.slug (.new 1 1) := rfl
  have hcheck : plain.config.check = .ok ⟨[]⟩ := rfl
  obtain ⟨d, hd, hrelative, horder, hbaseline⟩ : ∃ d ∈ plain.decisions .overlapping ⟨[]⟩ (),
      d.container = .relative ∧ d.outputOrder = [1, 2] ∧ d.baseline = some 2 := by decide +kernel
  refine ⟨rfl, hscreen, d, hd, hrelative, ?_⟩
  rcases wires_members plain .overlapping () rfl hscreen with
    ⟨e, he, -⟩ | ⟨palette, hpalette, hall⟩
  · exact absurd (hcheck.symm.trans he) (by simp)
  · obtain rfl := Except.ok.inj (hcheck.symm.trans hpalette)
    rcases hall with ⟨hnone, -⟩ | ⟨o, a, r, -, hassembled, haligned⟩
    · exact absurd (hnone ▸ hd) List.not_mem_nil
    · obtain ⟨anchor, haligns, name, hwired⟩ := haligned d hd hrelative
      obtain rfl := Option.some.inj (hbaseline.symm.trans haligns.baseline)
      rw [horder] at hwired
      refine ⟨a, r, name, hassembled, fun values ↦ ?_⟩
      have h := hwired (fun _ ↦ r.context.tree) (fun _ ↦ values) fun _ ↦ rfl
      exact ⟨h.baseline 1 (by decide), h.next 0 (by decide)⟩

end ViewCompiler
