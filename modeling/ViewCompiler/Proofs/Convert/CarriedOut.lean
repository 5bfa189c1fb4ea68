import ViewCompiler.Proofs.Convert.Written
import ViewCompiler.Proofs.Template.Pieces

/-!
# Decisions are carried out

The main statement is `Converter.carries_out`: a conversion with extensions that only decide on runs
succeeds as soon as a document has been made into nodes, fills every slot, and carries the answers
of the extensions out (`CarriedOut`). About each node with a run there is one answer, the first
response of the extensions that is not to proceed. Every node of the layout is emitted once, in the
output of the document or host that the walk upwards from it ends in, as an element or as the text
that replaces it; a node that is inside a replaced one is not emitted, unless it or a node between
is moved.
-/

namespace ViewCompiler

open NodeTree

variable {σ : Type}

/-- The outputs of some documents and hosts carry out what has been answered about the nodes. -/
structure CarriedOut (l : Answers) (t : NodeTree) (documents : List DocumentEntry)
    (outputs : List Resolution) : Prop where
  unresolved : ∀ R ∈ outputs, R.unresolved = []
  cycles : ∀ R ∈ outputs, R.cycles = []
  distinct : (outputs.map Resolution.root).Nodup
  /-- No node is asked about twice. -/
  once : (l.map Prod.fst).Nodup
  /-- The nodes asked about are those of the documents that have a run. -/
  asked : ∀ n, n ∈ l.map Prod.fst ↔
    ∃ e ∈ documents, ∃ ids, t.layoutSubtree e.root = .ok ids ∧ n ∈ ids ∧ t.layoutRun n ≠ []
  /-- A node that is not replaced is an element of the output in which it is at home, and of no
  other. -/
  nodes : ∀ e ∈ documents, ∃ ids, t.layoutSubtree e.root = .ok ids ∧ ∀ n ∈ ids,
    (∀ home, l.home? t n = some home → home ∈ outputs.map Resolution.root) ∧
      ∀ R ∈ outputs, (R.pieces.filterMap Piece.node?).count n =
        if (l.about n).replacement? = none ∧ l.home? t n = some R.root then 1 else 0
  /-- The texts in an output are those of the replaced nodes that are at home in it. An empty text
  leaves no piece. -/
  texts : ∀ R ∈ outputs, (R.pieces.filterMap Piece.text?).Perm
    ((l.filterMap fun e ↦ if l.home? t e.1 = some R.root then e.2.replacement? else none).filter
      fun text ↦ text ≠ "")

theorem Answers.about_of_mem {l : Answers} (hl : (l.map Prod.fst).Nodup) {e : NodeId × HookAction}
    (he : e ∈ l) : l.about e.1 = e.2 := by
  induction l with
  | nil => exact absurd he List.not_mem_nil
  | cons e' r ih =>
    obtain ⟨hnew, hr⟩ := List.nodup_cons.1 hl
    rw [about_cons]
    rcases List.mem_cons.1 he with rfl | he
    · rw [if_pos rfl]
    · have hne : e.1 ≠ e'.1 := fun heq ↦ hnew (heq ▸ List.mem_map_of_mem he)
      rw [if_neg hne, ih hr he]

namespace Concluded

variable {π : Policy} {h : Host σ} {l : Answers} {moved : List (NodeId × NodeId)} {r kept : Run σ}
  {d : Decided σ} (hd : Concluded π h l moved r kept d)

include hd

/-- The texts of the replaced nodes among some, in terms of the answers. -/
theorem perm_texts {ids : List NodeId} (hids : ids.Nodup) {p : NodeId → Prop} [DecidablePred p]
    (hp : ∀ n ∈ l.map Prod.fst, n ∈ ids ↔ p n) :
    (ids.filterMap d.replacements.get?).Perm
      (l.filterMap fun e ↦ if p e.1 then e.2.replacement? else none) := by
  have hnodup := hd.answered.nodup
  have hleft : ids.filterMap d.replacements.get? =
      (ids.filter fun n ↦ decide (n ∈ l.map Prod.fst)).filterMap fun n ↦
        (l.about n).replacement? := by
    rw [List.filterMap_filter]
    refine List.filterMap_congr fun n _ ↦ ?_
    rw [hd.answered.replacements]
    simp only [decide_eq_true_eq]
  have hright : (l.filterMap fun e ↦ if p e.1 then e.2.replacement? else none) =
      ((l.map Prod.fst).filter fun n ↦ decide (p n)).filterMap fun n ↦
        (l.about n).replacement? := by
    rw [List.filterMap_filter, List.filterMap_map]
    refine List.filterMap_congr fun e he ↦ ?_
    rw [Function.comp_apply, Answers.about_of_mem hnodup he]
    simp only [decide_eq_true_eq]
  rw [hleft, hright]
  refine List.Perm.filterMap _ ((List.perm_ext_iff_of_nodup (hids.filter _)
    (hnodup.filter _)).2 fun n ↦ ?_)
  simp only [List.mem_filter, decide_eq_true_eq]
  constructor
  · rintro ⟨hn, hl⟩
    exact ⟨hl, (hp n hl).1 hn⟩
  · rintro ⟨hl, hn⟩
    exact ⟨(hp n hl).2 hn, hl⟩

end Concluded

namespace Converted

variable {c : Converter σ} {p : Provider} {palette : Palette} {s : σ}
  {moved : List (NodeId × NodeId)} {kept : Run σ} {d : Decided σ} {a : Assembled} {r : Run σ}
  {os : List Outline} {o : ConversionOutput}
  (h : Converted .decides c p palette s moved kept d a r os o)

include h

/-- **Where the walk ends**, in the tree that the conversion leaves. -/
theorem emits {e : DocumentEntry} (he : e ∈ r.context.documents) {n : NodeId}
    (hn : Inside d.run.context.tree.layoutRun e.root n) :
    d.Emits n ((c.answers p palette s).home? r.context.tree n) := by
  have hu := h.written.unmoved
  have ha := h.concluded.answered.arranged
  rw [hu.documents] at he
  have hkind := h.concluded.kind_root (List.mem_map_of_mem (f := DocumentEntry.root) he)
  have hlinks : r.context.tree.documentParent? = d.run.context.tree.documentParent? :=
    funext fun i ↦ by rw [documentParent?, documentParent?, hu.tree.links]
  obtain ⟨above, hup, hemits⟩ := h.concluded.exists_walk he hn
  have hlt : e.root < r.context.tree.size :=
    Nat.lt_of_lt_of_le (lt_size_of_kind? hkind) hu.tree.extended.size_le
  have hroot : r.context.tree.documentParent? e.root = none :=
    hlinks ▸ ha.documentParent?_of_isTop hkind rfl
  rw [← hu.tree.extended.layoutRun_eq] at hn
  rw [← hlinks] at hup
  have habove := (hu.tree.extended.layoutForest ha.forest).ancestors_of_upward hlt hroot hn hup
  rwa [Answers.home?, habove]

/-- **The answers are carried out.** -/
theorem carriedOut :
    CarriedOut (c.answers p palette s) r.context.tree r.context.documents
      (a.resolutions r.context.tree) where
  unresolved R hR := (h.written.filled_resolution hR).1
  cycles R hR := (h.written.filled_resolution hR).2
  distinct := h.written.roots ▸ h.concluded.nodup_targets
  once := h.concluded.answered.nodup
  asked n := by
    rw [h.concluded.mem_answers_iff, h.written.unmoved.documents]
    refine exists_congr fun e ↦ and_congr_right fun he ↦ ?_
    obtain ⟨ids, hok, hids⟩ := h.exists_layoutSubtree (h.written.unmoved.documents ▸ he)
    rw [h.written.unmoved.tree.extended.layoutRun_eq, ← hids]
    constructor
    · exact fun hn ↦ ⟨ids, hok, hn⟩
    · rintro ⟨ids', hok', hn⟩
      obtain rfl := Except.ok.inj (hok.symm.trans hok')
      exact hn
  nodes e he := by
    obtain ⟨ids, hok, hids⟩ := h.exists_layoutSubtree he
    refine ⟨ids, hok, fun n hn ↦ ?_⟩
    have hemits := h.emits he ((hids n).1 hn)
    refine ⟨fun home hhome ↦ h.written.roots ▸ hemits.1 home hhome, fun R hR ↦ ?_⟩
    obtain ⟨o, ho, hroot, hpieces, -⟩ := h.written.exists_outline hR
    rw [hpieces, Outline.nodes_pieces h.concluded.textual (h.written.outlined.follows o ho),
      ((h.nodup_ids ho).filter _).count, hroot]
    refine if_congr ?_ rfl rfl
    rw [List.mem_filter, h.mem_ids_iff ho hemits, Option.isNone_iff_eq_none,
      h.concluded.replacements_eq, and_comm]
  texts R hR := by
    obtain ⟨o, ho, hroot, hpieces, -⟩ := h.written.exists_outline hR
    rw [hpieces, Outline.texts_pieces h.concluded.textual (h.written.outlined.follows o ho), hroot]
    refine (h.concluded.perm_texts (h.nodup_ids ho)
      (p := fun n ↦ (c.answers p palette s).home? r.context.tree n = some o.id)
      fun n hn ↦ ?_).filter _
    obtain ⟨e, he, hin, -⟩ := (h.concluded.mem_answers_iff n).1 hn
    exact h.mem_ids_iff ho (h.emits (h.written.unmoved.documents ▸ he) hin)

end Converted

/-- **A conversion carries the answers of its extensions out.** -/
theorem Converter.carries_out (c : Converter σ) (p : Provider) (s : σ) (hh : c.host.DecidesRuns)
    {palette : Palette} (hcheck : c.config.check = .ok palette)
    (hdocuments : (c.ingest p palette s).context.documents ≠ []) :
    ∃ o a r, (c.convert p s).1 = .ok o ∧ c.assembled p palette s = (.ok a, r) ∧
      o.documents = (a.targets.zip (a.resolutions r.context.tree)).map (fun e ↦
        e.2.output c.slug c.target r.context.tree e.1) ∧
      (∀ d ∈ o.diagnostics, d.isAboutSlot = false) ∧
      ((∀ s, (c.host.cancelled s).1 = false) →
        r.context.documents = (c.ingest p palette s).context.documents) ∧
      CarriedOut (c.answers p palette s) r.context.tree r.context.documents
        (a.resolutions r.context.tree) := by
  rcases Converter.exists_converted hh.obeys p s hcheck with
    ⟨hnone, -⟩ | ⟨moved, kept, d, a, r, os, o, h⟩
  · exact absurd hnone hdocuments
  exact ⟨o, a, r, h.convert, h.assembled, h.documents, h.filled, fun hruns ↦
    h.written.unmoved.documents.trans (h.documents_eq hruns), h.carriedOut⟩

/-- A document with two elements in its root, the first of them around a third one. -/
def Provider.nested : Provider :=
  let element (tag : String) (children : List Handle) : ProvidedElement :=
    ⟨.ok { BoxMeasure.empty with tag := tag }, children⟩
  .ofElements [⟨"page", some 0⟩]
    #[element "div" [1, 3], element "div" [2], element "p" [], element "p" []]

/-- Replaces the first element in the root, and moves the root to a host. -/
def Extension.sideways : Extension Unit where
  name := "sideways"
  onHook point node c s :=
    if point = .beforeClassify ∧ node = some 1 then (.replace "…", c, s)
    else if point = .beforeClassify ∧ node = some 0 then
      (.redirect (c.externalHost "side").1, (c.externalHost "side").2, s)
    else (.proceed, c, s)

theorem Extension.decidesRuns_sideways : Extension.sideways.DecidesRuns where
  proceeds point node c s hpoint := by simp [sideways, hpoint]
  requests node c s := by
    rw [sideways]
    dsimp only
    split
    · exact .refl
    · split
      · exact .single ⟨"side", rfl⟩
      · exact .refl
  decides node c s := by
    rw [sideways]
    dsimp only
    split
    · simp [HookAction.Decides, Fragment.ofText, Fragment.segments, Placeholder.read?,
        Placeholder.dropWord?, Fragment.consChar, Fragment.slots]
    · split
      · exact ⟨"side", c.get?_externalHost "side"⟩
      · exact trivial

/-- A conversion with that extension. -/
def Converter.sideways : Converter Unit where
  config := { ConversionConfig.default with palette := .empty }
  slug := Text.asciiSlug
  host := ⟨fun s ↦ (false, s), [.sideways]⟩
  dialect := none
  loader := none

/-- The root, the text and the other element in it are emitted in the host, and the innermost
element nowhere. -/
theorem Converter.carries_out_sideways :
    sideways.host.DecidesRuns ∧ sideways.config.check = .ok ⟨[]⟩ ∧
      (sideways.ingest .nested ⟨[]⟩ ()).context.documents ≠ [] ∧
      ∃ o a r, (sideways.convert .nested ()).1 = .ok o ∧
        sideways.assembled .nested ⟨[]⟩ () = (.ok a, r) ∧
        CarriedOut (sideways.answers .nested ⟨[]⟩ ()) r.context.tree r.context.documents
          (a.resolutions r.context.tree) ∧
        sideways.answers .nested ⟨[]⟩ () = [(0, .redirect 4), (1, .replace "…")] ∧
        r.context.documents = [⟨"page", 0⟩] ∧ r.context.tree.layoutSubtree 0 = .ok [0, 1, 2, 3] ∧
        o.documents.map (fun d ↦ (d.name, d.root)) = [("side", 4)] ∧
        (a.resolutions r.context.tree).map (fun R ↦
          (R.root, R.pieces.filterMap Piece.node?, R.pieces.filterMap Piece.text?)) =
            [(4, [4, 0, 3], ["…"])] := by
  have hhost : sideways.host.DecidesRuns := fun e he ↦
    List.mem_singleton.1 he ▸ Extension.decidesRuns_sideways
  have hcheck : sideways.config.check = .ok ⟨[]⟩ := rfl
  have hdocuments : (sideways.ingest .nested ⟨[]⟩ ()).context.documents ≠ [] := by decide
  obtain ⟨o, a, r, hok, hassembled, -, -, -, hcarried⟩ :=
    carries_out sideways .nested () hhost hcheck hdocuments
  have hr : r = (sideways.assembled .nested ⟨[]⟩ ()).2 := by rw [hassembled]
  have hpage : r.context.documents = [⟨"page", 0⟩] := by
    rw [hr]
    decide +kernel
  have hlayout : r.context.tree.layoutSubtree 0 = .ok [0, 1, 2, 3] := by
    rw [hr]
    decide +kernel
  have hwritten : o.documents.map (fun d ↦ (d.name, d.root)) = [("side", 4)] := by
    have hall : (sideways.convert .nested ()).1.toOption.map
        (fun o ↦ o.documents.map fun d ↦ (d.name, d.root)) = some [("side", 4)] := by
      decide +kernel
    rw [hok] at hall
    exact Option.some.inj hall
  have hemitted : (a.resolutions r.context.tree).map (fun R ↦
      (R.root, R.pieces.filterMap Piece.node?, R.pieces.filterMap Piece.text?)) =
        [(4, [4, 0, 3], ["…"])] := by
    have hall : (sideways.assembled .nested ⟨[]⟩ ()).1.toOption.map (fun a ↦
        (a.resolutions (sideways.assembled .nested ⟨[]⟩ ()).2.context.tree).map fun R ↦
          (R.root, R.pieces.filterMap Piece.node?, R.pieces.filterMap Piece.text?)) =
            some [(4, [4, 0, 3], ["…"])] := by
      decide +kernel
    rw [hassembled] at hall
    exact Option.some.inj hall
  exact ⟨hhost, hcheck, hdocuments, o, a, r, hok, hassembled, hcarried, by decide +kernel, hpage,
    hlayout, hwritten, hemitted⟩

end ViewCompiler
