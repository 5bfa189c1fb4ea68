import ViewCompiler.Proofs.Convert.Elements
import ViewCompiler.Proofs.Convert.Further
import ViewCompiler.Proofs.Convert.Undisturbed
import ViewCompiler.Proofs.Template.Numbers

/-!
# Documents do not depend on later ones

The main statement is `Converter.documents_of_append`. Of two snapshots one has the documents of the
other and further ones after them. Without extensions, and without sharing, the conversion of it
writes what the conversion of the other writes, and more documents after that.

The two conversions do not come to the same nodes. All documents are in one tree, and the groups are
made when all elements of all documents are there. So a group of the first document has another
number where there is a second document, and what has to be shown is that this number is nowhere in
the text.

## What each part rests on

* The nodes of the first documents have the same numbers in both conversions, and their groups have
  others (`Converter.renumbered_decided`). A run of the first documents looks at its own nodes only,
  and a run of the further ones changes no node of the first.
* What is stored for the first documents is stored before the rest, so that every value has the same
  name in both (`Prepared.extends_values`). Nothing is said of the values of the other documents.
* A view is named after its number only in a container that aligns its members on a baseline, or as
  the target of a label, and neither is a group. So no name has the number of a group in it
  (`Prepared.alike`), and the texts are the same (`Prepared.document_renumbered`).

Sharing is left out because it makes one style of what several documents have in common: with it the
first document of two need not be written as if it were alone.
-/

namespace ViewCompiler

open NodeTree ValueStore

variable {σ : Type}

/-- Documents are named after their entries. -/
theorem DocumentEntry.map_name_output (slug : String → String) (l : List DocumentEntry)
    (texts : List String) :
    ((List.zipWith (output slug) l texts).map DocumentOutput.name).Sublist (l.map name) := by
  induction l generalizing texts with
  | nil => exact List.Sublist.refl _
  | cons e r ih =>
    cases texts with
    | nil => exact List.nil_sublist _
    | cons text texts => exact (ih texts).cons_cons e.name

/-- **What a bare tree says** of an element name, two trees that are the same but for attributes and
styles say too. -/
theorem Dialect.OnBare.elementTag_congr {d : Dialect} (h : d.OnBare) {t t' : NodeTree} {n n' : Node}
    (ht : t.bare = t'.bare) (hn : n.bare = n'.bare) : d.elementTag t n = d.elementTag t' n' := by
  rw [← h.elementTag t, ← h.elementTag t', ht, hn]

/-- Attributes have the same texts in a store with further values. -/
theorem ValueStore.texts_eq_of_extends {s s' : ValueStore} (hext : Extends s s')
    {attributes : List (String × AttributeValue)} {texts texts' : List (String × String)}
    (h : List.Forall₂ (fun a b ↦ b.1 = a.1 ∧ s.Says a.2 b.2) attributes texts)
    (h' : List.Forall₂ (fun a b ↦ b.1 = a.1 ∧ s'.Says a.2 b.2) attributes texts') :
    texts' = texts := by
  induction h generalizing texts' with
  | nil =>
    cases h'
    rfl
  | @cons a b _ _ hmeans _ ih =>
    obtain ⟨b', r', hmeans', hr, rfl⟩ := List.forall₂_cons_left_iff.1 h'
    rw [ih hr, show b' = b from Prod.ext (hmeans'.1.trans hmeans.1.symm)
      (hmeans'.2.unique (hmeans.2.extends hext))]

namespace Prepared

variable {c : Converter σ} {p p' : Provider} {palette : Palette} {s : σ} {d d' : Decided σ}
  {last last' : Context} {os os' : List Outline} {assembly assembly' : Assembly} {host host' : σ}
  (h : Prepared c p palette s d last os assembly host)

include h

/-- **What is written without sharing.** -/
theorem converted_unshared (hnil : c.host.extensions = []) (hcheck : c.config.check = .ok palette)
    (hsharing : c.config.sharing.enabled = false) :
    ∃ o, (c.convert p s).1 = .ok o ∧
      o.documents = List.zipWith (DocumentEntry.output c.slug) d.run.context.targets
        (os.map fun o ↦ c.target.document last.tree (o.pieces .empty)) := by
  obtain ⟨o, hok, hdocuments, -⟩ := h.converted c.config.sharing hnil hcheck
  refine ⟨o, hok, hdocuments.trans ?_⟩
  have hshare : last.share c.target c.config.sharing (os.flatMap Outline.ids) = ([], last) := by
    rw [show c.config.sharing = ⟨false, c.config.sharing.excluded⟩ from hsharing ▸ rfl,
      Context.share_of_disabled]
  rw [h.pages_eq _ hcheck, hshare, List.map_zip_eq_zipWith, List.zipWith_map_right,
    List.map_congr_left fun o ho ↦ h.document_eq h.attributed.bare ho, List.zipWith_map_right]
  rfl

section Renumbered

variable (h' : Prepared c p' palette s d' last' os' assembly' host') {f : NodeId → NodeId}
  (hf : Renumbered f d.run.context.tree d'.run.context.tree) {screen : Android.Screen}
  (hscreen : c.target = Android.dialect c.slug screen)

include hf hscreen

/-- The attributes of a node in the output. -/
theorem attributes_eq {i : NodeId} (hi : i ∈ os.flatMap Outline.ids) :
    c.target.attributes d'.run.context.tree (f i) = c.target.attributes d.run.context.tree i := by
  rw [hscreen]
  exact Android.attributes_renumbered hf screen (h.outlined.lt_size i hi)

include h'

variable {more : List Outline} (hos : os' = os.map (Outline.map f) ++ more)

include hos

/-- **The values of the first documents** are stored first, under the same names. -/
theorem extends_values : last.values.Extends last'.values := by
  have hids : os'.flatMap Outline.ids =
      (os.flatMap Outline.ids).map f ++ more.flatMap Outline.ids := by
    rw [hos, List.flatMap_append, Outline.flatMap_ids_map]
  have hrequests : ((os.flatMap Outline.ids).map f).flatMap
      (fun i ↦ requests (c.target.attributes d'.run.context.tree i)) =
        (os.flatMap Outline.ids).flatMap
          fun i ↦ requests (c.target.attributes d.run.context.tree i) := by
    rw [List.flatMap_map]
    exact List.flatMap_congr fun i hi ↦ congrArg requests (h.attributes_eq hf hscreen hi)
  rw [h.attributed.values, h'.attributed.values, h.values, h'.values, hids, List.flatMap_append,
    hrequests, answerAll_append]
  exact Extends.answerAll _ _

/-- **The element of a node** is the same in both conversions. -/
theorem alike {i : NodeId} (hi : i ∈ os.flatMap Outline.ids) :
    c.target.Alike last.tree last'.tree i (f i) := by
  have hbare : c.target.OnBare := hscreen ▸ Android.onBare_dialect c.slug screen
  have hi' : f i ∈ os'.flatMap Outline.ids := by
    rw [hos, List.flatMap_append, Outline.flatMap_ids_map]
    exact List.mem_append_left _ (List.mem_map_of_mem hi)
  obtain ⟨n, hn⟩ := h.exists_get? h.attributed.bare hi
  obtain ⟨n', hn'⟩ := h'.exists_get? h'.attributed.bare hi'
  obtain ⟨m, hm, hsame⟩ := exists_get?_of_bare h.attributed.bare hn
  obtain ⟨m', hm', hsame'⟩ := exists_get?_of_bare h'.attributed.bare hn'
  obtain ⟨depth, hmoved⟩ := hf.nodes i m hm
  obtain rfl := Option.some.inj (hm'.symm.trans hmoved)
  refine ⟨n, n', hn, hn', ?_, ?_, ?_⟩
  · rw [hbare.elementTag_congr h.attributed.bare hsame.symm,
      hbare.elementTag_congr h'.attributed.bare hsame'.symm, hscreen]
    exact Android.elementTag_renumbered hf screen hm depth
  · rw [h.attributed.unstyled h.unstyled i n hn, h'.attributed.unstyled h'.unstyled (f i) n' hn']
  · obtain ⟨texts, htexts, hmeans⟩ := h.attributed.attributes i hi n hn
    obtain ⟨texts', htexts', hmeans'⟩ := h'.attributed.attributes (f i) hi' n' hn'
    rw [h.attributes_eq hf hscreen hi] at hmeans'
    rw [htexts, htexts', texts_eq_of_extends (h.extends_values h' hf hscreen hos) hmeans hmeans']

/-- **The text of a document** is the same in both conversions. -/
theorem document_renumbered {o : Outline} (ho : o ∈ os) :
    c.target.document last'.tree ((o.map f).pieces .empty) =
      c.target.document last.tree (o.pieces .empty) := by
  rw [Outline.pieces_map]
  exact Dialect.document_renumbered fun q hq i hi ↦
    h.alike h' hf hscreen hos (mem_ids_of_mentioned ho hq hi)

end Renumbered

end Prepared

namespace Converter

variable (c : Converter σ) (hnil : c.host.extensions = [])
  (hruns : ∀ s, (c.host.cancelled s).1 = false)

/-- Without extensions all documents that have been made into nodes are written. -/
theorem targets_eq_documents {c : Converter σ} (hnil : c.host.extensions = [])
    (hruns : ∀ s, (c.host.cancelled s).1 = false) {p : Provider} {palette : Palette} {s : σ}
    {d : Decided σ} {last : Context} {os : List Outline} {assembly : Assembly} {host : σ}
    (h : Prepared c p palette s d last os assembly host) :
    d.run.context.targets = (c.ingest p palette s).context.documents := by
  obtain ⟨moved, kept, hd⟩ := h.concluded
  rw [hd.targets_eq (c.about_answers hnil p palette s), hd.answered.documents, hd.all hruns,
    (c.unmoved_loadImages _).documents]

theorem further_loadImages {names : List String} {r r' : Run σ}
    (h : Context.Further names r.context r'.context) :
    Context.Further names (c.loadImages r).context (c.loadImages r').context := by
  unfold loadImages
  cases c.loader with
  | none => exact h
  | some loader => exact h.loadImages loader

theorem sprouted_loadImages {r : Run σ} (h : Sprouted .empty r.context.tree) :
    Sprouted .empty (c.loadImages r).context.tree := by
  unfold loadImages
  cases c.loader with
  | none => exact h
  | some loader =>
    exact h.of_map (Node.refs_sized loader) (fun _ ↦ rfl) (Context.get?_loadImages loader r.context)

include hnil hruns

/-- **Decisions on documents, alone and beside others.** -/
theorem renumbered_decided {names : List String} {p p' : Provider} {palette : Palette} {s : σ}
    (hsprouted : Sprouted .empty (c.ingest p palette s).context.tree)
    (hfurther : Context.Further names (c.ingest p palette s).context
      (c.ingest p' palette s).context) :
    ∃ f, Renumbered f
        (Decided.documents c.host c.config.layout
          (c.loadImages (c.ingest p palette s))).run.context.tree
        (Decided.documents c.host c.config.layout
          (c.loadImages (c.ingest p' palette s))).run.context.tree ∧
      ∀ e ∈ (c.ingest p palette s).context.documents, f e.root = e.root := by
  have hh := Host.obeys_of_extensions_eq_nil hnil .decides
  have hr := ingested hh p palette s
  have hr' := ingested hh p' palette s
  have hsprouted := c.sprouted_loadImages hsprouted
  have hfurther := c.further_loadImages hfurther
  rw [← (c.unmoved_loadImages (c.ingest p palette s)).documents]
  generalize c.loadImages (c.ingest p palette s) = r at *
  generalize c.loadImages (c.ingest p' palette s) = r' at *
  obtain ⟨later, hlater, -, hroots'⟩ := hfurther.documents
  have hroots : ∀ root ∈ r.context.documents.map DocumentEntry.root,
      r.context.tree.kind? root = some .root := fun root hroot ↦ by
    obtain ⟨e, he, rfl⟩ := List.mem_map.1 hroot
    exact hr.roots e he
  have hothers : ∀ root ∈ later.map DocumentEntry.root,
      r.context.tree.size ≤ root ∧ r'.context.tree.kind? root = some .root := fun root hroot ↦ by
    obtain ⟨e, he, rfl⟩ := List.mem_map.1 hroot
    exact ⟨hroots' e he, hr'.roots e (hlater ▸ List.mem_append_right _ he)⟩
  obtain ⟨o, t, o', t', hok, hok', hf⟩ := hsprouted.exists_renumbered c.config.layout
    hfurther.sprouted hr.sown hr'.sown hroots hr.nodup hothers
  rw [← List.map_append, ← hlater] at hok'
  rw [Decided.tree_documents_eq hnil c.config.layout hruns hr.sown hr.roots hok,
    Decided.tree_documents_eq hnil c.config.layout hruns hr'.sown hr'.roots hok']
  exact ⟨_, hf, fun e he ↦ skip_of_lt _ (hr.root_lt_size he)⟩

omit hnil hruns in
/-- A conversion with a first document does not fail. -/
theorem Fails.append_eq_nil {c : Converter σ} {p : Provider} {palette : Palette} {s : σ}
    {e : ConversionError} (h : c.Fails p s e) (hcheck : c.config.check = .ok palette)
    {first later : List DocumentEntry}
    (hdocuments : (c.ingest p palette s).context.documents = first ++ later) : first = [] := by
  cases h with
  | config check => exact absurd (hcheck.symm.trans check) (by simp)
  | noRoot check documents =>
    obtain rfl := Except.ok.inj (hcheck.symm.trans check)
    exact (List.append_eq_nil_iff.1 (hdocuments.symm.trans documents)).1

omit hruns in
/-- What is made into nodes of a snapshot with further documents. -/
theorem further_ingest_append (snapshot : Snapshot)
    (more : List (String × Option SnapshotElement)) (palette : Palette) (s : σ) :
    Sprouted .empty (c.ingest snapshot.provider palette s).context.tree ∧
      Context.Further (more.map Prod.fst) (c.ingest snapshot.provider palette s).context
        (c.ingest (⟨snapshot.documents ++ more⟩ : Snapshot).provider palette s).context := by
  obtain ⟨rest, hnames, hdocuments⟩ := snapshot.documents_provider_append more
  rw [← hnames]
  exact Run.further_ingest hnil (snapshot.agree_append more) hdocuments
    (fun d hd root hroot ↦ snapshot.root_lt_elementCount hd hroot) _ rfl

end Converter

/-- The outlines of the first documents are the same, under other numbers. -/
theorem Renumbered.outlines {f : NodeId → NodeId} {t t' : NodeTree} (hf : Renumbered f t t')
    {targets later : List Target} {os os' : List Outline} (ho : Outlined t targets os)
    (ho' : Outlined t' (targets ++ later) os') (hroots : ∀ e ∈ targets, f e.root = e.root) :
    ∃ more, os' = os.map (Outline.map f) ++ more := by
  have hlength : os.length = targets.length := by simpa using congrArg List.length ho.ids
  have hfirst : os.map (Outline.map f) = os'.take os.length := by
    refine Outline.eq_of_follows_all (fun o' ho' ↦ ?_)
      (fun o' hmem ↦ ho'.follows o' (List.mem_of_mem_take hmem)) ?_
    · obtain ⟨o, hmem, rfl⟩ := List.mem_map.1 ho'
      exact hf.follows (ho.follows o hmem) fun i hi ↦
        ho.lt_size i (List.mem_flatMap.2 ⟨o, hmem, hi⟩)
    · rw [List.map_take, ho'.ids, List.map_append, hlength, List.map_map]
      rw [List.take_left' (by rw [List.length_map])]
      calc
        os.map (Outline.id ∘ Outline.map f) = (os.map Outline.id).map f := by
          rw [List.map_map]
          exact List.map_congr_left fun o _ ↦ Outline.id_map f o
        _ = targets.map DocumentEntry.root := by
          rw [ho.ids, List.map_map]
          exact List.map_congr_left hroots
  exact ⟨os'.drop os.length, by rw [hfirst, List.take_append_drop]⟩

namespace Converter

/-- **Documents do not depend on later ones.** Without extensions, without sharing, and if it is not
to stop, a conversion that writes a document of a snapshot does not fail when the snapshot has
further documents at its end, and writes the same documents, with the same names, numbers and texts.
What it writes after them are further documents. -/
theorem documents_of_append (c : Converter σ) (snapshot : Snapshot)
    (more : List (String × Option SnapshotElement)) (s : σ) (hextensions : c.host.extensions = [])
    (hruns : ∀ s, (c.host.cancelled s).1 = false) (hsharing : c.config.sharing.enabled = false)
    {screen : Android.Screen} (hscreen : c.target = Android.dialect c.slug screen)
    {o : ConversionOutput} (hok : (c.convert snapshot.provider s).1 = .ok o)
    (hsome : o.documents ≠ []) :
    ∃ o' later, (c.convert (⟨snapshot.documents ++ more⟩ : Snapshot).provider s).1 = .ok o' ∧
      o'.documents = o.documents ++ later ∧
      (later.map DocumentOutput.name).Sublist (more.map Prod.fst) := by
  have hbare : c.target.OnBare := hscreen ▸ Android.onBare_dialect c.slug screen
  rcases fails_or_prepared hextensions hbare snapshot.provider s with
    ⟨e, -, hfails⟩ | ⟨palette, d, last, os, assembly, host, hcheck, h⟩
  · exact absurd ((hfails c.config.sharing).symm.trans hok) (by simp)
  obtain ⟨o₁, hok₁, hdocuments⟩ := h.converted_unshared hextensions hcheck hsharing
  obtain rfl := Except.ok.inj (hok₁.symm.trans hok)
  have htargets := targets_eq_documents hextensions hruns h
  obtain ⟨hsprouted, hfurther⟩ := c.further_ingest_append hextensions snapshot more palette s
  obtain ⟨later, hlater, hnames, -⟩ := hfurther.documents
  rcases fails_or_prepared hextensions hbare (⟨snapshot.documents ++ more⟩ : Snapshot).provider s
    with ⟨e, he, -⟩ | ⟨palette', d', last', os', assembly', host', hcheck', h'⟩
  · refine absurd (he.append_eq_nil hcheck hlater) fun hempty ↦ hsome ?_
    rw [hdocuments, htargets, hempty, List.zipWith_nil_left]
  obtain rfl := Except.ok.inj (hcheck.symm.trans hcheck')
  obtain ⟨o', hok', hdocuments'⟩ := h'.converted_unshared hextensions hcheck hsharing
  have htargets' := targets_eq_documents hextensions hruns h'
  obtain ⟨f, hf, hroots⟩ := c.renumbered_decided hextensions hruns hsprouted hfurther
  have hf' := hf.deepened (deepened_computeRenderDepths _) (deepened_computeRenderDepths _)
  rw [← h.tree, ← h'.tree] at hf'
  rw [← htargets] at hlater hroots
  obtain ⟨rest, hos⟩ := hf'.outlines h.outlined
    (by rw [← hlater, ← htargets']; exact h'.outlined) hroots
  have hlength : d.run.context.targets.length = os.length := by
    simpa using (congrArg List.length h.outlined.ids).symm
  refine ⟨o', List.zipWith (DocumentEntry.output c.slug) later
    (rest.map fun o ↦ c.target.document last'.tree (o.pieces .empty)), hok', ?_,
    (DocumentEntry.map_name_output c.slug later _).trans hnames⟩
  rw [hdocuments', hdocuments, htargets', hlater, hos, List.map_append, List.map_map,
    List.zipWith_append (by rw [List.length_map, hlength])]
  congr 2
  exact List.map_congr_left fun o ho ↦ h.document_renumbered h' hf' hscreen hos ho

end Converter

/-- A root with two floats and two other elements, so that there are two groups inside it. -/
def SnapshotElement.twoFloats : SnapshotElement :=
  let box (tag : String) (bounds : Rect) (style : List (String × String)) : SnapshotBox :=
    { SnapshotBox.empty with tag := tag, bounds := some bounds, style := .ofList style }
  .node (box "div" ⟨0, 0, 200, 100⟩ [])
    [.node (box "label" ⟨0, 0, 80, 20⟩ [("float", "left")]) [],
      .node (box "input" ⟨0, 30, 80, 20⟩ [("float", "left")]) [],
      .node (box "p" ⟨100, 0, 80, 20⟩ []) [], .node (box "p" ⟨100, 50, 80, 20⟩ []) []]

/-- The groups inside the first document come after the elements of the second. -/
theorem Converter.documents_of_append_twoFloats : plain.host.extensions = [] ∧
    (∀ s, (plain.host.cancelled s).1 = false) ∧
      plain.target = Android.dialect plain.slug (.new 1 1) ∧
      ∃ o o' later, ((plain.withSharing ⟨false, []⟩).convert
          (⟨[("first", some .twoFloats)]⟩ : Snapshot).provider ()).1 = .ok o ∧
        ((plain.withSharing ⟨false, []⟩).convert
          (⟨[("first", some .twoFloats), ("second", some .twoFloats)]⟩ : Snapshot).provider
            ()).1 = .ok o' ∧
        o'.documents = o.documents ++ later ∧ later.map DocumentOutput.root = [5] := by
  have hscreen : plain.target = Android.dialect plain.slug (.new 1 1) := rfl
  have hfirst : ((plain.withSharing ⟨false, []⟩).convert
      (⟨[("first", some .twoFloats)]⟩ : Snapshot).provider ()).1.toOption.map
        (fun o ↦ o.documents.map DocumentOutput.root) = some [0] := by decide +kernel
  have hboth : ((plain.withSharing ⟨false, []⟩).convert
      (⟨[("first", some .twoFloats), ("second", some .twoFloats)]⟩ : Snapshot).provider
        ()).1.toOption.map (fun o ↦ o.documents.map DocumentOutput.root) = some [0, 5] := by
    decide +kernel
  refine ⟨rfl, fun _ ↦ rfl, hscreen, ?_⟩
  cases hok : ((plain.withSharing ⟨false, []⟩).convert
      (⟨[("first", some .twoFloats)]⟩ : Snapshot).provider ()).1 with
  | error e =>
    rw [hok] at hfirst
    cases hfirst
  | ok o =>
    rw [hok] at hfirst
    have hroots : o.documents.map DocumentOutput.root = [0] := Option.some.inj hfirst
    obtain ⟨o', later, hok', hdocuments, -⟩ := documents_of_append
      (plain.withSharing ⟨false, []⟩) ⟨[("first", some .twoFloats)]⟩ [("second", some .twoFloats)]
      () rfl (fun _ ↦ rfl) rfl hscreen hok fun hnone ↦ by simp [hnone] at hroots
    refine ⟨o, o', later, rfl, hok', hdocuments, ?_⟩
    have hroots' : o'.documents.map DocumentOutput.root = [0, 5] := Option.some.inj <|
      (congrArg (fun r ↦ r.toOption.map fun o ↦ o.documents.map DocumentOutput.root)
        hok').symm.trans hboth
    rw [hdocuments, List.map_append, hroots] at hroots'
    simpa using hroots'

end ViewCompiler
