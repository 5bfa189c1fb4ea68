import ViewCompiler.Proofs.Convert.Prepared

/-!
# Elements of the written documents

Without extensions every element is that of a node in the output, and the other way round
(`Prepared.exists_of_mem_tags`, `Prepared.exists_tag`). Before styles are made the node has exactly
the texts that say its attributes (`Prepared.mem_entries_iff`). Afterwards some of them are in the
styles that it refers to, so that the element has all of them either itself or from its styles
(`Prepared.splits`), and no attribute is in a style that no node has had
(`Prepared.exists_of_mem_style`).

So sharing only moves attributes (`Converter.sharing_moves`). Two conversions without extensions
that differ only in whether attributes are shared answer with the same documents, tables and
diagnostics, but for the styles and for the attributes that have been moved into them. Both come to
the same state before their last step (`Prepared.assembled`), so that there is one tree to compare
them with.
-/

namespace ViewCompiler

/-- An element of which some attributes are in styles, beside the same element with all of them. -/
structure Tag.Splits (styles : List StyleEntry) (whole g : Tag) : Prop where
  node : g.node = whole.node
  name : g.name = whole.name
  nodup : (whole.attributes.map Prod.fst).Nodup
  /-- Each attribute is either its own or that of a style. -/
  perm : (g.own ++ g.inherited styles).Perm whole.attributes

namespace Context

variable {d : Dialect} {ids : List NodeId} {c c' : Context}

/-- **A node has exactly the texts that say its attributes.** -/
theorem Attributed.mem_entries_iff (h : Attributed d ids c c') {i : NodeId} (hi : i ∈ ids)
    (hkeys : ((d.attributes c.tree i).map Prod.fst).Nodup) {n : Node}
    (hn : c'.tree.get? i = some n) (key text : String) :
    (key, text) ∈ n.attributes.entries ↔
      ∃ v, (key, v) ∈ d.attributes c.tree i ∧ c'.values.Says v text := by
  obtain ⟨texts, htexts, hsaid⟩ := h.attributes i hi n hn
  rw [SortedMap.mem_entries_iff, htexts, ValueStore.get?_ofList_texts hsaid hkeys]

end Context

namespace Prepared

variable {σ : Type} {c : Converter σ} {p : Provider} {palette : Palette} {s : σ} {d : Decided σ}
  {last : Context} {os : List Outline} {assembly : Assembly} {host : σ}
  (h : Prepared c p palette s d last os assembly host)

include h

/-! ### Nodes and elements -/

/-- **Every element is that of a node** in its document. -/
theorem exists_of_mem_tags (t : NodeTree) {o : Outline} (ho : o ∈ os) {g : Tag}
    (hg : g ∈ Markup.tags (o.page c.target t)) :
    ∃ i ∈ o.ids, ∃ n, t.get? i = some n ∧ ∃ first, g = c.target.tag t first n := by
  have hmem := c.target.mem_tags_markup hg
  rwa [Outline.nodes_eq_ids (fun _ ↦ rfl) (h.outlined.follows o ho)] at hmem

/-- **Every node in the output has an element** in its document. -/
theorem exists_tag {t : NodeTree} {o : Outline} (ho : o ∈ os) {i : NodeId} (hi : i ∈ o.ids)
    {n : Node} (hn : t.get? i = some n) :
    ∃ first, c.target.tag t first n ∈ Markup.tags (o.page c.target t) := by
  refine c.target.exists_tag true ?_ hn
  rwa [Outline.nodes_eq_ids (fun _ ↦ rfl) (h.outlined.follows o ho)]

/-! ### Attributes -/

section

variable {screen : Android.Screen} (hscreen : c.target = Android.dialect c.slug screen)

include hscreen

/-- **A node in the output has exactly the texts that say its attributes.** -/
theorem mem_entries_iff {i : NodeId} (hi : i ∈ os.flatMap Outline.ids) {n : Node}
    (hn : last.tree.get? i = some n) (key text : String) :
    (key, text) ∈ n.attributes.entries ↔
      ∃ v, (key, v) ∈ Android.attributes c.slug screen d.run.context.tree i ∧
        last.values.Says v text := by
  have hkeys := Android.nodup_keys_attributes c.slug screen d.run.context.tree i
  rw [h.attributed.mem_entries_iff hi (by rwa [hscreen]) hn, hscreen]
  rfl

theorem stylesApart {i : NodeId} (hi : i ∈ os.flatMap Outline.ids) {n : Node}
    (hn : last.tree.get? i = some n) {n' : Node}
    (hsub : n'.attributes.entries ⊆ n.attributes.entries) : c.target.StylesApart n' where
  styleAttribute := by rw [hscreen]; rfl
  root a ha := by
    rw [hscreen] at ha
    obtain rfl := List.mem_singleton.1 ha
    decide
  attributes a ha := by
    obtain ⟨v, hv, -⟩ := (h.mem_entries_iff hscreen hi hn a.1 a.2).1 (hsub ha)
    exact fun heq ↦ absurd (heq ▸ Android.mem_names_of_mem hv) (by decide)

end

/-- All attributes of an element before styles are made. -/
theorem attributes_tag {i : NodeId} {n : Node} (hn : last.tree.get? i = some n) (first : Bool) :
    (c.target.tag last.tree first n).attributes =
      (if first then c.target.rootAttributes else []) ++ n.attributes.entries := by
  rw [Dialect.tag, Dialect.writtenAttributes, h.attributed.unstyled h.unstyled i n hn]
  simp

/-! ### Attributes and styles -/

/-- A node that refers to a style is in the output. -/
theorem mem_ids_of_assigned (sharing : SharingConfig) {i : NodeId} {name : String}
    (hi : (last.sharing c.target sharing (os.flatMap Outline.ids)).assignments.get? i = some name) :
    i ∈ os.flatMap Outline.ids := by
  have hids := Context.nodup_members (c := last) (d := c.target) h.outlined.nodup
  have hmem : i ∈ (last.members c.target (os.flatMap Outline.ids)).map Member.id := by
    refine Decidable.byContradiction fun hout ↦ ?_
    exact absurd ((Sharing.untouched_ofMembers sharing hids hout).2.symm.trans hi) (by simp)
  obtain ⟨m, hm, rfl⟩ := List.mem_map.1 hmem
  obtain ⟨j, hj, -, -, -, rfl⟩ := Context.mem_members.1 hm
  exact hj

section

variable {sharing : SharingConfig} {shared : Context} {styles : List StyleEntry}
  (hshare : last.share c.target sharing (os.flatMap Outline.ids) = (styles, shared))

include hshare

/-- Styles change nothing else. -/
theorem bare_shared : shared.tree.bare = d.run.context.tree.bare := by
  have hbare := Context.bare_share c.target sharing (os.flatMap Outline.ids) last
  rw [hshare] at hbare
  exact hbare.trans h.attributed.bare

/-- What becomes of a node's attributes. -/
theorem exists_split {i : NodeId} (hi : i ∈ os.flatMap Outline.ids) {n n' : Node}
    (hn : last.tree.get? i = some n) (hn' : shared.tree.get? i = some n') :
    ∃ l, Sharing.LeadsTo styles n'.styleRef l ∧
      n.attributes.entries.Perm (n'.attributes.entries ++ l.flatMap StyleEntry.attributes) := by
  obtain ⟨rfl, rfl⟩ := Prod.mk.inj hshare
  exact Context.exists_split h.outlined.nodup (h.attributed.unstyled h.unstyled) hi hn hn'

/-- **The styles are used**, and made of attributes that there have been. -/
theorem used : Sharing.Used sharing (last.members c.target (os.flatMap Outline.ids)) styles
    (last.sharing c.target sharing (os.flatMap Outline.ids)).assignments.get? := by
  obtain ⟨rfl, rfl⟩ := Prod.mk.inj hshare
  exact Sharing.used_ofMembers sharing (Context.nodup_members h.outlined.nodup)

/-- An attribute in a style is one of a node. -/
theorem exists_of_mem_style {e : StyleEntry} (he : e ∈ styles) {a : String × String}
    (ha : a ∈ e.attributes) :
    ∃ i ∈ os.flatMap Outline.ids, ∃ n, last.tree.get? i = some n ∧ a ∈ n.attributes.entries := by
  obtain ⟨⟨m, hm, hget⟩, -⟩ := (h.used hshare).carried e he a.1 a.2 ha
  obtain ⟨i, hi, n, hn, -, rfl⟩ := Context.mem_members.1 hm
  exact ⟨i, hi, n, hn, SortedMap.mem_entries_iff.2 hget⟩

variable {screen : Android.Screen} (hscreen : c.target = Android.dialect c.slug screen)

include hscreen

/-- What says an attribute of a node is an attribute of its element, or one in a style. -/
theorem mem_tag_or_style {o : Outline} (ho : o ∈ os) {i : NodeId} (hi : i ∈ o.ids) {key : String}
    {v : AttributeValue} (hv : (key, v) ∈ Android.attributes c.slug screen d.run.context.tree i)
    {text : String} (hsaid : last.values.Says v text) :
    (∃ g ∈ Markup.tags (o.page c.target shared.tree), (key, text) ∈ g.attributes) ∨
      ∃ e ∈ styles, (key, text) ∈ e.attributes := by
  have hids : i ∈ os.flatMap Outline.ids := List.mem_flatMap.2 ⟨o, ho, hi⟩
  obtain ⟨n, hn⟩ := h.exists_get? h.attributed.bare hids
  obtain ⟨n', hn'⟩ := h.exists_get? (h.bare_shared hshare) hids
  obtain ⟨l, hleads, hperm⟩ := h.exists_split hshare hids hn hn'
  have hmem : (key, text) ∈ n.attributes.entries :=
    (h.mem_entries_iff hscreen hids hn key text).2 ⟨v, hv, hsaid⟩
  -- the node has kept the attribute, or it is in the lineage of the node's style
  rcases List.mem_append.1 (hperm.mem_iff.1 hmem) with hkept | hmoved
  · obtain ⟨first, htag⟩ := h.exists_tag ho hi hn'
    exact .inl ⟨_, htag, List.mem_append_right _ hkept⟩
  · obtain ⟨e, he, hattribute⟩ := List.mem_flatMap.1 hmoved
    exact .inr ⟨e, hleads.subset he, hattribute⟩

/-- **An element keeps its attributes** or refers to styles with them. -/
theorem splits {i : NodeId} (hi : i ∈ os.flatMap Outline.ids) {n n' : Node}
    (hn : last.tree.get? i = some n) (hn' : shared.tree.get? i = some n') (first : Bool) :
    Tag.Splits (ResourceTables.collect last.values styles).styles
      (c.target.tag last.tree first n) (c.target.tag shared.tree first n') := by
  obtain ⟨l, hleads, hperm⟩ := h.exists_split hshare hi hn hn'
  have hbare : shared.tree.bare = last.tree.bare :=
    (h.bare_shared hshare).trans h.attributed.bare.symm
  have hapart := h.stylesApart hscreen hi hn
    (List.Subset.trans (List.subset_append_left _ _) hperm.symm.subset)
  have hwhole := h.attributes_tag hn first
  refine ⟨?_, ?_, ?_, ?_⟩
  · exact (NodeTree.id_of_get? hn').trans (NodeTree.id_of_get? hn).symm
  · -- the name can be told from the bare tree, which is the same
    have hnode : n'.bare = n.bare := by
      obtain ⟨m, hm, hmbare⟩ := NodeTree.exists_get?_of_bare hbare.symm hn
      rwa [Option.some.inj (hn'.symm.trans hm)]
    have htag := (Android.onBare_dialect c.slug screen).elementTag
    show c.target.elementTag shared.tree n' = c.target.elementTag last.tree n
    rw [hscreen, ← htag shared.tree n', ← htag last.tree n, hbare, hnode]
  · rw [hwhole, hscreen]
    split
    · refine List.nodup_cons.2 ⟨fun hmem ↦ ?_, n.attributes.nodup_keys⟩
      obtain ⟨⟨key, text⟩, ha, rfl⟩ := List.mem_map.1 hmem
      obtain ⟨v, hv, -⟩ := (h.mem_entries_iff hscreen hi hn _ text).1 ha
      exact (by decide : "xmlns:android" ∉ Android.names) (Android.mem_names_of_mem hv)
    · exact n.attributes.nodup_keys
  · rw [hapart.own_tag, hapart.inherited_tag (ResourceTables.perm_styles _ _)
      (h.used hshare).nodup hleads, hwhole, List.append_assoc]
    exact hperm.symm.append_left _

end

end Prepared

/-! ### With and without sharing -/

variable {σ : Type}

/-- Without sharing nothing is changed. -/
theorem Context.share_of_disabled (c : Context) (d : Dialect) (excluded : List String)
    (rendered : List NodeId) : c.share d ⟨false, excluded⟩ rendered = ([], c) := rfl

namespace Converter

/-- **Sharing attributes only moves them.** Whether attributes are shared makes no difference to why
a conversion without extensions fails; and if it does not, the same documents are written, with the
same elements in each other, the same tables but for the styles, and the same diagnostics. Each
element has the attributes that it has without sharing, each once: inline or from its style. -/
theorem sharing_moves (c : Converter σ) (p : Provider) (s : σ) (excluded : List String)
    (hextensions : c.host.extensions = []) {screen : Android.Screen}
    (hscreen : c.target = Android.dialect c.slug screen) :
    (∃ e, c.Fails p s e ∧ ((c.withSharing ⟨false, excluded⟩).convert p s).1 = .error e ∧
        ((c.withSharing ⟨true, excluded⟩).convert p s).1 = .error e) ∨
      ∃ o o', ((c.withSharing ⟨false, excluded⟩).convert p s).1 = .ok o ∧
        ((c.withSharing ⟨true, excluded⟩).convert p s).1 = .ok o' ∧
        (o.documents.map fun e ↦ (e.name, e.fileStem, e.root)) =
          o'.documents.map (fun e ↦ (e.name, e.fileStem, e.root)) ∧
        o.documents.map DocumentOutput.content =
          ((c.withSharing ⟨false, excluded⟩).pages p s).map Markup.text ∧
        o'.documents.map DocumentOutput.content =
          ((c.withSharing ⟨true, excluded⟩).pages p s).map Markup.text ∧
        List.Forall₂ (List.Forall₂ (Markup.Like (Tag.Splits o'.tables.styles)))
          ((c.withSharing ⟨false, excluded⟩).pages p s)
          ((c.withSharing ⟨true, excluded⟩).pages p s) ∧
        o.tables = { o'.tables with styles := [] } ∧ o.diagnostics = o'.diagnostics := by
  have hbare : c.target.OnBare := hscreen ▸ Android.onBare_dialect c.slug screen
  rcases fails_or_prepared hextensions hbare p s with
    ⟨e, he, hfails⟩ | ⟨palette, d, last, os, assembly, host, hcheck, h⟩
  · exact .inl ⟨e, he, hfails _, hfails _⟩
  obtain ⟨o, hok, hdocuments, htables, hdiagnostics⟩ :=
    h.converted ⟨false, excluded⟩ hextensions hcheck
  obtain ⟨o', hok', hdocuments', htables', hdiagnostics'⟩ :=
    h.converted ⟨true, excluded⟩ hextensions hcheck
  have hlength := h.length_targets ⟨false, excluded⟩ hcheck
  have hlength' := h.length_targets ⟨true, excluded⟩ hcheck
  refine .inr ⟨o, o', hok, hok', ?_, ?_, ?_, ?_, ?_, ?_⟩
  · rw [hdocuments, hdocuments', DocumentEntry.map_label_written hlength c.slug,
      DocumentEntry.map_label_written hlength' c.slug]
  · rw [hdocuments]
    exact DocumentEntry.map_content_written hlength c.slug
  · rw [hdocuments']
    exact DocumentEntry.map_content_written hlength' c.slug
  · rw [h.pages_eq _ hcheck, h.pages_eq _ hcheck, htables', Context.share_of_disabled,
      List.forall₂_map_left_iff, List.forall₂_map_right_iff, List.forall₂_same]
    refine fun o ho ↦ c.target.like_markup (fun q hq i hi ↦ ?_) true
    have hids := Prepared.mem_ids_of_mentioned ho hq hi
    obtain ⟨n, hn⟩ := h.exists_get? h.attributed.bare hids
    obtain ⟨n', hn'⟩ := h.exists_get? (h.bare_shared Prod.mk.eta.symm) hids
    have hsplits := h.splits Prod.mk.eta.symm hscreen hids hn hn'
    exact ⟨n, n', hn, hn', (hsplits true).name.symm, hsplits⟩
  · rw [htables, htables']
    rfl
  · rw [hdiagnostics, hdiagnostics']

/-- With sharing, the two elements of a document have all their attributes in one style. -/
theorem sharing_moves_twoParagraphs : plain.host.extensions = [] ∧
    plain.target = Android.dialect plain.slug (.new 1 1) ∧
      ∃ o o', ((plain.withSharing ⟨false, []⟩).convert .twoParagraphs ()).1 = .ok o ∧
        ((plain.withSharing ⟨true, []⟩).convert .twoParagraphs ()).1 = .ok o' ∧
        List.Forall₂ (List.Forall₂ (Markup.Like (Tag.Splits o'.tables.styles)))
          ((plain.withSharing ⟨false, []⟩).pages .twoParagraphs ())
          ((plain.withSharing ⟨true, []⟩).pages .twoParagraphs ()) ∧
        o'.tables.styles.map StyleEntry.attributes =
          [[("android:layout_height", "@dimen/dimen_0dp"),
            ("android:layout_width", "@dimen/dimen_0dp")]] := by
  have hscreen : plain.target = Android.dialect plain.slug (.new 1 1) := rfl
  have hstyles : ((plain.withSharing ⟨true, []⟩).convert .twoParagraphs ()).1.toOption.map
      (fun o ↦ o.tables.styles.map StyleEntry.attributes) =
        some [[("android:layout_height", "@dimen/dimen_0dp"),
          ("android:layout_width", "@dimen/dimen_0dp")]] := by decide +kernel
  refine ⟨rfl, hscreen, ?_⟩
  rcases sharing_moves plain .twoParagraphs () [] rfl hscreen with
    ⟨e, he, -⟩ | ⟨o, o', hok, hok', -, -, -, hlike, -⟩
  · exact absurd he (not_fails_plain (by decide) e)
  · rw [hok'] at hstyles
    exact ⟨o, o', hok, hok', hlike, Option.some.inj hstyles⟩

end Converter

end ViewCompiler
