import ViewCompiler.Proofs.Convert.InOrder
import ViewCompiler.Proofs.Convert.Sources
import ViewCompiler.Proofs.Convert.ViewNames

/-!
# Names that clash

The name that a view declares is found from the id of its element alone, and nothing keeps the names
of a document apart. Without extensions two elements of a document declare the same name exactly if
their names clash (`Converter.names_clash`): the ids of two elements of the source make the same
name, or the id of one makes the name that the other has from its number (`Android.Clash`). That is
so even if all ids of the source differ (`Converter.names_clash_capital`).

The elements of a document are those of different nodes, and these have what they have from their
elements through all decisions (`Prepared.sameSources`). No two of them are of the same element
(`Prepared.eq_of_element`), since a group is of none.
-/

namespace ViewCompiler

open NodeTree

variable {σ : Type}

/-- The id of an element. -/
def Provider.idOf? (p : Provider) (h : Handle) : Option String :=
  match p.measure h with
  | .ok m => m.attributes.get? "id"
  | .error _ => none

/-! ### Nodes and their elements -/

/-- A node has its id from an element. -/
structure NodeTree.HasId (p : Provider) (t : NodeTree) (i : NodeId) (h : Handle) (id : String) :
    Prop where
  element : (t.originOf i).element = some h
  source : (t.originOf i).attributes.get? "id" = some id
  offered : p.idOf? h = some id

namespace NodeTree

variable {t t' t'' : NodeTree}

theorem SameSources.trans (h : SameSources t t') (h' : SameSources t' t'') : SameSources t t'' :=
  fun i ↦ ⟨(h' i).1.trans (h i).1, (h' i).2.trans (h i).2⟩

/-- What of a node matters for that. -/
theorem SameSources.of_map
    (h : ∀ i, (t'.get? i).map (fun n ↦ (n.element, n.sourceAttributes)) =
      (t.get? i).map fun n ↦ (n.element, n.sourceAttributes)) : SameSources t t' := by
  have hpair : ∀ (t : NodeTree) (i : NodeId),
      ((t.originOf i).element, (t.originOf i).attributes) =
        ((t.get? i).map fun n ↦ (n.element, n.sourceAttributes)).getD (none, .empty) := fun t i ↦ by
    rw [originOf, origin?]
    cases t.get? i <;> rfl
  exact fun i ↦ Prod.mk.inj ((hpair t' i).trans ((congrArg (Option.getD · _) (h i)).trans
    (hpair t i).symm))

theorem Deepened.sameSources (h : Deepened t t') : SameSources t t' :=
  .of_map (h.map_get? fun _ _ ↦ rfl)

theorem sameSources_of_bare (h : t.bare = t'.bare) : SameSources t t' :=
  .of_map (map_get?_of_bare h fun _ ↦ rfl)

end NodeTree

/-- **How two views come to have one name**: the ids of two elements make it, or the id of one
element makes the name that the other view has from its number. -/
inductive Android.Clash (slug : String → String) (p : Provider) (t : NodeTree) (i j : NodeId) :
    Prop
  | ids {x y : Handle} {id id' name : String} (first : t.HasId p i x id)
    (second : t.HasId p j y id') (differ : x ≠ y) (makes : idName? slug id = some name)
    (makes' : idName? slug id' = some name) :
    Clash slug p t i j
  | idNumber {x : Handle} {id : String} (first : t.HasId p i x id)
    (makes : idName? slug id = some (numberName j)) (second : Numbered slug t j) :
    Clash slug p t i j
  | numberId {x : Handle} {id : String} (first : Numbered slug t i) (second : t.HasId p j x id)
    (makes : idName? slug id = some (numberName i)) : Clash slug p t i j

namespace Context.Sourced

variable {p : Provider} {c : Context} (h : c.Sourced p)

include h

/-- An id is that of an element. -/
theorem exists_hasId {t : NodeTree} (ht : SameSources c.tree t) {i : NodeId} {id : String}
    (hid : (t.originOf i).attributes.get? "id" = some id) : ∃ x, HasId p t i x id := by
  have hsource := (ht i).2 ▸ hid
  cases ho : c.tree.origin? i with
  | none =>
    rw [originOf, ho] at hsource
    exact absurd hsource (by simp [Origin.blank])
  | some o =>
    have horigin : c.tree.originOf i = o := by
      rw [originOf, ho, Option.getD_some]
    obtain ⟨x, hx⟩ := h.node i o ho
    refine ⟨x, (ht i).1.trans (horigin ▸ hx.element), hid, ?_⟩
    rw [horigin] at hsource
    rcases hx.attributes with hempty | ⟨m, hm, hmeasured⟩
    · rw [hempty] at hsource
      exact absurd hsource (by simp)
    · rw [Provider.idOf?, hm, ← hsource, hmeasured]

end Context.Sourced

namespace Prepared

variable {c : Converter σ} {p : Provider} {palette : Palette} {s : σ} {d : Decided σ}
  {last : Context} {os : List Outline} {assembly : Assembly} {host : σ}
  (h : Prepared c p palette s d last os assembly host) (hnil : c.host.extensions = [])

include h hnil

/-- Decisions leave what the nodes have from their elements. -/
theorem sameSources :
    SameSources (c.loadImages (c.ingest p palette s)).context.tree d.run.context.tree := by
  have hh := Host.obeys_of_extensions_eq_nil hnil .decides
  obtain ⟨xs, -, -, -, hruns⟩ := Decided.exists_decided_runs hnil c.config.layout
    (Converter.ingested hh p palette s)
  have htold : Told _ _ _ := Classify.told_runs hruns
  rw [h.tree]
  exact htold.sameSources.trans (deepened_computeRenderDepths _).sameSources

/-- The outermost node of a document in the output is the root of a document. -/
theorem exists_document {o : Outline} (ho : o ∈ os) :
    d.run.context.tree.kind? o.id = some .root ∧
      ∃ e ∈ (c.loadImages (c.ingest p palette s)).context.documents, e.root = o.id := by
  obtain ⟨moved, kept, hd⟩ := h.concluded
  have hmem : o.id ∈ d.run.context.targets.map DocumentEntry.root :=
    h.outlined.ids ▸ List.mem_map_of_mem ho
  rw [hd.targets_eq (Converter.about_answers hnil p palette s)] at hmem
  obtain ⟨e, he, hroot⟩ := List.mem_map.1 hmem
  exact ⟨hd.kind_root hmem, e, hd.documents (hd.answered.documents ▸ he), hroot⟩

/-- **A node of an element is in the run of its document**, since groups are of no element. -/
theorem inside_layoutRun {o : Outline} (ho : o ∈ os) {i : NodeId} (hi : i ∈ o.ids) {x : Handle}
    (hx : (d.run.context.tree.originOf i).element = some x) :
    Inside (c.loadImages (c.ingest p palette s)).context.tree.layoutRun o.id i ∧
      ∃ origin, (c.loadImages (c.ingest p palette s)).context.tree.origin? i = some origin ∧
        origin.element = some x := by
  obtain ⟨moved, kept, hd⟩ := h.concluded
  obtain ⟨hkind, -⟩ := h.exists_document hnil ho
  rw [(h.sameSources hnil i).1, originOf] at hx
  cases horigin : (c.loadImages (c.ingest p palette s)).context.tree.origin? i with
  | none =>
    rw [horigin] at hx
    exact absurd hx (by simp [Origin.blank])
  | some origin =>
    rw [horigin] at hx
    refine ⟨?_, origin, rfl, hx⟩
    have hmoved := hd.not_mem_moved_of_proceed (Converter.about_answers hnil p palette s)
    have hin := (Outline.mem_ids_iff (h.outlined.follows o ho)).1 hi
    rcases hd.answered.arranged.inside_origin hmoved hkind hin with hrun | ⟨hgroup, -⟩
    · rwa [hd.answered.extended.layoutRun_eq, hd.tree] at hrun
    · have hlt := lt_size_of_origin? horigin
      rw [← hd.tree] at hlt
      rw [hd.answered.extended.kind?_eq_of_lt hlt, kind?] at hgroup
      obtain ⟨l, hl, hkind⟩ := Option.map_eq_some_iff.1 hgroup
      exact absurd hkind (hd.ingested.sown.ungrouped i l hl)

/-- **Two nodes of a document are of different elements.** -/
theorem eq_of_element {o : Outline} (ho : o ∈ os) {i j : NodeId} (hi : i ∈ o.ids) (hj : j ∈ o.ids)
    {x : Handle} (hix : (d.run.context.tree.originOf i).element = some x)
    (hjx : (d.run.context.tree.originOf j).element = some x) : i = j := by
  obtain ⟨-, e, he, hroot⟩ := h.exists_document hnil ho
  obtain ⟨hi, oi, hoi, hie⟩ := h.inside_layoutRun hnil ho hi hix
  obtain ⟨hj, oj, hoj, hje⟩ := h.inside_layoutRun hnil ho hj hjx
  rw [← hroot] at hi hj
  exact (c.sourced hnil p palette s).once e he i j oi oj hi hj hoi hoj (hie.trans hje.symm)

section

variable {sharing : SharingConfig} {shared : Context} {styles : List StyleEntry}
  (hshare : last.share c.target sharing (os.flatMap Outline.ids) = (styles, shared))

include hshare

omit hnil in
/-- The elements of a document are those of different nodes. -/
theorem nodup_nodes {o : Outline} (ho : o ∈ os) :
    ((Markup.tags (o.page c.target shared.tree)).map Tag.node).Nodup := by
  have hids : (o.pieces .empty).filterMap Piece.node? = o.ids :=
    Outline.nodes_eq_ids (fun _ ↦ rfl) (h.outlined.follows o ho)
  rw [Outline.page, c.target.map_node_tags true fun i hi ↦ ?_, hids]
  · exact (List.nodup_flatMap.1 h.outlined.nodup).1 o ho
  · obtain ⟨n, hn⟩ := h.exists_get? (h.bare_shared hshare)
      (List.mem_flatMap.2 ⟨o, ho, hids ▸ hi⟩)
    exact lt_size_of_get? hn

/-- **Views of a document have one name** exactly if their names clash. -/
theorem clash_iff {o : Outline} (ho : o ∈ os) {i j : NodeId} (hi : i ∈ o.ids) (hj : j ∈ o.ids)
    (hne : i ≠ j) : (∃ name, Android.nameAt? c.slug shared.tree i = some name ∧
      Android.nameAt? c.slug shared.tree j = some name) ↔
        Android.Clash c.slug p shared.tree i j := by
  have hlast := sameSources_of_bare (h.bare_shared hshare).symm
  have hsame := (h.sameSources hnil).trans hlast
  have hsourced := c.sourced hnil p palette s
  simp only [Android.nameAt?_eq_some_iff]
  constructor
  · rintro ⟨name, hfirst, hsecond⟩
    cases hfirst with
    | ofId source makes =>
      obtain ⟨x, hx⟩ := hsourced.exists_hasId hsame source
      cases hsecond with
      | ofId source' makes' =>
        obtain ⟨y, hy⟩ := hsourced.exists_hasId hsame source'
        refine .ids hx hy (fun heq ↦ hne ?_) makes makes'
        exact h.eq_of_element hnil ho hi hj ((hlast i).1 ▸ hx.element)
          ((hlast j).1 ▸ heq ▸ hy.element)
      | ofNumber numbered => exact .idNumber hx makes numbered
    | ofNumber numbered =>
      generalize hname : Android.numberName i = name at hsecond
      cases hsecond with
      | ofId source makes =>
        obtain ⟨y, hy⟩ := hsourced.exists_hasId hsame source
        exact .numberId numbered hy (hname ▸ makes)
      | ofNumber _ => exact absurd (Android.numberName_injective hname) hne
  · intro hclash
    cases hclash with
    | ids first second _ makes makes' =>
      exact ⟨_, .ofId first.source makes, .ofId second.source makes'⟩
    | idNumber first makes second => exact ⟨_, .ofId first.source makes, .ofNumber second⟩
    | numberId first second makes => exact ⟨_, .ofNumber first, .ofId second.source makes⟩

/-- **Elements of a document declare one name** exactly if the names of their nodes clash. -/
theorem declares_both_iff (hnames : sharing.excludes "android:id" = true) {screen : Android.Screen}
    (hscreen : c.target = Android.dialect c.slug screen) {o : Outline} (ho : o ∈ os) {g g' : Tag}
    (hg : g ∈ Markup.tags (o.page c.target shared.tree))
    (hg' : g' ∈ Markup.tags (o.page c.target shared.tree)) (hne : g.node ≠ g'.node) :
    (∃ v, ("android:id", v) ∈ g.attributes ∧ ("android:id", v) ∈ g'.attributes) ↔
      Android.Clash c.slug p shared.tree g.node g'.node := by
  obtain ⟨i, hi, n, hn, first, rfl⟩ := h.exists_of_mem_tags _ ho hg
  obtain ⟨j, hj, m, hm, first', rfl⟩ := h.exists_of_mem_tags _ ho hg'
  have hids : ∀ {k}, k ∈ o.ids → k ∈ os.flatMap Outline.ids := fun hk ↦
    List.mem_flatMap.2 ⟨o, ho, hk⟩
  have hfirst := h.id_mem_tag_iff hshare hscreen hnames (hids hi) hn first
  have hsecond := h.id_mem_tag_iff hshare hscreen hnames (hids hj) hm first'
  rw [show (c.target.tag shared.tree first n).node = i from id_of_get? hn,
    show (c.target.tag shared.tree first' m).node = j from id_of_get? hm] at hne ⊢
  rw [← h.clash_iff hnil hshare ho hi hj hne]
  constructor
  · rintro ⟨v, hv, hv'⟩
    obtain ⟨name, hname, rfl⟩ := (hfirst v).1 hv
    obtain ⟨name', hname', heq⟩ := (hsecond _).1 hv'
    obtain rfl : name = name' := String.append_right_inj _ |>.1 heq
    exact ⟨name, hname, hname'⟩
  · rintro ⟨name, hname, hname'⟩
    exact ⟨_, (hfirst _).2 ⟨name, hname, rfl⟩, (hsecond _).2 ⟨name, hname', rfl⟩⟩

end

end Prepared

/-- **Names of views clash as their ids do.** Without extensions, and if the names of views are not
shared (as they are not by default), the elements of a document are those of different nodes, and
two of them declare the same name exactly if the ids of two elements of the source make it, or the
id of one makes the name that the other has from its number. -/
theorem Converter.names_clash (c : Converter σ) (p : Provider) (s : σ)
    (hextensions : c.host.extensions = []) {screen : Android.Screen}
    (hscreen : c.target = Android.dialect c.slug screen)
    (hnames : c.config.sharing.excludes "android:id" = true) :
    (∃ e, c.Fails p s e ∧ (c.convert p s).1 = .error e) ∨
      ∃ palette a r o, c.config.check = .ok palette ∧ c.assembled p palette s = (.ok a, r) ∧
        (c.convert p s).1 = .ok o ∧
        o.documents.map DocumentOutput.content = (c.pages p s).map Markup.text ∧
        ∀ page ∈ c.pages p s, ((Markup.tags page).map Tag.node).Nodup ∧
          ∀ g ∈ Markup.tags page, ∀ g' ∈ Markup.tags page, g.node ≠ g'.node →
            ((∃ v, ("android:id", v) ∈ g.attributes ∧ ("android:id", v) ∈ g'.attributes) ↔
              Android.Clash c.slug p r.context.tree g.node g'.node) := by
  have hbare : c.target.OnBare := hscreen ▸ Android.onBare_dialect c.slug screen
  rcases fails_or_prepared hextensions hbare p s with
    ⟨e, he, hfails⟩ | ⟨palette, d, last, os, assembly, host, hcheck, h⟩
  · exact .inl ⟨e, he, hfails c.config.sharing⟩
  obtain ⟨o, hok, hcontents, hpages, -⟩ := h.exists_pages hextensions hcheck
  refine .inr ⟨palette, _, _, o, hcheck, h.assembled c.config.sharing, hok, hcontents,
    fun page hpage ↦ ?_⟩
  rw [hpages] at hpage
  obtain ⟨outline, ho, rfl⟩ := List.mem_map.1 hpage
  exact ⟨h.nodup_nodes Prod.mk.eta.symm ho, fun g hg g' hg' hne ↦
    h.declares_both_iff hextensions Prod.mk.eta.symm hnames hscreen ho hg hg' hne⟩

/-- A document with two paragraphs of which the ids differ in a capital. -/
def Provider.capital : Provider :=
  let element (tag : String) (attributes : List (String × String)) (text : Option String)
      (children : List Handle) : ProvidedElement :=
    ⟨.ok { BoxMeasure.empty with
      tag := tag, bounds := ⟨0, 0, 100, 20⟩, attributes := .ofList attributes, text := text },
      children⟩
  .ofElements [⟨"page", some 0⟩] #[element "div" [] none [1, 2],
    element "p" [("id", "Price")] (some "Old") [],
    element "p" [("id", "price")] (some "New") []]

/-- Both paragraphs declare the same name. -/
theorem Converter.names_clash_capital :
    plain.host.extensions = [] ∧ plain.target = Android.dialect plain.slug (.new 1 1) ∧
      plain.config.sharing.excludes "android:id" = true ∧
      Provider.capital.idOf? 1 = some "Price" ∧ Provider.capital.idOf? 2 = some "price" ∧
      ∃ a r, plain.assembled .capital ⟨[]⟩ () = (.ok a, r) ∧
        ∃ page ∈ plain.pages .capital (), ∃ g ∈ Markup.tags page, ∃ g' ∈ Markup.tags page,
          g.node ≠ g'.node ∧ ("android:id", "@+id/price") ∈ g.attributes ∧
            ("android:id", "@+id/price") ∈ g'.attributes ∧
            Android.Clash plain.slug .capital r.context.tree g.node g'.node := by
  have hscreen : plain.target = Android.dialect plain.slug (.new 1 1) := rfl
  have hnames : plain.config.sharing.excludes "android:id" = true := by decide
  obtain ⟨page, hpage, g, hg, g', hg', hne, hfirst, hsecond⟩ : ∃ page ∈ plain.pages .capital (),
      ∃ g ∈ Markup.tags page, ∃ g' ∈ Markup.tags page, g.node ≠ g'.node ∧
        ("android:id", "@+id/price") ∈ g.attributes ∧
        ("android:id", "@+id/price") ∈ g'.attributes := by decide +kernel
  refine ⟨rfl, hscreen, hnames, by decide, by decide, ?_⟩
  rcases names_clash plain .capital () rfl hscreen hnames with
    ⟨e, he, -⟩ | ⟨palette, a, r, o, hcheck, hassembled, -, -, hall⟩
  · exact absurd he (not_fails_plain (by decide +kernel) e)
  · obtain rfl := Except.ok.inj ((rfl : plain.config.check = .ok ⟨[]⟩).symm.trans hcheck)
    obtain ⟨-, hclash⟩ := hall page hpage
    exact ⟨a, r, hassembled, page, hpage, g, hg, g', hg', hne, hfirst, hsecond,
      (hclash g hg g' hg' hne).1 ⟨_, hfirst, hsecond⟩⟩

end ViewCompiler
