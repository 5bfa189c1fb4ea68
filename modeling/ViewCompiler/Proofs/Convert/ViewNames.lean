import ViewCompiler.Proofs.Convert.Elements
import ViewCompiler.Proofs.Template.Naming

/-!
# References between views

An element refers to another view by the name that this declares. The main statement is
`Converter.references_declared`: without extensions, and if the names of views are not shared, an
element of the same document declares the name, unless a label refers to a view that is not in its
document. A member that is tied to a sibling always finds it, since the members of a container are
written in one document.

An element declares the name of its own view and no other (`Prepared.id_mem_tag_iff`). A label is
bound to the view that it is for before it is known which nodes are in the output, so the view may
be hidden (`Converter.references_declared_hidden`).
-/

namespace ViewCompiler

open NodeTree

variable {σ : Type}

/-- An element of a document declares the name of a view. -/
def Markup.Declares (page : List Markup) (name : String) : Prop :=
  ∃ g ∈ tags page, ("android:id", "@+id/" ++ name) ∈ g.attributes

instance (page : List Markup) (name : String) : Decidable (Markup.Declares page name) :=
  inferInstanceAs (Decidable (∃ g ∈ Markup.tags page, _))

/-- An element is that of a label for a view that is not in its document. -/
def Markup.LabelsOutside (t : NodeTree) (page : List Markup) (g : Tag) : Prop :=
  ∃ n target, t.get? g.node = some n ∧ n.companion = some target ∧
    ∀ g' ∈ tags page, g'.node ≠ target

namespace Prepared

variable {c : Converter σ} {p : Provider} {palette : Palette} {s : σ} {d : Decided σ}
  {last : Context} {os : List Outline} {assembly : Assembly} {host : σ}
  (h : Prepared c p palette s d last os assembly host)

include h

/-- **The members of a container are in one document.** -/
theorem mem_ids_of_sibling {o : Outline} (ho : o ∈ os) {i : NodeId} (hi : i ∈ o.ids) {n : Node}
    (hn : d.run.context.tree.get? i = some n) {q : NodeId} (hq : n.renderParent = some q)
    {members : List NodeId} (horder : d.run.context.tree.renderOrder q = .ok members)
    {target : NodeId} (htarget : target ∈ members) : target ∈ o.ids := by
  obtain ⟨moved, kept, hd⟩ := h.concluded
  have ha := hd.answered.arranged
  have hfollows := h.outlined.follows o ho
  have hmem : i ∈ d.run.context.tree.order q := mem_order.2 ((ha.mem_iff q i).2 (by
    rw [renderParent?, place_of_get? hn]
    exact hq))
  have hroot : i ≠ o.id := fun heq ↦ by
    refine hd.outermost (x := i) ?_ q hmem
    rw [heq, ← h.outlined.ids]
    exact List.mem_map_of_mem ho
  -- the node is not the outermost one, so its parent is in the document, and with it all members
  rcases Relation.ReflTransGen.cases_tail ((Outline.mem_ids_iff hfollows).1 hi) with
    heq | ⟨q', hinside, hmem'⟩
  · exact absurd heq hroot
  · obtain rfl := ha.eq_of_mem_order hmem hmem'
    rw [renderOrder_eq (lt_size_of_mem_order hmem)] at horder
    obtain rfl := Except.ok.inj horder
    exact (Outline.mem_ids_iff hfollows).2 (hinside.tail htarget)

section

variable {sharing : SharingConfig} {shared : Context} {styles : List StyleEntry}
  (hshare : last.share c.target sharing (os.flatMap Outline.ids) = (styles, shared))
  {screen : Android.Screen} (hscreen : c.target = Android.dialect c.slug screen)

include hshare hscreen

/-- **An element declares the name of its view** and no other, if names of views are not shared. -/
theorem id_mem_tag_iff (hnames : sharing.excludes "android:id" = true) {i : NodeId}
    (hi : i ∈ os.flatMap Outline.ids) {n : Node} (hn : shared.tree.get? i = some n) (first : Bool)
    (v : String) : ("android:id", v) ∈ (c.target.tag shared.tree first n).attributes ↔
      ∃ name, Android.nameAt? c.slug shared.tree i = some name ∧ v = "@+id/" ++ name := by
  obtain ⟨m, hm⟩ := h.exists_get? h.attributed.bare hi
  obtain ⟨l, hleads, hperm⟩ := h.exists_split hshare hi hm hn
  -- no style declares a name
  have hstyles : ("android:id", v) ∉ l.flatMap StyleEntry.attributes := fun hmem ↦ by
    obtain ⟨e, he, hattribute⟩ := List.mem_flatMap.1 hmem
    have hshared := ((h.used hshare).carried e (hleads.subset he) _ _ hattribute).2
    exact absurd (hnames.symm.trans hshared) (by simp)
  have htag : ("android:id", v) ∈ (c.target.tag shared.tree first n).attributes ↔
      ("android:id", v) ∈ n.attributes.entries := by
    have hroot : ("android:id", v) ∉ if first then c.target.rootAttributes else [] := by
      rw [hscreen]
      cases first <;> simp [Android.dialect]
    have hstyle : ("android:id", v) ∉ n.styleRef.toList.map fun style ↦
        (c.target.styleAttribute, "@style/" ++ style) := by
      rw [hscreen]
      cases n.styleRef <;> simp [Android.dialect]
    rw [Dialect.tag, Dialect.writtenAttributes, List.mem_append, List.mem_append,
      or_iff_right (not_or.2 ⟨hroot, hstyle⟩)]
  obtain ⟨k, hk⟩ := NodeTree.exists_get? (h.outlined.lt_size i hi)
  have hdeclared := h.mem_entries_iff hscreen hi hm "android:id" v
  rw [hperm.mem_iff, List.mem_append, or_iff_left hstyles, ← htag, Android.attributes, hk]
    at hdeclared
  rw [hdeclared, Android.nameAt?_of_bare (h.bare_shared hshare), Android.nameAt?_of_get? hk]
  constructor
  · rintro ⟨w, hw, hsaid⟩
    obtain ⟨name, hname, rfl⟩ := Android.id_mem_iff.1 hw
    exact ⟨name, hname, hsaid.unique (.plain _)⟩
  · rintro ⟨name, hname, rfl⟩
    exact ⟨_, Android.id_mem_iff.2 ⟨name, hname, rfl⟩, .plain _⟩

/-- **A view that is in a document declares its name there.** -/
theorem declares (hnames : sharing.excludes "android:id" = true) {o : Outline} (ho : o ∈ os)
    {i : NodeId} (hi : i ∈ o.ids) {n : Node} (hn : d.run.context.tree.get? i = some n)
    {name : String} (hname : Android.viewName? c.slug d.run.context.tree n = some name) :
    Markup.Declares (o.page c.target shared.tree) name := by
  have hids : i ∈ os.flatMap Outline.ids := List.mem_flatMap.2 ⟨o, ho, hi⟩
  obtain ⟨n', hn'⟩ := h.exists_get? (h.bare_shared hshare) hids
  obtain ⟨first, htag⟩ := h.exists_tag ho hi hn'
  refine ⟨_, htag, (h.id_mem_tag_iff hshare hscreen hnames hids hn' first _).2 ⟨name, ?_, rfl⟩⟩
  rw [Android.nameAt?_of_bare (h.bare_shared hshare), Android.nameAt?_of_get? hn, hname]

/-- **References to views** are declared, or are those of labels. -/
theorem declares_or_labelsOutside (hnames : sharing.excludes "android:id" = true) {o : Outline}
    (ho : o ∈ os) {g : Tag} (hg : g ∈ Markup.tags (o.page c.target shared.tree))
    {key name : String} (hkey : (key, "@id/" ++ name) ∈
      g.own ++ g.inherited (ResourceTables.collect last.values styles).styles) :
    Markup.Declares (o.page c.target shared.tree) name ∨ key = "android:labelFor" ∧
      Markup.LabelsOutside shared.tree (o.page c.target shared.tree) g := by
  obtain ⟨i, hi, n', hn', first, rfl⟩ := h.exists_of_mem_tags _ ho hg
  have hids : i ∈ os.flatMap Outline.ids := List.mem_flatMap.2 ⟨o, ho, hi⟩
  obtain ⟨n, hn⟩ := h.exists_get? h.attributed.bare hids
  have hmem := (h.splits hshare hscreen hids hn hn' first).perm.mem_iff.1 hkey
  rw [h.attributes_tag hn, hscreen, List.mem_append] at hmem
  have hown := hmem.resolve_left (Android.reference_not_mem_root screen first key "id" name)
  obtain ⟨v, hv, hsaid⟩ := (h.mem_entries_iff hscreen hids hn key _).1 hown
  have hsaid : last.values.Says v (ValueStore.reference "id" name) := hsaid
  rcases Android.reference_cases hv (by decide) hsaid with
    ⟨r, -, hword, -⟩ | hword | ⟨-, m, target, m', hm, hm', hname, hrefers⟩
  · exact absurd hword (by cases r.kind <;> decide)
  · exact absurd hword (by decide)
  · cases hrefers with
    -- a label has been bound without regard to whether the view is in the document
    | labelFor companion =>
      by_cases htarget : target ∈ o.ids
      · exact .inl (h.declares hshare hscreen hnames ho htarget hm' hname)
      · refine .inr ⟨rfl, n', target, ?_, ?_, fun g' hg' heq ↦ htarget ?_⟩
        · rw [show (c.target.tag shared.tree first n').node = i from id_of_get? hn']
          exact hn'
        · obtain ⟨m₁, hm₁, hbare⟩ := exists_get?_of_bare (h.bare_shared hshare).symm hm
          obtain rfl := Option.some.inj (hn'.symm.trans hm₁)
          exact (congrArg Node.companion hbare).trans companion
        · obtain ⟨j, hj, n₁, hn₁, first', rfl⟩ := h.exists_of_mem_tags _ ho hg'
          rw [← heq, show (c.target.tag shared.tree first' n₁).node = j from id_of_get? hn₁]
          exact hj
    | aligned side parent order mem =>
      exact .inl (h.declares hshare hscreen hnames ho
        (h.mem_ids_of_sibling ho hi hm parent order mem) hm' hname)

end

end Prepared

/-- **References to views are declared.** Without extensions, and if the names of views are not
shared (as they are not by default), whatever refers to a view, itself or from its style, refers to
one that is declared by an element of its document; only a label may refer to a view that is not
in its document. -/
theorem Converter.references_declared (c : Converter σ) (p : Provider) (s : σ)
    (hextensions : c.host.extensions = []) {screen : Android.Screen}
    (hscreen : c.target = Android.dialect c.slug screen)
    (hnames : c.config.sharing.excludes "android:id" = true) :
    (∃ e, c.Fails p s e ∧ (c.convert p s).1 = .error e) ∨
      ∃ palette a r o, c.config.check = .ok palette ∧ c.assembled p palette s = (.ok a, r) ∧
        (c.convert p s).1 = .ok o ∧
        o.documents.map DocumentOutput.content = (c.pages p s).map Markup.text ∧
        ∀ page ∈ c.pages p s, ∀ g ∈ Markup.tags page, ∀ key name,
          (key, "@id/" ++ name) ∈ g.own ++ g.inherited o.tables.styles →
            Markup.Declares page name ∨
              key = "android:labelFor" ∧ Markup.LabelsOutside r.context.tree page g := by
  have hbare : c.target.OnBare := hscreen ▸ Android.onBare_dialect c.slug screen
  rcases fails_or_prepared hextensions hbare p s with
    ⟨e, he, hfails⟩ | ⟨palette, d, last, os, assembly, host, hcheck, h⟩
  · exact .inl ⟨e, he, hfails c.config.sharing⟩
  obtain ⟨o, hok, hcontents, hpages, htables⟩ := h.exists_pages hextensions hcheck
  refine .inr ⟨palette, _, _, o, hcheck, h.assembled c.config.sharing, hok, hcontents,
    fun page hpage g hg key name hkey ↦ ?_⟩
  rw [hpages] at hpage
  obtain ⟨outline, ho, rfl⟩ := List.mem_map.1 hpage
  rw [htables] at hkey
  exact h.declares_or_labelsOutside Prod.mk.eta.symm hscreen hnames ho hg hkey

/-- A document with a label for an element that is not displayed. -/
def Provider.hiddenTarget : Provider :=
  let element (tag : String) (attributes style : List (String × String)) (text : Option String)
      (children : List Handle) : ProvidedElement :=
    ⟨.ok { BoxMeasure.empty with
      tag := tag, attributes := .ofList attributes, style := .ofList style, text := text },
      children⟩
  .ofElements [⟨"page", some 0⟩] #[element "div" [] [] none [1, 2],
    element "label" [("for", "x")] [] (some "Name") [],
    element "input" [("id", "x")] [("display", "none")] none []]

/-- Its label refers to a view that no element declares. -/
theorem Converter.references_declared_hidden :
    plain.host.extensions = [] ∧ plain.target = Android.dialect plain.slug (.new 1 1) ∧
      plain.config.sharing.excludes "android:id" = true ∧
      ∃ a r, plain.assembled .hiddenTarget ⟨[]⟩ () = (.ok a, r) ∧
        ∃ page ∈ plain.pages .hiddenTarget (), ∃ g ∈ Markup.tags page,
          ("android:labelFor", "@id/x") ∈ g.attributes ∧ ¬Markup.Declares page "x" ∧
            Markup.LabelsOutside r.context.tree page g := by
  have hscreen : plain.target = Android.dialect plain.slug (.new 1 1) := rfl
  have hnames : plain.config.sharing.excludes "android:id" = true := by decide
  obtain ⟨page, hpage, g, hg, hkey, hnot⟩ : ∃ page ∈ plain.pages .hiddenTarget (),
      ∃ g ∈ Markup.tags page, ("android:labelFor", "@id/x") ∈ g.attributes ∧
        ¬Markup.Declares page "x" := by decide +kernel
  refine ⟨rfl, hscreen, hnames, ?_⟩
  rcases references_declared plain .hiddenTarget () rfl hscreen hnames with
    ⟨e, he, -⟩ | ⟨palette, a, r, o, hcheck, hassembled, -, -, hall⟩
  · exact absurd he (not_fails_plain (by decide +kernel) e)
  · obtain rfl := Except.ok.inj ((rfl : plain.config.check = .ok ⟨[]⟩).symm.trans hcheck)
    have hown : ("android:labelFor", "@id/x") ∈ g.own := List.mem_filter.2 ⟨hkey, by decide⟩
    have houtside := (hall page hpage g hg _ "x" (List.mem_append_left _ hown)).resolve_left hnot
    exact ⟨a, r, hassembled, page, hpage, g, hg, hkey, hnot, houtside.2⟩

end ViewCompiler
