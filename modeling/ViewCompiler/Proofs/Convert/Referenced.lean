import ViewCompiler.Proofs.Convert.Elements

/-!
# References and tables

The attributes of elements and styles refer to resources by name, and the resources are written to
tables of their own. The main statement is `Converter.references_match`: without extensions every
reference leads to exactly one entry of the tables, and every entry is referred to (`Matching`).

The first holds because a name is answered only for a value that is in the store from then on, and
because names differ. The second holds because nothing but the attributes of nodes in the output is
ever stored, because no attribute is overwritten, and because an attribute that leaves its node is
in one of the styles that the node refers to.
-/

namespace ViewCompiler

open ValueStore

/-! ### Names in tables -/

/-- The names that references of a kind can lead to; fonts are strings too. -/
def ResourceTables.names (t : ResourceTables) : ResourceKind → List String
  | .string => t.strings.map Prod.fst ++ t.fonts.map Prod.fst
  | .array => t.arrays.map Prod.fst
  | .color => t.colors.map Prod.fst
  | .dimension => t.dimens.map Prod.fst
  | .drawable => t.drawables.map Prod.fst
  | .style => t.styles.map StyleEntry.name

namespace ValueStore

/-- The kinds of values that references of a kind can lead to. -/
def ResourceKind.kinds : ResourceKind → List Kind
  | string => [.string, .font]
  | array => [.array]
  | color => [.color]
  | dimension => [.dimension]
  | drawable => [.drawable]
  | style => []

theorem ResourceKind.mem_kinds_iff {k : ResourceKind} {k' : Kind} :
    k' ∈ k.kinds ↔ k'.resource = k := by
  cases k <;> cases k' <;> decide

theorem Kind.resource_ne_style (k : Kind) : k.resource ≠ .style := by
  cases k <;> decide

variable {s : ValueStore} {k : ResourceKind}

/-- The names in a store that references of a kind can lead to. -/
def namesOf (s : ValueStore) (k : ResourceKind) : List String :=
  k.kinds.flatMap fun k' ↦ (s.table k').names

theorem mem_namesOf_iff {name : String} :
    name ∈ s.namesOf k ↔ ∃ k', k'.resource = k ∧ name ∈ (s.table k').names := by
  simp only [namesOf, List.mem_flatMap, ResourceKind.mem_kinds_iff]

theorem Kept.nodup_namesOf {history : List Request} (h : Kept history s) :
    (s.namesOf k).Nodup := by
  have hsingle : ∀ k', (List.flatMap (fun k' ↦ (s.table k').names) [k']).Nodup := fun k' ↦ by
    rw [List.flatMap_singleton]
    exact h.names k'
  cases k with
  | string =>
    rw [namesOf, ResourceKind.kinds, List.flatMap_cons, List.flatMap_singleton]
    exact h.strings
  | style => exact .nil
  | _ => exact hsingle _

end ValueStore

/-- **The names in the tables** are those in the store. -/
theorem ResourceTables.perm_names_collect (store : ValueStore) (styles : List StyleEntry)
    {k : ResourceKind} (hk : k ≠ .style) :
    ((collect store styles).names k).Perm (store.namesOf k) := by
  cases k with
  | string =>
    rw [namesOf, ResourceKind.kinds, List.flatMap_cons, List.flatMap_singleton]
    exact (perm_names _).append (perm_names _)
  | color => exact (perm_colors _).trans (.of_eq (List.flatMap_singleton ..).symm)
  | style => exact absurd rfl hk
  | _ => exact (perm_names _).trans (.of_eq (List.flatMap_singleton ..).symm)

/-! ### Entries -/

namespace Table

variable {V : Type} {t : Table V}

/-- Where keys differ, every entry is found. -/
theorem name?_of_mem (hkeys : t.keys.Nodup) {e : Entry V} (he : e ∈ t.entries) :
    t.name? e.key = some e.name := by
  cases h : t.name? e.key with
  | none => exact absurd (List.mem_map_of_mem he) (name?_eq_none_iff.1 h)
  | some name =>
    obtain ⟨e', he', hkey, rfl⟩ := mem_of_name? h
    rw [List.inj_on_of_nodup_map hkeys he' he hkey]

end Table

namespace ValueStore

theorem nodup_eraseDups : ∀ l : List String, l.eraseDups.Nodup
  | [] => .nil
  | a :: r => by
    rw [List.eraseDups_cons, List.nodup_cons, List.mem_eraseDups]
    exact ⟨fun hmem ↦ by simp at hmem, nodup_eraseDups _⟩
  termination_by l => l.length
  decreasing_by exact Nat.lt_succ_of_le (List.length_filter_le _ _)

variable {history : List Request} {s : ValueStore}

/-- **Every entry has been asked for.** -/
theorem Kept.exists_request (h : Kept history s) {k : ResourceKind} {name : String}
    (hname : name ∈ s.namesOf k) :
    ∃ r ∈ history, r.kind.resource = k ∧ (s.table r.kind).name? r.key = some name := by
  obtain ⟨k', hk', hmem⟩ := mem_namesOf_iff.1 hname
  obtain ⟨e, he, rfl⟩ := List.mem_map.1 hmem
  have hkeys : (s.table k').keys.Nodup := h.keys k' ▸ nodup_eraseDups _
  have hkey : e.key ∈ (s.table k').keys := List.mem_map_of_mem he
  rw [h.keys, List.mem_eraseDups] at hkey
  obtain ⟨r, hr, hrkey⟩ := List.mem_map.1 hkey
  obtain ⟨hhistory, hkind⟩ := List.mem_filter.1 hr
  obtain rfl := of_decide_eq_true hkind
  exact ⟨r, hhistory, hk', hrkey ▸ Table.name?_of_mem hkeys he⟩

/-- A name that has been answered is in the store. -/
theorem mem_namesOf_of_name? {r : Request} {name : String}
    (h : (s.table r.kind).name? r.key = some name) : name ∈ s.namesOf r.kind.resource := by
  obtain ⟨e, he, -, rfl⟩ := Table.mem_of_name? h
  exact mem_namesOf_iff.2 ⟨_, rfl, List.mem_map_of_mem he⟩

end ValueStore

/-! ### References in attributes -/

namespace Android

/-- **A reference to a resource** is that to a stored value. -/
theorem exists_request_of_reference {slug : String → String} {screen : Screen} {t : NodeTree}
    {i : NodeId} {key : String} {v : AttributeValue} (hv : (key, v) ∈ attributes slug screen t i)
    {s : ValueStore} {k : ResourceKind} {name : String} (h : s.Says v (reference k.word name)) :
    ∃ r, v.request? = some r ∧ r.kind.resource = k ∧
      (s.table r.kind).name? r.key = some name := by
  rcases reference_cases hv k.not_mem_word h with
    ⟨r, request, hword, named⟩ | hword | ⟨hword, -⟩
  · exact ⟨r, request, ResourceKind.word_injective hword, named⟩
  · exact absurd hword (by cases k <;> decide)
  · exact absurd hword (by cases k <;> decide)

end Android

/-! ### Documents and tables -/

/-- A text is that of an attribute, of an element in some documents or in a style. -/
def ResourceTables.Mentions (t : ResourceTables) (pages : List (List Markup)) (text : String) :
    Prop :=
  (∃ page ∈ pages, ∃ g ∈ Markup.tags page, ∃ key, (key, text) ∈ g.attributes) ∨
    ∃ e ∈ t.styles, ∃ key, (key, text) ∈ e.attributes

/-- **References and entries that match.** -/
structure Matching (pages : List (List Markup)) (t : ResourceTables) : Prop where
  /-- A reference leads to exactly one entry. -/
  found : ∀ (k : ResourceKind) (name : String), t.Mentions pages (reference k.word name) →
    (t.names k).count name = 1
  parents : ∀ e ∈ t.styles, ∀ name, e.parent = some name → (t.names .style).count name = 1
  /-- An entry is referred to. -/
  used : ∀ (k : ResourceKind), k ≠ .style → ∀ name ∈ t.names k,
    t.Mentions pages (reference k.word name)
  /-- A style is that of an element, or the parent of another style. -/
  styles : ∀ e ∈ t.styles,
    (∃ page ∈ pages, ∃ g ∈ Markup.tags page, ("style", reference "style" e.name) ∈ g.attributes) ∨
      ∃ e' ∈ t.styles, e'.name ≠ e.name ∧ e'.parent = some e.name

namespace Prepared

variable {σ : Type} {c : Converter σ} {p : Provider} {palette : Palette} {s : σ} {d : Decided σ}
  {last : Context} {os : List Outline} {assembly : Assembly} {host : σ}
  (h : Prepared c p palette s d last os assembly host) {sharing : SharingConfig}
  {shared : Context} {styles : List StyleEntry}
  (hshare : last.share c.target sharing (os.flatMap Outline.ids) = (styles, shared))
  {screen : Android.Screen} (hscreen : c.target = Android.dialect c.slug screen)

include h hshare hscreen

/-- A text that is mentioned as a reference is that of a node's style, or says an attribute. -/
theorem says_of_mentions {k : ResourceKind} {name : String}
    (hmention : (ResourceTables.collect last.values styles).Mentions
      (os.map (Outline.page c.target shared.tree)) (reference k.word name)) :
    (k = .style ∧ name ∈ styles.map StyleEntry.name) ∨
      ∃ i ∈ os.flatMap Outline.ids, ∃ key v,
        (key, v) ∈ Android.attributes c.slug screen d.run.context.tree i ∧
          last.values.Says v (reference k.word name) := by
  have hcarried : ∀ i ∈ os.flatMap Outline.ids, ∀ n, last.tree.get? i = some n → ∀ key,
      (key, reference k.word name) ∈ n.attributes.entries →
        ∃ i ∈ os.flatMap Outline.ids, ∃ key v,
          (key, v) ∈ Android.attributes c.slug screen d.run.context.tree i ∧
            last.values.Says v (reference k.word name) := fun i hi n hn key hkey ↦
    ⟨i, hi, key, (h.mem_entries_iff hscreen hi hn key _).1 hkey⟩
  rcases hmention with ⟨page, hpage, g, hg, key, hkey⟩ | ⟨e, he, key, hkey⟩
  · obtain ⟨o, ho, rfl⟩ := List.mem_map.1 hpage
    obtain ⟨i, hi, n', hn', first, rfl⟩ := h.exists_of_mem_tags _ ho hg
    have hids : i ∈ os.flatMap Outline.ids := List.mem_flatMap.2 ⟨o, ho, hi⟩
    obtain ⟨n, hn⟩ := h.exists_get? h.attributed.bare hids
    obtain ⟨l, hleads, hperm⟩ := h.exists_split hshare hids hn hn'
    -- the root of a document has no reference; there remain the style and what the node has kept
    rw [Dialect.tag, Dialect.writtenAttributes, List.mem_append, List.mem_append, hscreen] at hkey
    rcases hkey with (hroot | hstyle) | hown
    · exact absurd hroot (Android.reference_not_mem_root screen first key k.word name)
    · obtain ⟨style, hmem, heq⟩ := List.mem_map.1 hstyle
      have htext : reference "style" style = reference k.word name := (Prod.mk.inj heq).2
      obtain ⟨hword, rfl⟩ :=
        reference_inj ResourceKind.style.not_mem_word k.not_mem_word htext
      rw [Option.mem_toList.1 hmem] at hleads
      exact .inl ⟨ResourceKind.word_injective hword.symm, hleads.1.mem_names⟩
    · exact .inr (hcarried i hids n hn key (hperm.mem_iff.2 (List.mem_append_left _ hown)))
  · rw [(ResourceTables.perm_styles _ _).mem_iff] at he
    obtain ⟨i, hi, n, hn, hmem⟩ := h.exists_of_mem_style hshare he hkey
    exact .inr (hcarried i hi n hn key hmem)

/-- **What says an attribute is mentioned**: by the element of the node, or by a style. -/
theorem mentions_text {i : NodeId} (hi : i ∈ os.flatMap Outline.ids) {key : String}
    {v : AttributeValue} (hv : (key, v) ∈ Android.attributes c.slug screen d.run.context.tree i)
    {text : String} (hsaid : last.values.Says v text) :
    (ResourceTables.collect last.values styles).Mentions
      (os.map (Outline.page c.target shared.tree)) text := by
  obtain ⟨o, ho, hin⟩ := List.mem_flatMap.1 hi
  rcases h.mem_tag_or_style hshare hscreen ho hin hv hsaid with
    ⟨g, hg, hattribute⟩ | ⟨e, he, hattribute⟩
  · exact .inl ⟨_, List.mem_map_of_mem ho, g, hg, key, hattribute⟩
  · exact .inr ⟨e, (ResourceTables.perm_styles _ _).mem_iff.2 he, key, hattribute⟩

/-- **References and entries match.** -/
theorem matching : Matching (os.map (Outline.page c.target shared.tree))
    (ResourceTables.collect last.values styles) := by
  -- the store has been asked for the attributes of the nodes in the output and for nothing else
  have hkept := (Kept.new c.slug c.config.values palette).answerAll
    (os.flatMap Outline.ids |>.flatMap fun i ↦ requests (c.target.attributes d.run.context.tree i))
  rw [List.nil_append, ← h.values, ← h.attributed.values] at hkept
  have hused := h.used hshare
  have hstyles := ResourceTables.perm_styles last.values styles
  have hnames : ((ResourceTables.collect last.values styles).names .style).Perm
    (styles.map StyleEntry.name) := hstyles.map _
  have hstyle : ∀ name ∈ styles.map StyleEntry.name,
      ((ResourceTables.collect last.values styles).names .style).count name = 1 := fun name hname ↦
    hnames.count_eq name ▸ List.count_eq_one_of_mem hused.nodup hname
  refine ⟨fun k name hmention ↦ ?_, fun e he name hname ↦ hstyle name ?_,
    fun k hk name hname ↦ ?_, fun e he ↦ ?_⟩
  · rcases h.says_of_mentions hshare hscreen hmention with
      ⟨rfl, hname⟩ | ⟨i, -, key, v, hv, hsaid⟩
    · exact hstyle name hname
    · obtain ⟨r, -, rfl, hnamed⟩ := Android.exists_request_of_reference hv hsaid
      rw [(ResourceTables.perm_names_collect last.values styles r.kind.resource_ne_style).count_eq]
      exact List.count_eq_one_of_mem hkept.nodup_namesOf (mem_namesOf_of_name? hnamed)
  · exact hused.parents e (hstyles.mem_iff.1 he) name hname
  · rw [(ResourceTables.perm_names_collect last.values styles hk).mem_iff] at hname
    -- the request for the entry is that of an attribute, whose text is still there
    obtain ⟨r, hr, rfl, hnamed⟩ := hkept.exists_request hname
    obtain ⟨i, hi, hrequest⟩ := List.mem_flatMap.1 hr
    obtain ⟨⟨key, v⟩, hv, hvr⟩ := List.mem_filterMap.1 hrequest
    rw [hscreen] at hv
    exact h.mentions_text hshare hscreen hi hv (.stored hvr hnamed)
  · rcases hused.used e (hstyles.mem_iff.1 he) with ⟨i, hassigned⟩ | ⟨e', he', hne, hparent⟩
    · refine .inl ?_
      have hi := h.mem_ids_of_assigned sharing hassigned
      obtain ⟨n, hn⟩ := h.exists_get? h.attributed.bare hi
      have hn' := Context.get?_share c.target sharing (os.flatMap Outline.ids) last i
      rw [hshare, hn, Option.map_some, hassigned, Option.some_or] at hn'
      obtain ⟨l, -, hperm⟩ := h.exists_split hshare hi hn hn'
      have hapart := h.stylesApart hscreen hi hn
        (List.Subset.trans (List.subset_append_left _ _) hperm.symm.subset)
      obtain ⟨o, ho, hin⟩ := List.mem_flatMap.1 hi
      obtain ⟨first, htag⟩ := h.exists_tag ho hin hn'
      exact ⟨_, List.mem_map_of_mem ho, _, htag, (hapart.mem_attributes_iff _ first _).2 rfl⟩
    · exact .inr ⟨e', hstyles.mem_iff.2 he', hne, hparent⟩

end Prepared

namespace Converter

/-- **References and tables match.** Without extensions a conversion to views fails only if the
configuration is wrong or there is no document; else each reference in an element or a style leads
to exactly one entry of the tables, and each entry of the tables is referred to. -/
theorem references_match {σ : Type} (c : Converter σ) (p : Provider) (s : σ)
    (hextensions : c.host.extensions = []) {screen : Android.Screen}
    (hscreen : c.target = Android.dialect c.slug screen) :
    (∃ e, c.Fails p s e ∧ (c.convert p s).1 = .error e) ∨
      ∃ o, (c.convert p s).1 = .ok o ∧
        o.documents.map DocumentOutput.content = (c.pages p s).map Markup.text ∧
        Matching (c.pages p s) o.tables := by
  have hbare : c.target.OnBare := hscreen ▸ Android.onBare_dialect c.slug screen
  rcases fails_or_prepared hextensions hbare p s with
    ⟨e, he, hfails⟩ | ⟨palette, d, last, os, assembly, host, hcheck, h⟩
  · exact .inl ⟨e, he, hfails c.config.sharing⟩
  · obtain ⟨o, hok, hcontents, hpages, htables⟩ := h.exists_pages hextensions hcheck
    refine .inr ⟨o, hok, hcontents, ?_⟩
    rw [htables, hpages]
    exact h.matching Prod.mk.eta.symm hscreen

/-- The two elements of a document have one style, and this has their length. -/
theorem references_match_twoParagraphs : plain.host.extensions = [] ∧
    plain.target = Android.dialect plain.slug (.new 1 1) ∧
      ∃ o, (plain.convert .twoParagraphs ()).1 = .ok o ∧
        Matching (plain.pages .twoParagraphs ()) o.tables ∧
        (o.tables.names .style, o.tables.names .dimension) = (["View"], ["dimen_0dp"]) := by
  have hscreen : plain.target = Android.dialect plain.slug (.new 1 1) := rfl
  have hnames : (plain.convert .twoParagraphs ()).1.toOption.map
      (fun o ↦ (o.tables.names .style, o.tables.names .dimension)) =
        some (["View"], ["dimen_0dp"]) := by decide +kernel
  refine ⟨rfl, hscreen, ?_⟩
  rcases references_match plain .twoParagraphs () rfl hscreen with
    ⟨e, he, -⟩ | ⟨o, hok, -, hmatching⟩
  · exact absurd he (not_fails_plain (by decide) e)
  · rw [hok] at hnames
    exact ⟨o, hok, hmatching, Option.some.inj hnames⟩

end Converter

end ViewCompiler
