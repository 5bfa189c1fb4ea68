import ViewCompiler.Convert.Targets
import ViewCompiler.Proofs.Layout.Said
import ViewCompiler.Proofs.Resource.StyleUse
import ViewCompiler.Proofs.SortedMap
import ViewCompiler.Proofs.Template.AndroidAttributes
import ViewCompiler.Proofs.Template.Markup
import ViewCompiler.Resource.Tables

/-!
# Attributes and styles are given to the nodes

The nodes in the output get their attributes one after another, and each stores its values in the
store that the ones before have left. `Context.attributed_foldl` says what has come of it at the
end: the store has answered the requests of all nodes in order, and the texts of every node say its
attributes in this store. Since no attributes are looked at while others are given, all of them are
those of the tree at the beginning.

Attributes that elements have in common leave them for styles, and then each covered element gets a
reference. `Context.get?_share` says what that makes of a node. Its tag is written with the
attributes that it has kept and with a reference to a style, and from the tag and the table of
styles alone all attributes are read back: `Tag.own` are those of the tag itself
(`Dialect.StylesApart.own_tag`), and `Tag.inherited` those of its style with all ancestors
(`Dialect.StylesApart.inherited_tag`).
-/

namespace ViewCompiler

/-! ### Giving attributes -/

namespace Context

open ValueStore

/-- What has come of giving attributes to some nodes. -/
structure Attributed (d : Dialect) (ids : List NodeId) (c c' : Context) : Prop where
  bare : c'.tree.bare = c.tree.bare
  values : c'.values =
    (c.values.answerAll (ids.flatMap fun i ↦ requests (d.attributes c.tree i))).2
  others : ∀ i ∉ ids, c'.tree.get? i = c.tree.get? i
  /-- The texts of a node say its attributes. -/
  attributes : ∀ i ∈ ids, ∀ n, c'.tree.get? i = some n →
    ∃ texts, n.attributes = .ofList texts ∧ List.Forall₂
      (fun a b ↦ b.1 = a.1 ∧ c'.values.Says a.2 b.2) (d.attributes c.tree i) texts
  unstyled : c.tree.Unstyled → c'.tree.Unstyled

variable {d : Dialect}

/-- Reports after that change nothing of it. -/
theorem Attributed.of_eq {ids : List NodeId} {c c' c'' : Context} (h : Attributed d ids c c')
    (htree : c''.tree = c'.tree) (hvalues : c''.values = c'.values) : Attributed d ids c c'' := by
  refine ⟨?_, ?_, ?_, ?_, ?_⟩ <;> simp only [htree, hvalues]
  exacts [h.bare, h.values, h.others, h.attributes, h.unstyled]

theorem get?_finalize (c : Context) (id i : NodeId) :
    (c.finalize d id).tree.get? i = if id = i then (c.tree.get? i).map fun n ↦
      { n with attributes := (d.finalize c.tree id c.values).1 } else c.tree.get? i := by
  have hmodify := NodeTree.get?_modify c.tree id i fun n ↦
    { n with attributes := (d.finalize c.tree id c.values).1 }
  exact hmodify

theorem bare_finalize (c : Context) (id : NodeId) : (c.finalize d id).tree.bare = c.tree.bare :=
  NodeTree.bare_modify (fun _ ↦ by rfl) id

variable (d) in
/-- Giving attributes leaves the rest of the nodes as it is, and reports nothing. -/
theorem bare_finalizeAll (ids : List NodeId) (c : Context) :
    (ids.foldl (finalize d) c).tree.bare = c.tree.bare ∧
      (ids.foldl (finalize d) c).diagnostics = c.diagnostics :=
  List.foldlRecOn (motive := fun c' : Context ↦ c'.tree.bare = c.tree.bare ∧
    c'.diagnostics = c.diagnostics) ids (finalize d) ⟨rfl, rfl⟩
    fun c' hc id _ ↦ ⟨(bare_finalize c' id).trans hc.1, hc.2⟩

theorem values_finalize (c : Context) (id : NodeId) :
    (c.finalize d id).values = (c.values.answerAll (requests (d.attributes c.tree id))).2 :=
  c.values.referAll_eq_answerAll (d.attributes c.tree id)

/-- **Nodes get their attributes** one after another. -/
theorem attributed_foldl (hd : d.OnBare) {ids : List NodeId} (hnodup : ids.Nodup) (c : Context) :
    Attributed d ids c (ids.foldl (finalize d) c) := by
  induction ids generalizing c with
  | nil =>
    exact ⟨rfl, rfl, fun _ _ ↦ rfl, fun i hi ↦ absurd hi List.not_mem_nil, id⟩
  | cons id r ih =>
    obtain ⟨hid, hr⟩ := List.nodup_cons.1 hnodup
    have hrest := ih hr (c.finalize d id)
    -- what the others get is still what the tree at the beginning says
    have hsame : ∀ i, d.attributes (c.finalize d id).tree i = d.attributes c.tree i := fun i ↦ by
      rw [← hd.attributes, bare_finalize, hd.attributes]
    refine ⟨hrest.bare.trans (bare_finalize c id), ?_, fun i hi ↦ ?_, fun i hi n hn ↦ ?_,
      fun h ↦ hrest.unstyled (h.modify (fun _ ↦ by rfl) id)⟩
    · rw [List.foldl_cons, hrest.values, List.flatMap_cons, answerAll_append, values_finalize]
      simp only [hsame]
    · rw [List.mem_cons, not_or] at hi
      rw [List.foldl_cons, hrest.others i hi.2, get?_finalize, if_neg (Ne.symm hi.1)]
    · rcases List.mem_cons.1 hi with rfl | hi
      · rw [List.foldl_cons, hrest.others i hid, get?_finalize, if_pos rfl] at hn
        obtain ⟨m, -, rfl⟩ := Option.map_eq_some_iff.1 hn
        refine ⟨_, rfl, (c.values.says_referAll (d.attributes c.tree i)).imp fun a b hsaid ↦
          ⟨hsaid.1, hsaid.2.extends ?_⟩⟩
        rw [List.foldl_cons, hrest.values]
        exact Extends.answerAll _ _
      · exact hsame i ▸ hrest.attributes i hi n hn

end Context

open Sharing

/-! ### Reading tags with styles -/

/-- The attributes of a tag but for a reference to a style. -/
def Tag.own (g : Tag) : List (String × String) := g.attributes.filter fun a ↦ a.1 ≠ "style"

/-- The attributes that a tag gets from styles: from each that it refers to and from all ancestors
of that. -/
def Tag.inherited (styles : List StyleEntry) (g : Tag) : List (String × String) :=
  (styles.filter fun e ↦ ("style", ValueStore.reference "style" e.name) ∈ g.attributes).flatMap
    fun e ↦ ((Sharing.mk styles .empty .empty).chain e.name).flatMap StyleEntry.attributes

/-! ### Tables in the order of names -/

namespace ResourceTables

theorem perm_sorted {V : Type} (l : List (String × V)) :
    ((sorted l).map Prod.fst).Perm (l.map Prod.fst) :=
  (perm_stableSort _ _).map _

theorem perm_names {V : Type} (t : Table V) : ((sorted t.pairs).map Prod.fst).Perm t.names := by
  refine (perm_sorted _).trans (.of_eq ?_)
  rw [Table.pairs, List.map_map]
  rfl

theorem perm_colors (t : Table Color) :
    ((sorted (t.pairs.map fun (n, c) ↦ (n, c.hex))).map Prod.fst).Perm t.names := by
  refine (perm_sorted _).trans (.of_eq ?_)
  rw [Table.pairs, List.map_map, List.map_map]
  rfl

theorem perm_styles (store : ValueStore) (styles : List StyleEntry) :
    (collect store styles).styles.Perm styles :=
  perm_stableSort _ _

end ResourceTables

/-! ### Look-up in a table -/

namespace Sharing

/-- Where names differ, the order of styles does not matter for the look-up. -/
theorem named?_perm {styles styles' : List StyleEntry} (hperm : styles'.Perm styles)
    (hnodup : (styles.map StyleEntry.name).Nodup) {name : String} {e : StyleEntry}
    (h : named? styles name = some e) : named? styles' name = some e := by
  have hname : e.name = name := by simpa using List.find?_some h
  obtain ⟨e', he'⟩ : ∃ e', named? styles' name = some e' := by
    refine Option.isSome_iff_exists.1 (List.find?_isSome.2 ⟨e, ?_, by simpa using hname⟩)
    exact hperm.mem_iff.2 (mem_of_named? h)
  have hname' : e'.name = name := by simpa using List.find?_some he'
  rw [he', List.inj_on_of_nodup_map hnodup (hperm.mem_iff.1 (mem_of_named? he')) (mem_of_named? h)
    (hname'.trans hname.symm)]

theorem Lineage.perm {styles styles' : List StyleEntry} (hperm : styles'.Perm styles)
    (hnodup : (styles.map StyleEntry.name).Nodup) {name : String} {l : List StyleEntry}
    (h : Lineage styles name l) : Lineage styles' name l := by
  induction h with
  | last found orphan => exact .last (named?_perm hperm hnodup found) orphan
  | cons found child _ ih => exact .cons (named?_perm hperm hnodup found) child ih

/-- **What an element had** is what it keeps and what the styles of its lineage have. -/
theorem perm_entries {config : SharingConfig} {members : List Member}
    (hnodup : (members.map Member.id).Nodup) {m : Member} (hm : m ∈ members) :
    ∃ l, LeadsTo (ofMembers config members).styles
        ((ofMembers config members).assignments.get? m.id) l ∧
      m.attributes.entries.Perm (((ofMembers config members).keptBy m).entries ++
        l.flatMap StyleEntry.attributes) := by
  obtain ⟨remaining, l, hleads, hmoved⟩ := shared_ofMembers config hnodup hm
  generalize ofMembers config members = s at hleads hmoved
  have hkeys : (l.flatMap StyleEntry.attributes).map Prod.fst = keysOf l := List.map_flatMap
  have hremoved : ∀ {k}, k ∈ keysOf l → k ∈ s.removedFrom m.id := fun hk ↦ (hmoved.removed _).2 hk
  refine ⟨l, hleads, ?_⟩
  -- no attribute comes twice on either side, so that it is enough to look at each
  refine (List.perm_ext_iff_of_nodup m.attributes.nodup_keys.of_map ?_).2 fun ⟨k, v⟩ ↦ ?_
  · refine (s.keptBy m).nodup_keys.of_map.append ?_ fun ⟨k, v⟩ hkept hin ↦ ?_
    · exact List.Nodup.of_map (f := Prod.fst) (hkeys ▸ hmoved.once)
    · have hget := SortedMap.mem_entries_iff.1 hkept
      have hk : k ∈ keysOf l := hkeys ▸ List.mem_map_of_mem hin
      rw [get?_keptBy, if_pos (hremoved hk)] at hget
      exact absurd hget (by simp)
  · rw [List.mem_append, SortedMap.mem_entries_iff, SortedMap.mem_entries_iff, List.mem_flatMap]
    exact hmoved.get?_eq_some_iff k v

end Sharing

/-! ### Nodes -/

/-- A node without some attributes. -/
def Node.without (names : List String) (n : Node) : Node :=
  { n with attributes := names.foldl SortedMap.erase n.attributes }

/-- A node that refers to a style. -/
def Node.withStyle (style : String) (n : Node) : Node := { n with styleRef := some style }

namespace Context

/-- The elements that share attributes: those that have any. -/
def members (d : Dialect) (rendered : List NodeId) (c : Context) : List Member :=
  ((c.tree.lookup rendered).filter fun n ↦ !n.attributes.isEmpty).map fun n ↦
    ⟨n.id, d.elementTag c.tree n, n.attributes⟩

/-- The styles of some elements. -/
def sharing (d : Dialect) (config : SharingConfig) (rendered : List NodeId) (c : Context) :
    Sharing :=
  ofMembers config (c.members d rendered)

variable {d : Dialect} {config : SharingConfig} {rendered : List NodeId} {c : Context}

theorem mem_members {m : Member} : m ∈ c.members d rendered ↔ ∃ i ∈ rendered, ∃ n,
    c.tree.get? i = some n ∧ n.attributes.isEmpty = false ∧
      m = ⟨i, d.elementTag c.tree n, n.attributes⟩ := by
  simp only [members, NodeTree.lookup, List.mem_map, List.mem_filter, List.mem_filterMap,
    Bool.not_eq_true']
  constructor
  · rintro ⟨n, ⟨⟨i, hi, hn⟩, hne⟩, rfl⟩
    exact ⟨i, hi, n, hn, hne, by rw [NodeTree.id_of_get? hn]⟩
  · rintro ⟨i, hi, n, hn, hne, rfl⟩
    exact ⟨n, ⟨⟨i, hi, hn⟩, hne⟩, by rw [NodeTree.id_of_get? hn]⟩

theorem map_id_lookup (t : NodeTree) (ids : List NodeId) :
    (t.lookup ids).map Node.id = ids.filter fun i ↦ (t.get? i).isSome := by
  induction ids with
  | nil => rfl
  | cons i r ih =>
    rw [NodeTree.lookup, List.filterMap_cons, List.filter_cons, ← ih]
    cases hn : t.get? i with
    | none => rfl
    | some n =>
      rw [← NodeTree.id_of_get? hn]
      rfl

theorem nodup_members (hnodup : rendered.Nodup) :
    ((c.members d rendered).map Member.id).Nodup := by
  rw [members, List.map_map]
  refine List.Nodup.sublist (List.filter_sublist.map _) ?_
  rw [show Member.id ∘ (fun n ↦ ⟨n.id, d.elementTag c.tree n, n.attributes⟩) = Node.id from rfl,
    map_id_lookup]
  exact hnodup.filter _

/-- **Changes to different nodes**, one after another. -/
theorem get?_foldl_modifyNode {β : Type} {f : β → Node → Node} (hf : ∀ b n, (f b n).id = n.id)
    (m : SortedMap NodeId β) (c : Context) (i : NodeId) :
    (m.entries.foldl (fun c e ↦ c.modifyNode e.1 (f e.2)) c).tree.get? i =
      (c.tree.get? i).map fun n ↦ ((m.get? i).map fun b ↦ f b n).getD n := by
  have hnodup := m.nodup_keys
  rw [SortedMap.get?]
  generalize m.entries = l at hnodup
  induction l generalizing c with
  | nil => simp [SortedMap.lookup]
  | cons e r ih =>
    obtain ⟨k, b⟩ := e
    rw [List.map_cons, List.nodup_cons] at hnodup
    rw [List.foldl_cons, ih _ hnodup.2]
    have hstep : (c.modifyNode k (f b)).tree.get? i =
        if k = i then (c.tree.get? i).map (f b) else c.tree.get? i := by
      refine (NodeTree.get?_modify c.tree k i (f b)).trans ?_
      split
      · refine congrArg (Option.map · (c.tree.get? i)) (funext fun n ↦ ?_)
        rw [← hf b n]
      · rfl
    rw [hstep, SortedMap.lookup]
    by_cases hk : k = i
    · subst hk
      have hnone : SortedMap.lookup k r = none := SortedMap.lookup_eq_none_iff.2 fun e he heq ↦
        hnodup.1 (List.mem_map.2 ⟨e, he, heq⟩)
      rw [if_pos rfl, hnone, if_pos (Std.LawfulEqCmp.compare_eq_iff_eq.2 rfl), Option.map_map]
      rfl
    · rw [if_neg hk, if_neg fun heq ↦ hk (Std.LawfulEqCmp.compare_eq_iff_eq.1 heq).symm]

variable (d config rendered c) in
/-- A node loses the attributes of its styles, and refers to the narrowest of them. -/
theorem get?_share (i : NodeId) : (c.share d config rendered).2.tree.get? i =
    (c.tree.get? i).map fun n ↦ { n with
      attributes := ((c.sharing d config rendered).removedFrom i).foldl SortedMap.erase n.attributes
      styleRef := ((c.sharing d config rendered).assignments.get? i).or n.styleRef } := by
  have hassigned := get?_foldl_modifyNode (f := Node.withStyle) (fun _ _ ↦ rfl)
    (c.sharing d config rendered).assignments ((c.sharing d config rendered).removals.entries.foldl
      (fun c e ↦ c.modifyNode e.1 (Node.without e.2)) c) i
  rw [get?_foldl_modifyNode (f := Node.without) fun _ _ ↦ rfl] at hassigned
  refine hassigned.trans ?_
  rw [Option.map_map]
  refine congrArg (Option.map · (c.tree.get? i)) (funext fun n ↦ ?_)
  rw [removedFrom, SortedMap.getD, Function.comp_apply]
  cases (c.sharing d config rendered).removals.get? i <;>
    cases (c.sharing d config rendered).assignments.get? i <;> rfl

/-- What outlasts changes to attributes and styles. -/
theorem share_keeps {P : Context → Prop}
    (hP : ∀ (c : Context) i f, (∀ n, (f n).bare = n.bare) → P c → P (c.modifyNode i f)) (hc : P c) :
    P (c.share d config rendered).2 := by
  have hall : ∀ {β : Type} {f : β → Node → Node}, (∀ b n, (f b n).bare = n.bare) →
      ∀ (l : List (NodeId × β)) {c : Context}, P c →
        P (l.foldl (fun c e ↦ c.modifyNode e.1 (f e.2)) c) := fun hf l _ hc ↦
    List.foldlRecOn l _ hc fun c hc e _ ↦ hP c e.1 _ (hf e.2) hc
  have hremoved := hall (f := Node.without) (fun _ _ ↦ rfl)
    (c.sharing d config rendered).removals.entries hc
  exact hall (f := Node.withStyle) (fun _ _ ↦ rfl)
    (c.sharing d config rendered).assignments.entries hremoved

variable (d config rendered c) in
theorem bare_share : (c.share d config rendered).2.tree.bare = c.tree.bare :=
  share_keeps (P := fun c' ↦ c'.tree.bare = c.tree.bare)
    (fun _ i _ hf h ↦ (NodeTree.bare_modify hf i).trans h) rfl

variable (d config rendered c) in
theorem values_share : (c.share d config rendered).2.values = c.values :=
  share_keeps (P := fun c' ↦ c'.values = c.values) (fun _ _ _ _ h ↦ h) rfl

variable (d config rendered c) in
theorem diagnostics_share : (c.share d config rendered).2.diagnostics = c.diagnostics :=
  share_keeps (P := fun c' ↦ c'.diagnostics = c.diagnostics) (fun _ _ _ _ h ↦ h) rfl

/-- **A node's attributes** are those that it keeps and those of the styles that it refers to. -/
theorem exists_split (hnodup : rendered.Nodup) (hunstyled : c.tree.Unstyled) {i : NodeId}
    (hi : i ∈ rendered) {n n' : Node} (hn : c.tree.get? i = some n)
    (hn' : (c.share d config rendered).2.tree.get? i = some n') :
    ∃ l, LeadsTo (c.sharing d config rendered).styles n'.styleRef l ∧
      n.attributes.entries.Perm (n'.attributes.entries ++ l.flatMap StyleEntry.attributes) := by
  rw [get?_share, hn, Option.map_some, Option.some.injEq] at hn'
  have hids := c.nodup_members (d := d) hnodup
  rw [← hn', hunstyled i n hn, Option.or_none]
  cases hempty : n.attributes.isEmpty with
  | false =>
    exact perm_entries (m := ⟨i, d.elementTag c.tree n, n.attributes⟩) hids
      (mem_members.2 ⟨i, hi, n, hn, hempty, rfl⟩)
  | true =>
    -- without attributes it has not been given to the sharing
    have hout : i ∉ (c.members d rendered).map Member.id := fun hmem ↦ by
      obtain ⟨m, hm, rfl⟩ := List.mem_map.1 hmem
      obtain ⟨j, -, n', hn', hne, heq⟩ := mem_members.1 hm
      rw [heq] at hn
      rw [Option.some.inj (hn'.symm.trans hn), hempty] at hne
      exact absurd hne (by simp)
    obtain ⟨hremovals, hassignments⟩ := untouched_ofMembers config hids hout
    refine ⟨[], ?_, ?_⟩
    · rw [sharing, hassignments]
      rfl
    · rw [sharing, removedFrom, SortedMap.getD, hremovals]
      simp

end Context

/-! ### Tags -/

namespace Sharing

theorem filter_name_eq {styles : List StyleEntry} (hnodup : (styles.map StyleEntry.name).Nodup)
    {e : StyleEntry} (he : e ∈ styles) : styles.filter (fun e' ↦ e'.name = e.name) = [e] := by
  induction styles with
  | nil => exact absurd he List.not_mem_nil
  | cons a r ih =>
    rw [List.map_cons, List.nodup_cons] at hnodup
    rw [List.filter_cons]
    rcases List.mem_cons.1 he with rfl | he
    · have hnone : r.filter (fun e' ↦ e'.name = e.name) = [] :=
        List.filter_eq_nil_iff.2 fun e' he' heq ↦
          hnodup.1 (List.mem_map.2 ⟨e', he', of_decide_eq_true heq⟩)
      rw [hnone, if_pos (by simp)]
    · have hne : a.name ≠ e.name := fun heq ↦ hnodup.1 (heq ▸ List.mem_map_of_mem he)
      rw [ih hnodup.2 he, if_neg (by simpa using hne)]

end Sharing

/-- A dialect in which attributes other than the reference to a style have other names. -/
structure Dialect.StylesApart (d : Dialect) (n : Node) : Prop where
  styleAttribute : d.styleAttribute = "style"
  root : ∀ a ∈ d.rootAttributes, a.1 ≠ "style"
  attributes : ∀ a ∈ n.attributes.entries, a.1 ≠ "style"

namespace Dialect.StylesApart

variable {d : Dialect} {n : Node} (h : d.StylesApart n)

include h

theorem mem_attributes_iff (t : NodeTree) (first : Bool) (name : String) :
    ("style", ValueStore.reference "style" name) ∈ (d.tag t first n).attributes ↔
      n.styleRef = some name := by
  have hroot : ∀ text, ("style", text) ∉ (if first then d.rootAttributes else []) :=
    fun text hmem ↦ by
      split at hmem
      · exact h.root _ hmem rfl
      · exact absurd hmem List.not_mem_nil
  have hown : ∀ text, ("style", text) ∉ n.attributes.entries := fun text hmem ↦
    h.attributes _ hmem rfl
  rw [Dialect.tag, writtenAttributes, List.mem_append, List.mem_append, or_iff_left (hown _),
    or_iff_right (hroot _), h.styleAttribute, List.mem_map]
  constructor
  · rintro ⟨style, hstyle, heq⟩
    have htext : "@style/" ++ style = "@style/" ++ name := (Prod.mk.inj heq).2
    rw [String.append_right_inj] at htext
    exact htext ▸ Option.mem_toList.1 hstyle
  · exact fun hname ↦ ⟨name, Option.mem_toList.2 hname, rfl⟩

theorem own_tag (t : NodeTree) (first : Bool) : (d.tag t first n).own =
    (if first then d.rootAttributes else []) ++ n.attributes.entries := by
  have hroot : (if first then d.rootAttributes else []).filter (fun a ↦ a.1 ≠ "style") =
      if first then d.rootAttributes else [] := List.filter_eq_self.2 fun a ha ↦ by
    split at ha
    · exact decide_eq_true (h.root a ha)
    · exact absurd ha List.not_mem_nil
  have hown : n.attributes.entries.filter (fun a ↦ a.1 ≠ "style") = n.attributes.entries :=
    List.filter_eq_self.2 fun a ha ↦ decide_eq_true (h.attributes a ha)
  have hstyle : (n.styleRef.toList.map fun style ↦
      (d.styleAttribute, "@style/" ++ style)).filter (fun a ↦ a.1 ≠ "style") = [] :=
    List.filter_eq_nil_iff.2 fun a ha ↦ by
      obtain ⟨style, -, rfl⟩ := List.mem_map.1 ha
      simp [h.styleAttribute]
  rw [Tag.own, Dialect.tag, writtenAttributes, List.filter_append, List.filter_append, hroot, hown,
    hstyle, List.append_nil]

/-- **What a tag gets from styles** is what the lineage of its style has. -/
theorem inherited_tag {s styles : List StyleEntry} (hperm : styles.Perm s)
    (hnodup : (s.map StyleEntry.name).Nodup) {l : List StyleEntry} (hl : LeadsTo s n.styleRef l)
    (t : NodeTree) (first : Bool) :
    (d.tag t first n).inherited styles = l.flatMap StyleEntry.attributes := by
  rw [Tag.inherited]
  simp only [h.mem_attributes_iff]
  cases hstyle : n.styleRef with
  | none =>
    rw [hstyle] at hl
    rw [show l = [] from hl]
    simp
  | some name =>
    rw [hstyle] at hl
    obtain ⟨hlineage, hnames⟩ := hl
    have hlineage' := hlineage.perm hperm hnodup
    obtain ⟨e, he, rfl⟩ := List.mem_map.1 hlineage'.mem_names
    have hnodup' : (styles.map StyleEntry.name).Nodup :=
      (hperm.map StyleEntry.name).nodup_iff.2 hnodup
    have hfilter : styles.filter (fun e' ↦ some e.name = some e'.name) = [e] := by
      rw [← filter_name_eq hnodup' he]
      exact List.filter_congr fun e' _ ↦ by simp [eq_comm]
    rw [hfilter, List.flatMap_singleton, Lineage.chain_eq hlineage' hnames]

end Dialect.StylesApart

end ViewCompiler
