import ViewCompiler.Proofs.Template.Naming

/-!
# Members on a baseline

How the members of a container that aligns them are tied together is said three times, by different
parts of the program: classification marks the node whose baseline the others follow, a member
declares the name of its view, and the members that are tied to it refer to that name.
`Android.wired` says that these agree: every member has a name, every one but the marked one follows
the marked one, and every one but the first is at the end of the one before it.
-/

namespace ViewCompiler

open NodeTree

namespace Android

variable {slug : String → String}

/-! ### Values of attributes -/

section Lookup

/-- What is found is what is there, if no name comes twice. -/
theorem lookup_eq_some_iff {l : List Attribute} (hkeys : (l.map Prod.fst).Nodup) {key : String}
    {v : AttributeValue} : l.lookup key = some v ↔ (key, v) ∈ l := by
  have hmem : ∀ {w}, l.lookup key = some w → (key, w) ∈ l := fun hw ↦ by
    obtain ⟨before, later, rfl, -⟩ := List.lookup_eq_some_iff.1 hw
    exact List.mem_append_right _ List.mem_cons_self
  refine ⟨hmem, fun hv ↦ ?_⟩
  obtain ⟨w, hw⟩ := Option.isSome_iff_exists.1
    (List.lookup_isSome_iff.2 ⟨_, hv, beq_self_eq_true key⟩)
  have hpair := List.inj_on_of_nodup_map hkeys (hmem hw) hv rfl
  rw [hw, (Prod.mk.inj hpair).2]

variable {s : Screen} {t : NodeTree} {n : Node}

theorem Fits.lookup_eq_none {names : List String} {l : List Attribute} (h : Fits slug t n names l)
    {key : String} (hkey : key ∉ names) : l.lookup key = none := by
  rw [List.lookup_eq_none_iff]
  intro e he
  exact bne_iff_ne.2 fun heq ↦ hkey (heq ▸ h.names.subset (List.mem_map_of_mem he))

/-- What a view declares. -/
theorem lookup_id {name : String} (h : viewName? slug t n = some name) :
    (nodeAttributes slug s t n).lookup "android:id" = some (.plain ("@+id/" ++ name)) := by
  obtain ⟨rest, heq, -⟩ := exists_rest slug s t n
  rw [heq, List.lookup_append, h]
  rfl

/-- **What places a member** comes of its container only. -/
theorem lookup_placement {key : String} (hkey : key ∈ placementNames) {p : Node}
    (hparent : n.renderParent.bind t.get? = some p) :
    (nodeAttributes slug s t n).lookup key = (placement slug s t n p).lookup key := by
  have hnone : ∀ {names : List String} {l : List Attribute}, Fits slug t n names l →
      (∀ key ∈ placementNames, key ∉ names) → l.lookup key = none := fun h hnot ↦
    h.lookup_eq_none (hnot key hkey)
  have hid : ((viewName? slug t n).toList.map fun name ↦ plain "id" ("@+id/" ++ name)).lookup key =
      none :=
    hnone (.option fun name hname ↦ .single (.declaration hname)) (by decide)
  have hvisible : Fits slug t n ["android:visibility"]
      (if n.visible then [] else [plain "visibility" "invisible"]) :=
    .ite .nil (.text "android:visibility" (by decide))
  have halpha : Fits slug t n ["android:alpha"]
      (if n.style.opacity < 1 then [plain "alpha" n.style.opacity.text] else []) :=
    .ite (.number "android:alpha" (Scalar.within_text n.style.opacity)) .nil
  rw [nodeAttributes, hparent, Option.toList_some, List.flatMap_singleton]
  simp only [List.lookup_append]
  rw [hid, hnone (fits_width _) (by decide), hnone (fits_height _) (by decide),
    hnone fits_arrangement (by decide), hnone (.ite fits_content .nil) (by decide),
    hnone (.ite (.append fits_background fits_padding) .nil) (by decide),
    hnone (fits_view "labelFor" fun i hi ↦ .labelFor hi) (by decide),
    hnone hvisible (by decide), hnone halpha (by decide)]
  simp only [Option.none_or, Option.or_none]

/-- **A text that is written as it is** is in the set of attributes of a node, whatever is stored
for other attributes. -/
theorem get?_finalize {i : NodeId} {key : String} {v : Option String}
    (h : (attributes slug s t i).lookup key = v.map .plain) (values : ValueStore) :
    ((dialect slug s).finalize t i values).1.get? key = v := by
  have hkeys := nodup_keys_attributes slug s t i
  refine Option.ext fun text ↦ (ValueStore.get?_ofList_texts
    (values.says_referAll (attributes slug s t i)) hkeys key text).trans ⟨?_, fun hv ↦ ?_⟩
  · rintro ⟨w, hw, hsaid⟩
    have hlookup := (lookup_eq_some_iff hkeys).2 hw
    obtain ⟨text', rfl, rfl⟩ := Option.map_eq_some_iff.1 (h.symm.trans hlookup)
    rw [hsaid.unique (.plain text')]
  · subst v
    exact ⟨_, (lookup_eq_some_iff hkeys).1 h, .plain text⟩

end Lookup

/-! ### Names of members -/

/-- The name of a view that has one. -/
def nameOf (slug : String → String) (t : NodeTree) (i : NodeId) : String :=
  (nameAt? slug t i).getD ""

/-- A reference to a view that has a name. -/
theorem view_of_named {t : NodeTree} {i : NodeId} (h : (nameAt? slug t i).isSome) (key : String) :
    view slug t key (some i) = [plain key ("@id/" ++ nameOf slug t i)] := by
  obtain ⟨name, hname⟩ := Option.isSome_iff_exists.1 h
  rw [nameOf, hname, Option.getD_some]
  rw [nameAt?] at hname
  rw [view, Option.bind_some, hname]

/-- A reference is under one name. -/
theorem lookup_view_of_ne (t : NodeTree) {key name : String} (hkey : key ≠ "android:" ++ name)
    (target : Option NodeId) : (view slug t name target).lookup key = none := by
  rw [List.lookup_eq_none_iff]
  intro e he
  rw [view] at he
  split at he
  · rw [List.mem_singleton.1 he]
    exact bne_iff_ne.2 hkey
  · exact absurd he List.not_mem_nil

/-- **How members are tied together** that come out in some order, each with a set of attributes and
under its name: all others follow the baseline of one of them, and each is at the end of the one
before it. -/
structure Wired (sets : NodeId → SortedMap String String) (order : List NodeId) (anchor : NodeId)
    (name : NodeId → String) : Prop where
  declared : ∀ i ∈ order, (sets i).get? "android:id" = some ("@+id/" ++ name i)
  baseline : ∀ i ∈ order, (sets i).get? "android:layout_alignBaseline" =
    if i = anchor then none else some ("@id/" ++ name anchor)
  first : ∀ i, order.head? = some i → (sets i).get? "android:layout_toEndOf" = none
  next : ∀ k (h : k + 1 < order.length),
    (sets order[k + 1]).get? "android:layout_toEndOf" = some ("@id/" ++ name order[k])

/-- The member before another one, where none comes twice. -/
theorem previousIn_getElem {members : List NodeId} (h : members.Nodup) {k : Nat}
    (hk : k < members.length) :
    previousIn members members[k] = if k = 0 then none else members[k - 1]? := by
  have hindex : members.idxOf? members[k] = some k := List.idxOf?_eq_some_iff.2
    ⟨hk, rfl, fun j hj heq ↦ Nat.ne_of_lt hj ((h.getElem_inj_iff).1 heq)⟩
  rw [previousIn, hindex, Option.bind_some]

section Aligned

variable {t : NodeTree} {d : LayoutDecision} {anchor : NodeId} (h : d.AlignsIn t anchor)

include h

/-- A member is in a container that aligns it. -/
theorem exists_parent {i : NodeId} (hi : i ∈ d.outputOrder) : ∃ n p, t.get? i = some n ∧
    n.renderParent.bind t.get? = some p ∧ p.id = d.owner ∧ p.container = .relative := by
  have hparent := h.parent i hi
  have hcontainer := h.container
  obtain ⟨n, hn⟩ := exists_get? (lt_size_of_renderParent? hparent)
  rw [renderParent?, place_of_get? hn] at hparent
  cases hp : t.get? d.owner with
  | none =>
    rw [originOf, origin?, hp] at hcontainer
    exact absurd hcontainer (by decide)
  | some p =>
    rw [originOf_of_get? hp] at hcontainer
    refine ⟨n, p, hn, ?_, id_of_get? hp, hcontainer⟩
    rw [show n.renderParent = some d.owner from hparent, Option.bind_some, hp]

/-- So it has a name. -/
theorem isSome_nameAt? {i : NodeId} (hi : i ∈ d.outputOrder) : (nameAt? slug t i).isSome := by
  obtain ⟨n, p, hn, hp, -, hcontainer⟩ := exists_parent h hi
  have haligned : isAligned t n = true := by
    rw [isAligned, hp, Option.any_some, hcontainer]
    rfl
  rw [nameAt?_of_get? hn, viewName?_eq_or, haligned, Bool.true_or, if_pos rfl]
  cases (n.source? "id").bind (idName? slug) <;> rfl

/-- The other members follow the one that is marked. -/
theorem anchorIn_eq {i : NodeId} :
    anchorIn t d.outputOrder i = if i = anchor then none else some anchor := by
  have hmarked : ∀ j, ((t.get? j).any fun m ↦ m.flags.contains .baselineAnchor) =
      (t.originOf j).anchor := fun j ↦ by
    rw [originOf, origin?]
    cases t.get? j <;> rfl
  have hfind : (d.outputOrder.find? fun j ↦
      (t.get? j).any fun m ↦ m.flags.contains .baselineAnchor) = some anchor := by
    cases hfound : d.outputOrder.find? fun j ↦
        (t.get? j).any fun m ↦ m.flags.contains .baselineAnchor with
    | none =>
      have hnot := List.find?_eq_none.1 hfound anchor h.mem
      rw [hmarked] at hnot
      exact absurd ((h.marked anchor h.mem).2 rfl) hnot
    | some j =>
      have hj := List.find?_some hfound
      rw [hmarked] at hj
      rw [(h.marked j (List.mem_of_find?_eq_some hfound)).1 hj]
  rw [anchorIn, hfind]
  by_cases hi : i = anchor
  · simp [hi]
  · simp [hi, Ne.symm hi]

/-- **How a member is tied to the others.** -/
theorem lookup_alignment {i : NodeId} (hi : i ∈ d.outputOrder) (s : Screen) {key : String}
    (hkey : key ∈ placementNames) : (attributes slug s t i).lookup key =
    ((view slug t "layout_toEndOf" (previousIn d.outputOrder i)).lookup key).or
      ((view slug t "layout_alignBaseline"
        (if i = anchor then none else some anchor)).lookup key) := by
  obtain ⟨n, p, hn, hp, hid, hcontainer⟩ := exists_parent h hi
  have hplacement : placement slug s t n p = alignment slug t n p := by
    rw [placement, hcontainer]
  rw [attributes, hn]
  dsimp only
  rw [lookup_placement hkey hp, hplacement, alignment_eq (hid ▸ h.order), id_of_get? hn,
    anchorIn_eq h, List.lookup_append]

/-- **The members of a container that aligns them** are tied together as the decision says, in
whichever stores their values are. -/
theorem wired (s : Screen) (values : NodeId → ValueStore) :
    Wired (fun i ↦ ((dialect slug s).finalize t i (values i)).1) d.outputOrder anchor
      (nameOf slug t) where
  declared i hi := by
    obtain ⟨n, -, hn, -⟩ := exists_parent h hi
    obtain ⟨name, hname⟩ := Option.isSome_iff_exists.1 (isSome_nameAt? h hi)
    refine get?_finalize (v := some _) ?_ _
    rw [attributes, hn, nameOf, hname]
    exact lookup_id (nameAt?_of_get? hn ▸ hname)
  baseline i hi := by
    refine get?_finalize ?_ _
    rw [lookup_alignment h hi s (by decide), lookup_view_of_ne t (by decide), Option.none_or]
    by_cases heq : i = anchor
    · rw [if_pos heq, if_pos heq]
      rfl
    · rw [if_neg heq, if_neg heq, view_of_named (isSome_nameAt? h h.mem)]
      rfl
  first i hi := by
    obtain ⟨rest, horder⟩ := List.head?_eq_some_iff.1 hi
    have hprevious : previousIn d.outputOrder i = none := by
      rw [horder]
      simp [previousIn, List.idxOf?_cons]
    refine get?_finalize ?_ _
    rw [lookup_alignment h (List.mem_of_mem_head? hi) s (by decide), hprevious,
      lookup_view_of_ne t (by decide) (ite _ _ _), Option.or_none]
    rfl
  next k hk := by
    have hlt : k < d.outputOrder.length := Nat.lt_of_succ_lt hk
    have hprevious : previousIn d.outputOrder d.outputOrder[k + 1] = some d.outputOrder[k] := by
      rw [previousIn_getElem h.nodup hk, if_neg (Nat.succ_ne_zero k), Nat.add_sub_cancel,
        List.getElem?_eq_getElem hlt]
    refine get?_finalize (v := some _) ?_ _
    rw [lookup_alignment h (List.getElem_mem hk) s (by decide), hprevious,
      view_of_named (isSome_nameAt? h (List.getElem_mem hlt)),
      lookup_view_of_ne t (by decide) (ite _ _ _), Option.or_none]
    rfl

end Aligned

end Android

end ViewCompiler
