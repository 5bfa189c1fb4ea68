import ViewCompiler.Proofs.Resource.Rounds

/-!
# Sharing loses nothing

Sharing moves attributes from elements into styles and changes none of them: what an element keeps,
together with the styles that it refers to, is what it had (`Sharing.lossless`).

The tags are worked on one after another, and `Sharing.Shared` is what holds between two of them:
the elements of the tags that are done are split between what they keep and their styles, and
nothing is known of any other. An element has one tag and the ids differ, so no two tags have an
element in common (`Sharing.nodup_groups`), and the work on a tag starts from elements that have no
style and have lost nothing (`Sharing.Shared.inRound`).
-/

namespace ViewCompiler

namespace Sharing

/-! ### The elements of each tag -/

/-- **The groups are those of the tags that there are**, each with all its elements, sorted. -/
theorem mem_groups_iff {members : List Member} {tag : String} {group : List Member} :
    (tag, group) ∈ groups members ↔ (∃ m ∈ members, m.tag = tag) ∧
      group = stableSort (fun a b ↦ a.id ≤ b.id) (members.filter fun m ↦ m.tag = tag) := by
  constructor
  · intro h
    obtain ⟨⟨_, items⟩, hmem, heq⟩ := List.mem_map.1 h
    obtain ⟨rfl, rfl⟩ := Prod.mk.inj heq
    obtain ⟨htag, hitems⟩ := (SortedMap.mem_foldl_group_iff Member.tag id).1 hmem
    rw [hitems, List.map_id]
    exact ⟨htag, rfl⟩
  · rintro ⟨htag, rfl⟩
    refine List.mem_map.2 ⟨_, (SortedMap.mem_foldl_group_iff Member.tag id).2 ⟨htag, rfl⟩, ?_⟩
    rw [List.map_id]

theorem perm_of_mem_groups {members : List Member} {e : String × List Member}
    (h : e ∈ groups members) : e.2.Perm (members.filter fun m ↦ m.tag = e.1) := by
  rw [(mem_groups_iff.1 h).2]
  exact perm_stableSort _ _

theorem tag_of_mem_groups {members : List Member} {e : String × List Member}
    (h : e ∈ groups members) {m : Member} (hm : m ∈ e.2) : m ∈ members ∧ m.tag = e.1 := by
  simpa using (perm_of_mem_groups h).mem_iff.1 hm

/-- Every element is in the group of its tag. -/
theorem exists_mem_groups {members : List Member} {m : Member} (hm : m ∈ members) :
    ∃ e ∈ groups members, m ∈ e.2 :=
  ⟨(m.tag, _), mem_groups_iff.2 ⟨⟨m, hm, rfl⟩, rfl⟩, by simpa using hm⟩

theorem nodup_tags (members : List Member) : ((groups members).map Prod.fst).Nodup := by
  rw [groups, List.map_map]
  exact SortedMap.nodup_keys _

/-- **No two tags have an element in common.** -/
theorem nodup_groups {members : List Member} (hnodup : (members.map Member.id).Nodup) :
    (((groups members).flatMap Prod.snd).map Member.id).Nodup := by
  rw [List.map_flatMap, List.nodup_flatMap]
  refine ⟨fun e he ↦ ?_, ?_⟩
  · have hperm := (perm_of_mem_groups he).map Member.id
    exact hperm.nodup_iff.2 (hnodup.sublist (List.filter_sublist.map _))
  · refine (List.pairwise_map.1 (nodup_tags members)).imp_of_mem fun {e e'} he he' hne ↦ ?_
    intro id hid hid'
    obtain ⟨m, hm, rfl⟩ := List.mem_map.1 hid
    obtain ⟨m', hm', hsame⟩ := List.mem_map.1 hid'
    obtain ⟨hm, htag⟩ := tag_of_mem_groups he hm
    obtain ⟨hm', htag'⟩ := tag_of_mem_groups he' hm'
    obtain rfl := List.inj_on_of_nodup_map hnodup hm' hm hsame
    exact hne (htag.symm.trans htag')

/-! ### One tag after another -/

/-- What holds between two tags. -/
structure Shared (config : SharingConfig) (done : List Member) (taken : List String)
    (s : Sharing) : Prop where
  taken : ∀ e ∈ s.styles, e.name ∈ taken
  members : ∀ m ∈ done, ∃ remaining l, LeadsTo s.styles (s.assignments.get? m.id) l ∧
    Moved (shareable config m) remaining l (s.removals.get? m.id)
  untouched : ∀ id ∉ done.map Member.id,
    s.removals.get? id = none ∧ s.assignments.get? id = none

/-- Where the work on a tag starts. -/
def Progress.start (config : SharingConfig) (group : List Member) (taken : List String)
    (s : Sharing) : Progress :=
  ⟨.ofList (group.map fun m ↦ (m.id, shareable config m)), .empty, 0, taken, s⟩

/-- What is left of the work on a tag: the styles of its elements are recorded. -/
def Progress.conclude (p : Progress) : Sharing :=
  { p.result with assignments := p.result.assignments.insertAll p.tips.entries }

section Group

variable {config : SharingConfig} {done group : List Member} {taken : List String} {s : Sharing}

/-- **A tag is started with elements that have lost nothing.** -/
theorem Shared.inRound (h : Shared config done taken s) (hnodup : (group.map Member.id).Nodup)
    (hdisjoint : List.Disjoint (done.map Member.id) (group.map Member.id)) :
    InRound config group s (.start config group taken s) where
  taken := h.taken
  members m hm := by
    have hkeys : ((group.map fun m ↦ (m.id, shareable config m)).map Prod.fst).Nodup := by
      rw [List.map_map]
      exact hnodup
    refine ⟨shareable config m, [], ?_, rfl, ?_⟩
    · refine (SortedMap.get?_insertAll_eq_some_iff hkeys).2 (.inl ?_)
      exact List.mem_map.2 ⟨m, hm, rfl⟩
    · have hfresh : m.id ∉ done.map Member.id :=
        fun hdone ↦ hdisjoint hdone (List.mem_map.2 ⟨m, hm, rfl⟩)
      rw [Progress.start, (h.untouched m.id hfresh).1]
      exact Moved.refl _
  own id hid := by
    have hkeys : ((group.map fun m ↦ (m.id, shareable config m)).map Prod.fst).Nodup := by
      rw [List.map_map]
      exact hnodup
    obtain ⟨attributes, hattributes⟩ := Option.ne_none_iff_exists'.1 hid
    rcases (SortedMap.get?_insertAll_eq_some_iff hkeys).1 hattributes with hmem | ⟨-, hempty⟩
    · obtain ⟨m, hm, heq⟩ := List.mem_map.1 hmem
      exact List.mem_map.2 ⟨m, hm, (Prod.mk.inj heq).1⟩
    · exact absurd hempty (by simp)
  tips id hid := absurd (SortedMap.get?_empty id) hid
  styles := List.prefix_refl _
  removals _ _ := rfl
  assignments := rfl

/-- The references of a finished tag are added to those of the tags before. -/
theorem get?_insertAll_tips (tips : Tips) (assignments : SortedMap NodeId String) (id : NodeId) :
    (assignments.insertAll tips.entries).get? id =
      (tips.get? id).or (assignments.get? id) := by
  refine Option.ext fun name ↦ ?_
  rw [SortedMap.get?_insertAll_eq_some_iff tips.nodup_keys, SortedMap.mem_entries_iff,
    SortedMap.mem_keys_iff, Option.or_eq_some_iff]
  cases tips.get? id <;> simp

/-- An element of the tag refers to what the rounds say. -/
theorem get?_conclude {p : Progress} (h : Shared config done taken s)
    (hround : InRound config group s p)
    (hdisjoint : List.Disjoint (done.map Member.id) (group.map Member.id)) {id : NodeId}
    (hid : id ∈ group.map Member.id) : p.conclude.assignments.get? id = p.tips.get? id := by
  rw [Progress.conclude, get?_insertAll_tips, hround.assignments,
    (h.untouched id fun hdone ↦ hdisjoint hdone hid).2, Option.or_none]

/-- Any other element refers to what it has referred to, and loses nothing more. -/
theorem get?_conclude_of_not_mem {p : Progress} (hround : InRound config group s p) {id : NodeId}
    (hid : id ∉ group.map Member.id) :
    p.conclude.removals.get? id = s.removals.get? id ∧
      p.conclude.assignments.get? id = s.assignments.get? id := by
  have htip : p.tips.get? id = none := by
    by_contra hsome
    exact hid (hround.tips id hsome)
  refine ⟨hround.removals id hid, ?_⟩
  rw [Progress.conclude, get?_insertAll_tips, htip, Option.none_or, hround.assignments]

/-- **One more tag is done.** -/
theorem Shared.conclude {p : Progress} (h : Shared config done taken s)
    (hround : InRound config group s p)
    (hdisjoint : List.Disjoint (done.map Member.id) (group.map Member.id)) :
    Shared config (done ++ group) p.taken p.conclude := by
  refine ⟨hround.taken, fun m hm ↦ ?_, fun id hid ↦ ?_⟩
  · by_cases hg : m ∈ group
    · obtain ⟨remaining, l, -, hleads, hmoved⟩ := hround.members m hg
      rw [get?_conclude h hround hdisjoint (List.mem_map_of_mem hg)]
      exact ⟨remaining, l, hleads, hmoved⟩
    · have hdone : m ∈ done := (List.mem_append.1 hm).resolve_right hg
      have hother : m.id ∉ group.map Member.id :=
        fun hgroup ↦ hdisjoint (List.mem_map.2 ⟨m, hdone, rfl⟩) hgroup
      obtain ⟨remaining, l, hleads, hmoved⟩ := h.members m hdone
      obtain ⟨more, hmore⟩ := hround.styles
      have hkept := get?_conclude_of_not_mem hround hother
      rw [hkept.1, hkept.2, show p.conclude.styles = s.styles ++ more from hmore.symm]
      exact ⟨remaining, l, hleads.append more, hmoved⟩
  · rw [List.map_append, List.mem_append, not_or] at hid
    have hkept := get?_conclude_of_not_mem hround hid.2
    rw [hkept.1, hkept.2]
    exact h.untouched id hid.1

/-- **The work on one tag.** -/
theorem Shared.shareGroup (h : Shared config done taken s)
    (hnodup : (group.map Member.id).Nodup)
    (hdisjoint : List.Disjoint (done.map Member.id) (group.map Member.id)) (tag : String) :
    Shared config (done ++ group) (shareGroup config tag group taken s).1
      (shareGroup config tag group taken s).2 :=
  h.conclude ((h.inRound hnodup hdisjoint).promoteAll (baseOfTag tag) group.length _) hdisjoint

end Group

/-- Nothing is shared before the first tag. -/
theorem Shared.start (config : SharingConfig) : Shared config [] [] empty :=
  ⟨by simp [empty], by simp, fun _ _ ↦ ⟨rfl, rfl⟩⟩

/-- The work on a list of tags. -/
theorem Shared.foldl {config : SharingConfig} (gs : List (String × List Member)) :
    ∀ {done : List Member} {taken : List String} {s : Sharing},
      ((done ++ gs.flatMap Prod.snd).map Member.id).Nodup → Shared config done taken s →
      ∃ taken', Shared config (done ++ gs.flatMap Prod.snd) taken'
        (gs.foldl (fun acc e ↦ Sharing.shareGroup config e.1 e.2 acc.1 acc.2) (taken, s)).2 := by
  induction gs with
  | nil => intro done taken s _ h; exact ⟨taken, by simpa using h⟩
  | cons e r ih =>
    intro done taken s hnodup h
    rw [List.flatMap_cons, ← List.append_assoc] at hnodup ⊢
    have hfirst : ((done ++ e.2).map Member.id).Nodup :=
      hnodup.sublist ((List.sublist_append_left _ _).map _)
    rw [List.map_append, List.nodup_append'] at hfirst
    exact ih hnodup (h.shareGroup hfirst.2.1 hfirst.2.2 e.1)

/-- **The styles of a list of elements.** -/
theorem shared_ofMembers (config : SharingConfig) {members : List Member}
    (hnodup : (members.map Member.id).Nodup) {m : Member} (hm : m ∈ members) :
    ∃ remaining l, LeadsTo (ofMembers config members).styles
        ((ofMembers config members).assignments.get? m.id) l ∧
      Moved (shareable config m) remaining l ((ofMembers config members).removals.get? m.id) := by
  rw [ofMembers]
  split
  · obtain ⟨taken, hend⟩ := Shared.foldl (groups members) (nodup_groups hnodup) (.start config)
    obtain ⟨e, he, hmem⟩ := exists_mem_groups hm
    exact hend.members m (List.mem_flatMap.2 ⟨e, he, hmem⟩)
  · exact ⟨shareable config m, [], rfl, Moved.refl _⟩

/-! ### Nothing is added, dropped or overridden -/

/-- The styles of an element, the narrowest first. -/
def stylesOf (s : Sharing) (id : NodeId) : List StyleEntry :=
  ((s.assignments.get? id).map s.chain).getD []

/-- The attributes that an element loses. -/
def removedFrom (s : Sharing) (id : NodeId) : List String := s.removals.getD id []

/-- What an element keeps. -/
def keptBy (s : Sharing) (m : Member) : SortedMap String String :=
  (s.removedFrom m.id).foldl SortedMap.erase m.attributes

theorem get?_keptBy (s : Sharing) (m : Member) (k : String) :
    (s.keptBy m).get? k = if k ∈ s.removedFrom m.id then none else m.attributes.get? k := by
  rw [keptBy]
  generalize m.attributes = attributes
  induction s.removedFrom m.id generalizing attributes with
  | nil => simp
  | cons k' r ih =>
    rw [List.foldl_cons, ih, SortedMap.get?_erase]
    by_cases h : k = k' <;> simp [h]

theorem get?_shareable_eq_some_iff {config : SharingConfig} {m : Member} {k v : String} :
    (shareable config m).get? k = some v ↔
      m.attributes.get? k = some v ∧ config.excludes k = false := by
  rw [shareable, SortedMap.get?_filter, Option.filter_eq_some_iff, Bool.not_eq_true']

/-- **The styles of an element are the lineage that its reference leads to.** -/
theorem LeadsTo.stylesOf_eq {s : Sharing} {id : NodeId} {l : List StyleEntry}
    (h : LeadsTo s.styles (s.assignments.get? id) l) : s.stylesOf id = l := by
  rw [stylesOf]
  cases hname : s.assignments.get? id with
  | none => rw [hname] at h; exact h.symm
  | some name => rw [hname] at h; exact h.1.chain_eq h.2

/-- The look-up through the styles finds what the one style that has a name says. -/
theorem LeadsTo.exists_resolve {s : Sharing} {id : NodeId} {l : List StyleEntry}
    (h : LeadsTo s.styles (s.assignments.get? id) l) (honce : (keysOf l).Nodup) {e : StyleEntry}
    (he : e ∈ l) {k v : String} (hv : (k, v) ∈ e.attributes) :
    ∃ name, s.assignments.get? id = some name ∧ s.resolve? name k = some v := by
  cases hname : s.assignments.get? id with
  | none =>
    rw [hname] at h
    rw [show l = [] from h] at he
    exact absurd he List.not_mem_nil
  | some name =>
    rw [hname] at h
    refine ⟨name, rfl, ?_⟩
    rw [resolve?, h.1.chain_eq h.2]
    exact findSome?_lookup_eq honce he hv

/-- What an element had is what it keeps, together with its styles. -/
theorem Moved.get?_eq_some_iff {config : SharingConfig} {s : Sharing} {m : Member}
    {remaining : SortedMap String String} {l : List StyleEntry}
    (h : Moved (shareable config m) remaining l (s.removals.get? m.id)) (k v : String) :
    m.attributes.get? k = some v ↔
      (s.keptBy m).get? k = some v ∨ ∃ e ∈ l, (k, v) ∈ e.attributes := by
  have hvalue : ∀ {v e}, e ∈ l → (k, v) ∈ e.attributes → m.attributes.get? k = some v :=
    fun he hv ↦ (get?_shareable_eq_some_iff.1 ((h.split _ _).2 (.inr ⟨_, he, hv⟩))).1
  have hremoved : k ∈ s.removedFrom m.id ↔ k ∈ keysOf l := h.removed k
  rw [get?_keptBy]
  by_cases hk : k ∈ s.removedFrom m.id
  · obtain ⟨e, he, hke⟩ := mem_keysOf.1 (hremoved.1 hk)
    obtain ⟨⟨k', v'⟩, hv', rfl⟩ := List.mem_map.1 hke
    constructor
    · intro hv
      obtain rfl := Option.some.inj ((hvalue he hv').symm.trans hv)
      exact .inr ⟨e, he, hv'⟩
    · intro h
      rw [if_pos hk] at h
      obtain ⟨e', he', hv⟩ := h.resolve_left (by simp)
      exact hvalue he' hv
  · have hnone : ¬∃ e ∈ l, (k, v) ∈ e.attributes := by
      rintro ⟨e, he, hv⟩
      exact hk (hremoved.2 (mem_keysOf.2 ⟨e, he, List.mem_map.2 ⟨_, hv, rfl⟩⟩))
    rw [if_neg hk]
    simp [hnone]

/-- **Sharing loses nothing.** An element loses exactly the attributes that its styles carry. Each
of them is in one of its styles only, it could be shared, and the look-up through the styles finds
the value that the element had. An element without a style loses nothing, and what an element keeps
is, together with its styles, what it had. -/
theorem lossless (config : SharingConfig) (members : List Member)
    (hnodup : (members.map Member.id).Nodup) (m : Member) (hm : m ∈ members) :
    let s := ofMembers config members
    (∀ k, k ∈ s.removedFrom m.id ↔ ∃ e ∈ s.stylesOf m.id, k ∈ e.attributes.map Prod.fst) ∧
    (∀ k ∈ s.removedFrom m.id,
      ((s.stylesOf m.id).countP fun e ↦ (e.attributes.map Prod.fst).contains k) = 1 ∧
      (∃ v name, m.attributes.get? k = some v ∧ s.assignments.get? m.id = some name ∧
        s.resolve? name k = some v) ∧
      k ≠ "style" ∧ k ∉ config.excluded) ∧
    (s.assignments.get? m.id = none → s.removals.get? m.id = none) ∧
    ∀ k v, m.attributes.get? k = some v ↔
      (s.keptBy m).get? k = some v ∨ ∃ e ∈ s.stylesOf m.id, (k, v) ∈ e.attributes := by
  intro s
  obtain ⟨remaining, l, hleads, hmoved⟩ := shared_ofMembers config hnodup hm
  have hremoved : ∀ k, k ∈ s.removedFrom m.id ↔ k ∈ keysOf l := hmoved.removed
  rw [show s.stylesOf m.id = l from hleads.stylesOf_eq]
  refine ⟨fun k ↦ by rw [hremoved, mem_keysOf], fun k hk ↦ ?_, fun hnone ↦ ?_,
    hmoved.get?_eq_some_iff⟩
  · have hkeys := (hremoved k).1 hk
    obtain ⟨e, he, hke⟩ := mem_keysOf.1 hkeys
    obtain ⟨⟨k', v⟩, hv, rfl⟩ := List.mem_map.1 hke
    obtain ⟨horiginal, hexcludes⟩ :=
      get?_shareable_eq_some_iff.1 ((hmoved.split _ _).2 (.inr ⟨e, he, hv⟩))
    obtain ⟨name, hname, hresolve⟩ := hleads.exists_resolve hmoved.once he hv
    exact ⟨countP_eq_one hmoved.once hkeys, ⟨v, name, horiginal, hname, hresolve⟩,
      by simpa [SharingConfig.excludes] using hexcludes⟩
  · rw [show s.assignments.get? m.id = none from hnone] at hleads
    exact hmoved.untouched hleads

/-- Two texts that differ in what they say only. -/
def twoTexts : List Member :=
  [⟨0, "TextView", .ofList [("android:text", "one"), ("android:textColor", "#ffffff"),
    ("android:textSize", "12sp")]⟩,
  ⟨1, "TextView", .ofList [("android:text", "two"), ("android:textColor", "#ffffff"),
    ("android:textSize", "12sp")]⟩]

/-- The two texts get one style, which has what they lose and no more. -/
theorem lossless_twoTexts :
    (twoTexts.map Member.id).Nodup ∧ ∀ m ∈ twoTexts,
      (ofMembers .default twoTexts).removedFrom m.id = ["android:textColor", "android:textSize"] ∧
      ∀ k v, m.attributes.get? k = some v ↔
        ((ofMembers .default twoTexts).keptBy m).get? k = some v ∨
          ∃ e ∈ (ofMembers .default twoTexts).stylesOf m.id, (k, v) ∈ e.attributes := by
  have hnodup : (twoTexts.map Member.id).Nodup := by decide
  refine ⟨hnodup, fun m hm ↦ ⟨?_, (lossless .default twoTexts hnodup m hm).2.2.2⟩⟩
  have hid : m.id = 0 ∨ m.id = 1 := by
    have hmem : m.id ∈ twoTexts.map Member.id := List.mem_map.2 ⟨m, hm, rfl⟩
    simpa [twoTexts] using hmem
  rcases hid with h | h <;> rw [h] <;> decide +kernel

end Sharing

end ViewCompiler
