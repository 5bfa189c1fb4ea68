import ViewCompiler.Proofs.Resource.Ranking

/-!
# Nothing is left to share

The work on a tag ends when no candidate qualifies, and what that means for its elements is
`Sharing.Exhausted`. An attribute that an element keeps, although it could be shared, is its
residual (`Sharing.residual`). Elements that refer to the same style, or to none, are one part of
the holders of whatever they have in common, so

* no three of them have an attribute in common that is left on them;
* no two of them have two such attributes that are left on the same elements of the tag.

What all elements of a tag have in common is moved at once: in the first round no element refers to
a style, so the bundle of these attributes is a candidate as it is, and no other covers as many
elements (`Sharing.Worked.exists_first`). Later rounds put narrower styles in front of the first one
and take it from none of them.
-/

namespace ViewCompiler

namespace Sharing

/-- What an element keeps although it could be shared. -/
def residual (config : SharingConfig) (s : Sharing) (m : Member) : SortedMap String String :=
  (s.keptBy m).filter fun k _ ↦ !config.excludes k

/-- An attribute that all elements of a tag have and may share. -/
def Common (config : SharingConfig) (members : List Member) (tag : String)
    (pair : String × String) : Prop :=
  ∀ m ∈ members, m.tag = tag → (shareable config m).get? pair.1 = some pair.2

section Residual

variable {config : SharingConfig} {members : List Member} {s : Sharing} {m : Member}
  {pair : String × String}

theorem get?_residual_eq_some_iff : (residual config s m).get? pair.1 = some pair.2 ↔
    pair.1 ∉ s.removedFrom m.id ∧ (shareable config m).get? pair.1 = some pair.2 := by
  rw [residual, SortedMap.get?_filter, Option.filter_eq_some_iff, get?_keptBy,
    get?_shareable_eq_some_iff, Bool.not_eq_true']
  split <;> simp [*]

/-- **What is left on an element is what could be shared and has not been.** -/
theorem Work.Done.mem_holders_iff {w : Work} (h : w.Done config s) (hm : m ∈ w.group) :
    m.id ∈ holders w.last.remaining pair ↔
      (residual config s m).get? pair.1 = some pair.2 := by
  obtain ⟨remaining, l, hremaining, -, hmoved⟩ := h.inRound.members m hm
  have hremoved : pair.1 ∈ s.removedFrom m.id ↔ pair.1 ∈ keysOf l := by
    rw [removedFrom, SortedMap.getD, h.removals m.id (List.mem_map_of_mem hm)]
    exact hmoved.removed pair.1
  have hholds : m.id ∈ holders w.last.remaining pair ↔ remaining.get? pair.1 = some pair.2 := by
    rw [mem_holders]
    constructor
    · rintro ⟨attributes, hattributes, hpair⟩
      obtain rfl := Option.some.inj (hremaining.symm.trans hattributes)
      exact hpair
    · exact fun hpair ↦ ⟨remaining, hremaining, hpair⟩
  rw [hholds, get?_residual_eq_some_iff, hremoved, hmoved.split]
  constructor
  · exact fun hpair ↦ ⟨hmoved.apart pair.1 pair.2 hpair, .inl hpair⟩
  · rintro ⟨hkeys, hpair | ⟨e, he, hpair⟩⟩
    · exact hpair
    · exact absurd (mem_keysOf.2 ⟨e, he, List.mem_map_of_mem hpair⟩) hkeys

end Residual

/-- Only elements of the group hold anything. -/
theorem InRound.mem_group_of_holders {config : SharingConfig} {group : List Member}
    {start : Sharing} {p : Progress} (h : InRound config group start p) {pair : String × String}
    {id : NodeId} (hid : id ∈ holders p.remaining pair) : id ∈ group.map Member.id := by
  obtain ⟨attributes, hattributes, -⟩ := mem_holders.1 hid
  exact h.own id (by simp [hattributes])

/-! ### Elements of a tag that refer to the same style -/

section Part

variable {config : SharingConfig} {members : List Member} {works : List Work} {w : Work}
  {part : List Member} {pair pair' : String × String}

/-- Elements of one tag that refer to the same style, or to none. -/
structure SamePart (s : Sharing) (members : List Member) (tag : String) (part : List Member) :
    Prop where
  nodup : part.Nodup
  subset : part ⊆ members
  tag : ∀ m ∈ part, m.tag = tag
  assignment : ∀ m ∈ part, ∀ m' ∈ part, s.assignments.get? m.id = s.assignments.get? m'.id

/-- **What elements that refer to the same style have left in common is held by a part as large as
they are.** -/
theorem SamePart.length_le (h : SamePart (ofMembers config members) members w.tag part)
    (hworks : Worked config members works) (hnodup : (members.map Member.id).Nodup)
    (hw : w ∈ works) (hpair : ∀ m ∈ part,
      (residual config (ofMembers config members) m).get? pair.1 = some pair.2) :
    part.length ≤ (largestPart w.last.tips (holders w.last.remaining pair)).length := by
  have hdone := hworks.done w hw
  have hgroup : ∀ m ∈ part, m ∈ w.group := fun m hm ↦
    (hworks.mem_group_iff hw).2 ⟨h.subset hm, h.tag m hm⟩
  have hids : (part.map Member.id).Nodup := h.nodup.map_on fun m hm m' hm' heq ↦
    List.inj_on_of_nodup_map hnodup (h.subset hm) (h.subset hm') heq
  rw [← List.length_map Member.id]
  refine length_le_largestPart hids (fun id hid ↦ ?_) fun i hi j hj ↦ ?_
  · obtain ⟨m, hm, rfl⟩ := List.mem_map.1 hid
    exact (hdone.mem_holders_iff (hgroup m hm)).2 (hpair m hm)
  · obtain ⟨m, hm, rfl⟩ := List.mem_map.1 hi
    obtain ⟨m', hm', rfl⟩ := List.mem_map.1 hj
    rw [← hdone.assignments _ (List.mem_map_of_mem (hgroup m hm)),
      ← hdone.assignments _ (List.mem_map_of_mem (hgroup m' hm'))]
    exact h.assignment m hm m' hm'

/-- No attribute that is left qualifies. -/
theorem Work.Done.not_qualifies {s : Sharing} (h : w.Done config s) :
    ¬Qualifies w.last.remaining w.last.tips w.group.length pair := fun hq ↦ by
  obtain ⟨c, hbest, -⟩ := exists_best?_of_qualifies hq
  rw [h.rounds.ended] at hbest
  exact Option.some_ne_none c hbest.symm

theorem SamePart.length_le_two (h : SamePart (ofMembers config members) members w.tag part)
    (hworks : Worked config members works) (hnodup : (members.map Member.id).Nodup)
    (hw : w ∈ works) (hpair : ∀ m ∈ part,
      (residual config (ofMembers config members) m).get? pair.1 = some pair.2) :
    part.length ≤ 2 := by
  by_contra hmany
  exact (hworks.done w hw).not_qualifies (qualifies_of_three
    (Nat.lt_of_lt_of_le (Nat.not_le.1 hmany) (h.length_le hworks hnodup hw hpair)))

theorem SamePart.length_le_one (h : SamePart (ofMembers config members) members w.tag part)
    (hworks : Worked config members works) (hnodup : (members.map Member.id).Nodup)
    (hw : w ∈ works) (hne : pair ≠ pair') (hpair : ∀ m ∈ part,
      (residual config (ofMembers config members) m).get? pair.1 = some pair.2)
    (hsame : ∀ m ∈ members, m.tag = w.tag →
      ((residual config (ofMembers config members) m).get? pair.1 = some pair.2 ↔
        (residual config (ofMembers config members) m).get? pair'.1 = some pair'.2)) :
    part.length ≤ 1 := by
  by_contra hmany
  have hdone := hworks.done w hw
  have hholders : holders w.last.remaining pair = holders w.last.remaining pair' := by
    refine holders_congr fun id ↦ ?_
    by_cases hid : id ∈ w.group.map Member.id
    · obtain ⟨m, hm, rfl⟩ := List.mem_map.1 hid
      rw [hdone.mem_holders_iff hm, hdone.mem_holders_iff hm]
      obtain ⟨hmem, htag⟩ := (hworks.mem_group_iff hw).1 hm
      exact hsame m hmem htag
    · exact iff_of_false (fun h ↦ hid (hdone.inRound.mem_group_of_holders h))
        fun h ↦ hid (hdone.inRound.mem_group_of_holders h)
  exact hdone.not_qualifies (qualifies_of_two hne hholders
    (Nat.lt_of_lt_of_le (Nat.not_le.1 hmany) (h.length_le hworks hnodup hw hpair)))

end Part

/-! ### The first style of a tag -/

section First

variable {config : SharingConfig} {group : List Member} {start : Sharing} {p : Progress}

/-- Where no element refers to a style, all holders are one part. -/
theorem largestPart_eq_self {tips : Tips} (hnone : ∀ id, tips.get? id = none) {ids : List NodeId}
    (hnodup : ids.Nodup) : largestPart tips ids = ids :=
  (largestPart_sublist tips ids).eq_of_length_le
    (length_le_largestPart hnodup (List.Subset.refl ids) fun i _ j _ ↦ by rw [hnone i, hnone j])

/-- **In the first round** what all elements have is moved, if they have anything in common. -/
theorem InRound.exists_best?_of_common (h : InRound config group start p)
    (hnone : ∀ id, p.tips.get? id = none) (hnodup : (group.map Member.id).Nodup)
    (hmany : 1 < group.length) {pair : String × String}
    (hpair : ∀ m ∈ group, m.id ∈ holders p.remaining pair) :
    ∃ c, best? p.remaining p.tips group.length = some c ∧ (∀ m ∈ group, m.id ∈ c.coverage) ∧
      ∀ pair, pair ∈ c.attributes ↔ ∀ m ∈ group, m.id ∈ holders p.remaining pair := by
  have hpart : ∀ pair, largestPart p.tips (holders p.remaining pair) = holders p.remaining pair :=
    fun pair ↦ largestPart_eq_self hnone (nodup_holders _ pair)
  have hsub : ∀ pair, holders p.remaining pair ⊆ group.map Member.id :=
    fun _ _ hid ↦ h.mem_group_of_holders hid
  have hlength : (holders p.remaining pair).length = group.length := by
    rw [← List.length_map Member.id]
    refine Nat.le_antisymm (List.subperm_of_subset (nodup_holders _ pair) (hsub pair)).length_le ?_
    refine (List.subperm_of_subset hnodup fun id hid ↦ ?_).length_le
    obtain ⟨m, hm, rfl⟩ := List.mem_map.1 hid
    exact hpair m hm
  obtain ⟨c, hbest, hle⟩ := exists_best?_of_qualifies
    (qualifies_of_all hmany (by rw [hpart, hlength] : (largestPart p.tips _).length = _))
  rw [hpart, hlength] at hle
  obtain ⟨ids, hids, hcoverage, hattributes, hne⟩ := exists_of_best? hbest
  obtain ⟨first, hfirst⟩ := List.exists_mem_of_ne_nil _ hne
  have hholders : c.coverage = holders p.remaining first := by
    rw [coverage_of_best? hbest hfirst, hpart]
  -- no other elements can be covered, so all are
  have hall : ∀ m ∈ group, m.id ∈ c.coverage := fun m hm ↦ by
    have hperm := (List.subperm_of_subset (promotable_of_best? hbest).nodup_coverage
      (hholders ▸ hsub first)).perm_of_length_le (by rwa [List.length_map])
    exact hperm.mem_iff.2 (List.mem_map_of_mem hm)
  refine ⟨c, hbest, hall, fun pair' ↦ ⟨fun hmem m hm ↦ ?_, fun hall' ↦ ?_⟩⟩
  · have heq := coverage_of_best? hbest hmem
    rw [hpart] at heq
    exact heq ▸ hall m hm
  · have hne' : ids ≠ [] := List.ne_nil_of_length_pos (Nat.lt_trans Nat.one_pos hids)
    rw [hattributes, mem_withCarriers_carried hne'] at hfirst ⊢
    rw [← hfirst]
    refine holders_congr fun id ↦ ⟨fun hid ↦ ?_, fun hid ↦ ?_⟩
    · obtain ⟨m, hm, rfl⟩ := List.mem_map.1 (hsub _ hid)
      exact hholders ▸ hall m hm
    · obtain ⟨m, hm, rfl⟩ := List.mem_map.1 (hsub _ hid)
      exact hall' m hm

end First

namespace Worked

variable {config : SharingConfig} {members : List Member} {works : List Work} {w : Work}
  {pair : String × String}

theorem nodup_group (h : Worked config members works) (hnodup : (members.map Member.id).Nodup)
    (hw : w ∈ works) : (w.group.map Member.id).Nodup :=
  ((h.perm_group hw).map Member.id).nodup_iff.2 (hnodup.sublist (List.filter_sublist.map _))

/-- Before the work on a tag, its elements hold what can be shared. -/
theorem mem_holders_start_iff (h : Worked config members works) (hw : w ∈ works) {m : Member}
    (hm : m ∈ w.group) : m.id ∈ holders (Progress.start config w.group w.taken w.start).remaining
      pair ↔ (shareable config m).get? pair.1 = some pair.2 := by
  obtain ⟨remaining, l, hremaining, hleads, hmoved⟩ := (h.done w hw).begins.members m hm
  have htip : (Progress.start config w.group w.taken w.start).tips.get? m.id = none :=
    SortedMap.get?_empty m.id
  rw [htip] at hleads
  rw [hmoved.split, show l = [] from hleads, mem_holders, hremaining]
  simp

/-- **The first style of a tag** has what all elements of the tag have in common. -/
theorem exists_first (h : Worked config members works) (hnodup : (members.map Member.id).Nodup)
    (hw : w ∈ works) (hmany : 1 < w.group.length) (hpair : Common config members w.tag pair) :
    ∃ e rest, w.made = e :: rest ∧ e.parent = none ∧
      (∀ pair, pair ∈ e.attributes ↔ Common config members w.tag pair) ∧
      ∀ m ∈ members, m.tag = w.tag → e ∈ (ofMembers config members).stylesOf m.id := by
  have hdone := h.done w hw
  have hcommon : ∀ pair, (∀ m ∈ w.group, m.id ∈
      holders (Progress.start config w.group w.taken w.start).remaining pair) ↔
        Common config members w.tag pair := fun pair ↦ by
    constructor
    · intro hall m hm htag
      have hgroup := (h.mem_group_iff hw).2 ⟨hm, htag⟩
      exact (h.mem_holders_start_iff hw hgroup).1 (hall m hgroup)
    · intro hall m hm
      obtain ⟨hmem, htag⟩ := (h.mem_group_iff hw).1 hm
      exact (h.mem_holders_start_iff hw hm).2 (hall m hmem htag)
  have hnone : ∀ id, (Progress.start config w.group w.taken w.start).tips.get? id = none :=
    fun id ↦ SortedMap.get?_empty id
  obtain ⟨c, hbest, hall, hattributes⟩ := hdone.begins.exists_best?_of_common hnone
    (h.nodup_group hnodup hw) hmany ((hcommon pair).2 hpair)
  have hc := promotable_of_best? hbest
  obtain ⟨more, hranked⟩ := (hdone.rounds.next hbest).exists_ranked (hdone.begins.promote hc _)
    ((Ranked.initial w.taken).promote hdone.begins hbest _)
  refine ⟨_, more.map Prod.fst, (hdone.made_eq hranked).symm, ?_,
    fun pair ↦ (hattributes pair).trans (hcommon pair), fun m hm htag ↦ ?_⟩
  · obtain ⟨first, hfirst⟩ := hc.exists_covered
    rw [parent_newStyle hc _ hfirst, hnone]
  · have hgroup := (h.mem_group_iff hw).2 ⟨hm, htag⟩
    obtain ⟨l, hleads⟩ := hdone.inRound.exists_leads m.id
    rw [(hdone.leads (List.mem_map_of_mem hgroup) hleads).stylesOf_eq]
    exact ((hranked.lines m.id l hleads).2 _ (by simp)).2 (hall m hgroup)

end Worked

/-! ### The end of all work -/

/-- Nothing is left to share. -/
structure Exhausted (config : SharingConfig) (members : List Member) (s : Sharing) : Prop where
  /-- What all elements of a tag have in common is the first style of the tag. -/
  common : ∀ tag, 2 ≤ (members.filter fun m ↦ m.tag = tag).length →
    (∃ pair, Common config members tag pair) →
    ∃ e rest, s.stylesOfTag members tag = e :: rest ∧ e.parent = none ∧
      (∀ pair, pair ∈ e.attributes ↔ Common config members tag pair) ∧
      ∀ m ∈ members, m.tag = tag → e ∈ s.stylesOf m.id
  /-- Three elements that refer to the same style have nothing in common any more. -/
  three : ∀ tag part, SamePart s members tag part → ∀ pair : String × String,
    (∀ m ∈ part, (residual config s m).get? pair.1 = some pair.2) → part.length ≤ 2
  /-- Two that do have no two attributes in common that are left on the same elements. -/
  two : ∀ tag part, SamePart s members tag part → ∀ pair pair' : String × String, pair ≠ pair' →
    (∀ m ∈ part, (residual config s m).get? pair.1 = some pair.2) →
    (∀ m ∈ members, m.tag = tag → ((residual config s m).get? pair.1 = some pair.2 ↔
      (residual config s m).get? pair'.1 = some pair'.2)) → part.length ≤ 1

/-- **Sharing ends with nothing left to share.** The rounds on every tag come to an end without a
bound on them, and then no attribute qualifies any more. -/
theorem exhausted (config : SharingConfig) (henabled : config.enabled = true)
    {members : List Member} (hnodup : (members.map Member.id).Nodup) :
    (∃ taken, Runs config (groups members) [] empty taken (ofMembers config members)) ∧
      Exhausted config members (ofMembers config members) := by
  obtain ⟨works, hworks⟩ := exists_worked henabled hnodup
  -- elements of a tag are those of the work on it
  have hwork : ∀ {tag part n}, SamePart (ofMembers config members) members tag part →
      (∀ w ∈ works, SamePart (ofMembers config members) members w.tag part → w.tag = tag →
        part.length ≤ n) → part.length ≤ n := by
    intro tag part n hpart hle
    obtain - | ⟨m, r⟩ := part
    · exact Nat.zero_le n
    · obtain ⟨w, hw, htag⟩ := hworks.exists_mem (hpart.subset List.mem_cons_self)
      have htag : w.tag = tag := htag.trans (hpart.tag m List.mem_cons_self)
      exact hle w hw (htag ▸ hpart) htag
  refine ⟨runs_ofMembers henabled members, fun tag hmany ⟨pair, hpair⟩ ↦ ?_,
    fun tag part hpart pair hheld ↦ hwork hpart fun w hw hpart _ ↦
      hpart.length_le_two hworks hnodup hw hheld,
    fun tag part hpart pair pair' hne hheld hsame ↦ hwork hpart fun w hw hpart htag ↦
      hpart.length_le_one hworks hnodup hw hne hheld (htag ▸ hsame)⟩
  obtain ⟨m, hm⟩ := List.exists_mem_of_length_pos (Nat.lt_of_lt_of_le Nat.two_pos hmany)
  rw [List.mem_filter, decide_eq_true_eq] at hm
  obtain ⟨w, hw, htag⟩ := hworks.exists_mem hm.1
  obtain rfl : w.tag = tag := htag.trans hm.2
  rw [hworks.stylesOfTag_eq hnodup hw]
  exact hworks.exists_first hnodup hw ((hworks.perm_group hw).length_eq ▸ hmany) hpair

/-- What the three buttons have in common is their first style, and of what two of them have in
common nothing is left either. -/
theorem exhausted_threeButtons :
    SharingConfig.default.enabled = true ∧ (threeButtons.map Member.id).Nodup ∧
    (∃ taken, Runs .default (groups threeButtons) [] empty taken
      (ofMembers .default threeButtons)) ∧
    Exhausted .default threeButtons (ofMembers .default threeButtons) ∧
    ((ofMembers .default threeButtons).stylesOfTag threeButtons "Button").head? =
      some ⟨"Button", none, [("android:background", "#000000")]⟩ ∧
    threeButtons.map (fun m ↦ (residual .default (ofMembers .default threeButtons) m).entries) =
      [[], [], []] := by
  have hnodup : (threeButtons.map Member.id).Nodup := by decide
  obtain ⟨hruns, hexhausted⟩ := exhausted .default rfl hnodup
  exact ⟨rfl, hnodup, hruns, hexhausted, by decide +kernel, by decide +kernel⟩

end Sharing

end ViewCompiler
