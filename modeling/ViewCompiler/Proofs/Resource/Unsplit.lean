import ViewCompiler.Proofs.Resource.Exhausted

/-!
# Elements that sharing keeps together

Some elements of a tag have attributes in common, and one would like all of them to lose these. They
need not (`Sharing.crossedViews_kept`): a style has one parent, so elements that have come to refer
to different styles no longer share one, and what only two of them still have in common may stay.

What does hold is `Sharing.removed_unless_split`. Elements that refer to the same style in the end,
if there are three of them, have lost everything that they had in common. And elements are kept
together if no attribute tells them apart that is carried by as many elements as they are:
`Sharing.Unsplit` is the invariant, and it survives a round because a candidate that qualifies ahead
of them is at least as large, so it covers all of them or none.
-/

namespace ViewCompiler

namespace Sharing

/-! ### Elements that are covered together -/

/-- Some elements have been treated alike so far, and no large candidate tells them apart. -/
structure Unsplit (ids : List NodeId) (p : Progress) : Prop where
  tip : ∀ i ∈ ids, ∀ j ∈ ids, p.tips.get? i = p.tips.get? j
  alike : ∀ pair, ids.length ≤ (holders p.remaining pair).length →
    ids ⊆ holders p.remaining pair ∨ List.Disjoint ids (holders p.remaining pair)

section Unsplit

variable {ids : List NodeId} {p q : Progress} {c : Candidate} {base : String} {n : Nat}
  {pair : String × String}

/-- **A large candidate covers all of them or none.** -/
theorem Unsplit.coverage (h : Unsplit ids p) (hbest : best? p.remaining p.tips n = some c)
    (hlarge : ids.length ≤ c.coverage.length) :
    ids ⊆ c.coverage ∨ List.Disjoint ids c.coverage := by
  obtain ⟨-, -, -, -, hattributes⟩ := exists_of_best? hbest
  obtain ⟨pair, hpair⟩ := List.exists_mem_of_ne_nil _ hattributes
  rw [coverage_of_best? hbest hpair] at hlarge ⊢
  have hsublist := largestPart_sublist p.tips (holders p.remaining pair)
  rcases h.alike pair (Nat.le_trans hlarge hsublist.length_le) with hsub | hdisjoint
  · by_cases hmem : ∃ i ∈ ids, i ∈ largestPart p.tips (holders p.remaining pair)
    · obtain ⟨i, hi, hcovered⟩ := hmem
      exact .inl fun j hj ↦
        (mem_largestPart_congr (hsub hi) (hsub hj) (h.tip i hi j hj)).1 hcovered
    · exact .inr fun i hi hcovered ↦ hmem ⟨i, hi, hcovered⟩
  · exact .inr fun i hi hcovered ↦ hdisjoint hi (hsublist.subset hcovered)

/-- What they hold is taken off all of them or stays on all of them. -/
theorem Unsplit.holders_promote (h : Unsplit ids p)
    (hbest : best? p.remaining p.tips n = some c) (hlarge : ids.length ≤ c.coverage.length)
    (base : String) (hpair : ids ⊆ holders p.remaining pair) :
    ids ⊆ holders (promote base p c).remaining pair ∨
      List.Disjoint ids (holders (promote base p c).remaining pair) := by
  have hc := promotable_of_best? hbest
  rcases h.coverage hbest hlarge with hsub | hdisjoint
  · by_cases hattribute : pair ∈ c.attributes
    · exact .inr fun i hi hholds ↦
        ((mem_holders_promote hc base).1 hholds).2 ⟨hsub hi, hattribute⟩
    · exact .inl fun i hi ↦
        (mem_holders_promote hc base).2 ⟨hpair hi, fun hboth ↦ hattribute hboth.2⟩
  · exact .inl fun i hi ↦
      (mem_holders_promote hc base).2 ⟨hpair hi, fun hboth ↦ hdisjoint hi hboth.1⟩

/-- **One round keeps them together.** -/
theorem Unsplit.promote (h : Unsplit ids p) (hbest : best? p.remaining p.tips n = some c)
    (hlarge : ids.length ≤ c.coverage.length) (base : String) :
    Unsplit ids (promote base p c) := by
  have hc := promotable_of_best? hbest
  refine ⟨fun i hi j hj ↦ ?_, fun pair hmany ↦ ?_⟩
  · rw [promote_tips base p hc.nodup_coverage, promote_tips base p hc.nodup_coverage,
      h.tip i hi j hj]
    rcases h.coverage hbest hlarge with hsub | hdisjoint
    · rw [if_pos (hsub hi), if_pos (hsub hj)]
    · rw [if_neg (hdisjoint hi), if_neg (hdisjoint hj)]
  · have hless : holders (Sharing.promote base p c).remaining pair ⊆ holders p.remaining pair :=
      fun i hi ↦ ((mem_holders_promote hc base).1 hi).1
    have hlength := (List.subperm_of_subset (nodup_holders _ pair) hless).length_le
    rcases h.alike pair (Nat.le_trans hmany hlength) with hsub | hdisjoint
    · exact h.holders_promote hbest hlarge base hsub
    · exact .inr fun i hi hholds ↦ hdisjoint hi (hless hholds)

/-- As long as they have something in common, a candidate qualifies that is as large as they are. -/
theorem Unsplit.exists_best? (h : Unsplit ids p) (hnodup : ids.Nodup) (hmany : 2 < ids.length)
    (hpair : ids ⊆ holders p.remaining pair) (n : Nat) :
    ∃ c, best? p.remaining p.tips n = some c ∧ ids.length ≤ c.coverage.length := by
  have hlength : ids.length ≤ (largestPart p.tips (holders p.remaining pair)).length :=
    length_le_largestPart hnodup hpair h.tip
  obtain ⟨c, hbest, hle⟩ := exists_best?_of_qualifies (n := n)
    (qualifies_of_three (Nat.lt_of_lt_of_le hmany hlength))
  exact ⟨c, hbest, Nat.le_trans hlength hle⟩

/-- **All rounds together take everything off them that they have in common.** -/
theorem Rounds.disjoint_holders (h : Rounds base n p q) (hunsplit : Unsplit ids p)
    (hnodup : ids.Nodup) (hmany : 2 < ids.length) (hpair : ids ⊆ holders p.remaining pair) :
    List.Disjoint ids (holders q.remaining pair) := by
  have hend := h.keeps (I := fun p ↦ Unsplit ids p ∧ ids ⊆ holders p.remaining pair ∨
    List.Disjoint ids (holders p.remaining pair)) (.inl ⟨hunsplit, hpair⟩) fun p c hp hbest ↦ by
      rcases hp with ⟨hunsplit, hpair⟩ | hdisjoint
      · obtain ⟨c', hbest', hlarge⟩ := hunsplit.exists_best? hnodup hmany hpair n
        obtain rfl := Option.some.inj (hbest.symm.trans hbest')
        exact (hunsplit.holders_promote hbest hlarge base hpair).imp_left
          fun hsub ↦ ⟨hunsplit.promote hbest hlarge base, hsub⟩
      · exact .inr fun i hi hholds ↦
          hdisjoint hi ((mem_holders_promote (promotable_of_best? hbest) base).1 hholds).1
  rcases hend with ⟨hunsplit, hpair⟩ | hdisjoint
  · obtain ⟨c, hbest, -⟩ := hunsplit.exists_best? hnodup hmany hpair n
    exact absurd (h.ended.symm.trans hbest) (Option.some_ne_none c).symm
  · exact hdisjoint

end Unsplit

/-! ### What elements lose -/

/-- What an element could share is in one style if the element has lost it, and in none if not. -/
theorem Moved.countP_eq {original remaining : SortedMap String String} {l : List StyleEntry}
    {lost : Option (List String)} (h : Moved original remaining l lost) {pair : String × String}
    (hpair : original.get? pair.1 = some pair.2) :
    l.countP (fun e ↦ e.attributes.contains pair) = if pair.1 ∈ lost.getD [] then 1 else 0 := by
  -- a style of the element that has the name has the value as well
  have hkey : ∀ e ∈ l, e.attributes.contains pair = true ↔
      (e.attributes.map Prod.fst).contains pair.1 = true := fun e he ↦ by
    rw [List.contains_iff_mem, List.contains_iff_mem]
    refine ⟨List.mem_map_of_mem, fun hmem ↦ ?_⟩
    obtain ⟨⟨k, v⟩, hv, hk⟩ := List.mem_map.1 hmem
    have hvalue := (h.split k v).2 (.inr ⟨e, he, hv⟩)
    rw [show k = pair.1 from hk, hpair] at hvalue
    have heq : pair = (k, v) := Prod.ext hk.symm (Option.some.inj hvalue)
    exact heq ▸ hv
  rw [List.countP_congr hkey]
  split
  · exact countP_eq_one h.once ((h.removed pair.1).1 ‹_›)
  · rename_i hlost
    rw [List.countP_eq_zero]
    intro e he hcontains
    exact hlost ((h.removed pair.1).2 (mem_keysOf.2 ⟨e, he, List.contains_iff_mem.1 hcontains⟩))

section Removed

variable {config : SharingConfig} {members : List Member} {works : List Work} {w : Work}
  {pair : String × String}

theorem mem_removedFrom_iff (hnodup : (members.map Member.id).Nodup) {m : Member}
    (hm : m ∈ members) {k : String} : k ∈ (ofMembers config members).removedFrom m.id ↔
      k ∈ keysOf ((ofMembers config members).stylesOf m.id) := by
  obtain ⟨remaining, l, hleads, hmoved⟩ := shared_ofMembers config hnodup hm
  rw [hleads.stylesOf_eq]
  exact hmoved.removed k

/-- **Three elements that refer to the same style have lost what they had in common.** -/
theorem SamePart.removed {part : List Member}
    (h : SamePart (ofMembers config members) members w.tag part)
    (hworks : Worked config members works) (hnodup : (members.map Member.id).Nodup)
    (hw : w ∈ works) (hmany : 2 < part.length)
    (hpair : ∀ m ∈ part, (shareable config m).get? pair.1 = some pair.2) {m : Member}
    (hm : m ∈ part) : pair.1 ∈ (ofMembers config members).removedFrom m.id := by
  by_contra hkept
  have hleft : ∀ m ∈ part,
      (residual config (ofMembers config members) m).get? pair.1 = some pair.2 := fun m' hm' ↦ by
    refine get?_residual_eq_some_iff.2 ⟨fun hremoved ↦ hkept ?_, hpair m' hm'⟩
    rw [mem_removedFrom_iff hnodup (h.subset hm')] at hremoved
    rwa [mem_removedFrom_iff hnodup (h.subset hm), stylesOf, h.assignment m hm m' hm', ← stylesOf]
  exact absurd hmany (Nat.not_lt.2 (h.length_le_two hworks hnodup hw hleft))

/-- No more elements hold an attribute at first than those of the tag that could share it. -/
theorem Worked.length_holders_start_le (h : Worked config members works) (hw : w ∈ works)
    (pair : String × String) :
    (holders (Progress.start config w.group w.taken w.start).remaining pair).length ≤
      (w.group.filter fun m ↦ (shareable config m).get? pair.1 = some pair.2).length := by
  have hinside : holders (Progress.start config w.group w.taken w.start).remaining pair ⊆
      (w.group.filter fun m ↦
        (shareable config m).get? pair.1 = some pair.2).map Member.id := by
    intro id hid
    obtain ⟨m, hm, rfl⟩ := List.mem_map.1 ((h.done w hw).begins.mem_group_of_holders hid)
    refine List.mem_map_of_mem (List.mem_filter.2 ⟨hm, ?_⟩)
    exact decide_eq_true ((h.mem_holders_start_iff hw hm).1 hid)
  simpa using (List.subperm_of_subset (nodup_holders _ pair) hinside).length_le

/-- **Elements that are kept together have lost what they had in common.** -/
theorem Worked.removed (h : Worked config members works) (hnodup : (members.map Member.id).Nodup)
    (hw : w ∈ works) {G : List Member} (hG : G.Nodup) (hsub : G ⊆ w.group) (hmany : 2 < G.length)
    (halike : ∀ pair : String × String, G.length ≤ (w.group.filter fun m ↦
      (shareable config m).get? pair.1 = some pair.2).length →
        (∀ m ∈ G, (shareable config m).get? pair.1 = some pair.2) ∨
        ∀ m ∈ G, (shareable config m).get? pair.1 ≠ some pair.2)
    (hpair : ∀ m ∈ G, (shareable config m).get? pair.1 = some pair.2) {m : Member} (hm : m ∈ G) :
    pair.1 ∈ (ofMembers config members).removedFrom m.id := by
  have hdone := h.done w hw
  have hmember : ∀ {m}, m ∈ w.group → m ∈ members := fun hm ↦ ((h.mem_group_iff hw).1 hm).1
  have hids : (G.map Member.id).Nodup := hG.map_on fun m hm m' hm' heq ↦
    List.inj_on_of_nodup_map hnodup (hmember (hsub hm)) (hmember (hsub hm')) heq
  have hheld : ∀ {pair : String × String},
      (∀ m ∈ G, (shareable config m).get? pair.1 = some pair.2) → G.map Member.id ⊆
        holders (Progress.start config w.group w.taken w.start).remaining pair := by
    intro pair hpair id hid
    obtain ⟨m, hm, rfl⟩ := List.mem_map.1 hid
    exact (h.mem_holders_start_iff hw (hsub hm)).2 (hpair m hm)
  have hunsplit : Unsplit (G.map Member.id) (.start config w.group w.taken w.start) := by
    refine ⟨fun i _ j _ ↦ ?_, fun pair hlarge ↦ ?_⟩
    · exact (SortedMap.get?_empty i).trans (SortedMap.get?_empty j).symm
    · rw [List.length_map] at hlarge
      have hcount := Nat.le_trans hlarge (h.length_holders_start_le hw pair)
      refine (halike pair hcount).imp hheld fun hnone id hid hholds ↦ ?_
      obtain ⟨m, hm, rfl⟩ := List.mem_map.1 hid
      exact hnone m hm ((h.mem_holders_start_iff hw (hsub hm)).1 hholds)
  have hdisjoint := hdone.rounds.disjoint_holders hunsplit hids (by rwa [List.length_map])
    (hheld hpair)
  by_contra hkept
  refine hdisjoint (List.mem_map_of_mem hm) ((hdone.mem_holders_iff (hsub hm)).2 ?_)
  exact get?_residual_eq_some_iff.2 ⟨hkept, hpair m hm⟩

end Removed

/-- **What elements of a tag have in common is moved, unless they are split.** What an element could
share is in one of its styles if it has lost it, and in none if not. Of some elements of a tag that
have attributes in common, three or more that refer to the same style in the end have lost these
attributes, and all of them have if there are three and if every attribute that as many elements of
the tag have is one of all of them or of none. -/
theorem removed_unless_split (config : SharingConfig) (henabled : config.enabled = true)
    {members : List Member} (hnodup : (members.map Member.id).Nodup) (tag : String)
    {G : List Member} (hG : G.Nodup) (hsub : ∀ m ∈ G, m ∈ members ∧ m.tag = tag)
    {P : List (String × String)}
    (hP : ∀ m ∈ G, ∀ pair ∈ P, (shareable config m).get? pair.1 = some pair.2) :
    let s := ofMembers config members
    (∀ m ∈ G, ∀ pair ∈ P, ((s.stylesOf m.id).countP fun e ↦ e.attributes.contains pair) =
      if pair.1 ∈ s.removedFrom m.id then 1 else 0) ∧
    (∀ part, SamePart s members tag part → part ⊆ G → 3 ≤ part.length →
      ∀ m ∈ part, ∀ pair ∈ P, pair.1 ∈ s.removedFrom m.id) ∧
    (3 ≤ G.length → (∀ pair : String × String, G.length ≤ (members.filter fun m ↦
      m.tag = tag ∧ (shareable config m).get? pair.1 = some pair.2).length →
        (∀ m ∈ G, (shareable config m).get? pair.1 = some pair.2) ∨
        ∀ m ∈ G, (shareable config m).get? pair.1 ≠ some pair.2) →
      ∀ m ∈ G, ∀ pair ∈ P, pair.1 ∈ s.removedFrom m.id) := by
  intro s
  obtain ⟨works, hworks⟩ := exists_worked henabled hnodup
  have hwork : ∀ {m}, m ∈ members → m.tag = tag → ∃ w ∈ works, w.tag = tag := fun hm htag ↦ by
    obtain ⟨w, hw, heq⟩ := hworks.exists_mem hm
    exact ⟨w, hw, heq.trans htag⟩
  refine ⟨fun m hm pair hpair ↦ ?_, fun part hpart hpartG hmany m hm pair hpair ↦ ?_,
    fun hmany halike m hm pair hpair ↦ ?_⟩
  · obtain ⟨remaining, l, hleads, hmoved⟩ := shared_ofMembers config hnodup (hsub m hm).1
    rw [show s.stylesOf m.id = l from hleads.stylesOf_eq, hmoved.countP_eq (hP m hm pair hpair)]
    rfl
  · obtain ⟨w, hw, rfl⟩ := hwork (hpart.subset hm) (hpart.tag m hm)
    exact hpart.removed hworks hnodup hw hmany (fun m hm ↦ hP m (hpartG hm) pair hpair) hm
  · obtain ⟨w, hw, rfl⟩ := hwork (hsub m hm).1 (hsub m hm).2
    refine hworks.removed hnodup hw hG (fun m hm ↦ (hworks.mem_group_iff hw).2 (hsub m hm)) hmany
      (fun pair hlarge ↦ halike pair ?_) (fun m hm ↦ hP m hm pair hpair) hm
    refine Nat.le_trans hlarge (Nat.le_of_eq ?_)
    rw [((hworks.perm_group hw).filter _).length_eq, List.filter_filter]
    simp only [Bool.decide_and, Bool.and_comm]

/-- Three labels that look alike. One of them has something more, and so does a fourth. -/
def fourLabels : List Member :=
  [⟨0, "TextView", .ofList [("android:textColor", "#ffffff"), ("android:textSize", "12sp")]⟩,
  ⟨1, "TextView", .ofList [("android:gravity", "end"), ("android:textColor", "#ffffff"),
    ("android:textSize", "12sp")]⟩,
  ⟨2, "TextView", .ofList [("android:textColor", "#ffffff"), ("android:textSize", "12sp")]⟩,
  ⟨3, "TextView", .ofList [("android:gravity", "end")]⟩]

/-- The three labels lose what they have in common, since no other attribute is found on three. -/
theorem removed_unless_split_fourLabels :
    let G := fourLabels.take 3
    let P := [("android:textColor", "#ffffff"), ("android:textSize", "12sp")]
    let s := ofMembers .default fourLabels
    SharingConfig.default.enabled = true ∧ (fourLabels.map Member.id).Nodup ∧
    (G.map Member.id).Nodup ∧ (∀ m ∈ G, m ∈ fourLabels ∧ m.tag = "TextView") ∧
    (∀ m ∈ G, ∀ pair ∈ P, (shareable .default m).get? pair.1 = some pair.2) ∧
    ∀ m ∈ G, ∀ pair ∈ P, pair.1 ∈ s.removedFrom m.id ∧
      ((s.stylesOf m.id).countP fun e ↦ e.attributes.contains pair) = 1 := by
  intro G P s
  have hnodup : (fourLabels.map Member.id).Nodup := by decide
  have hG : (G.map Member.id).Nodup := by decide
  have htag : ∀ m ∈ G, m.tag = "TextView" := by decide +kernel
  have hsub : ∀ m ∈ G, m ∈ fourLabels ∧ m.tag = "TextView" := fun m hm ↦
    ⟨List.mem_of_mem_take hm, htag m hm⟩
  have hP : ∀ m ∈ G, ∀ pair ∈ P, (shareable .default m).get? pair.1 = some pair.2 := by
    decide +kernel
  -- an attribute that is counted is one of some label
  have halike : ∀ pair ∈ fourLabels.flatMap (fun m ↦ (shareable .default m).entries),
      G.length ≤ (fourLabels.filter fun m ↦ m.tag = "TextView" ∧
        (shareable .default m).get? pair.1 = some pair.2).length →
      (∀ m ∈ G, (shareable .default m).get? pair.1 = some pair.2) ∨
        ∀ m ∈ G, (shareable .default m).get? pair.1 ≠ some pair.2 := by decide +kernel
  obtain ⟨hcount, -, hremoved⟩ :=
    removed_unless_split .default rfl hnodup "TextView" hG.of_map hsub hP
  have hremoved := hremoved (by decide) fun pair hlarge ↦ by
    refine halike pair ?_ hlarge
    obtain ⟨m, hm⟩ := List.exists_mem_of_length_pos (Nat.lt_of_lt_of_le (by decide) hlarge)
    rw [List.mem_filter, decide_eq_true_eq] at hm
    exact List.mem_flatMap.2 ⟨m, hm.1, SortedMap.mem_entries_iff.2 hm.2.2⟩
  refine ⟨rfl, hnodup, hG, hsub, hP, fun m hm pair hpair ↦ ⟨hremoved m hm pair hpair, ?_⟩⟩
  rw [hcount m hm pair hpair, if_pos (hremoved m hm pair hpair)]

/-- Two views that have two pairs of attributes, and two views with one pair each. -/
def crossedViews : List Member :=
  [⟨0, "View", .ofList [("android:alpha", "0.5"), ("android:background", "#ffffff"),
    ("android:height", "20dp"), ("android:width", "80dp")]⟩,
  ⟨1, "View", .ofList [("android:alpha", "0.5"), ("android:background", "#ffffff"),
    ("android:height", "20dp"), ("android:width", "80dp")]⟩,
  ⟨2, "View", .ofList [("android:height", "20dp"), ("android:width", "80dp")]⟩,
  ⟨3, "View", .ofList [("android:alpha", "0.5"), ("android:background", "#ffffff")]⟩]

/-- **Elements that are split may keep what they have in common.** Three views have one size, and
two of them have come to refer to the style of their color, so the third one keeps its size. -/
theorem crossedViews_kept :
    let G := crossedViews.take 3
    let P := [("android:height", "20dp"), ("android:width", "80dp")]
    let s := ofMembers .default crossedViews
    (SharingConfig.default.enabled = true ∧ (crossedViews.map Member.id).Nodup ∧
      (∀ m ∈ G, m.tag = "View") ∧ (G.map Member.id).Nodup ∧ 3 ≤ G.length ∧ P.Nodup ∧
      2 ≤ P.length ∧
      ∀ m ∈ G, ∀ pair ∈ P, m.attributes.get? pair.1 = some pair.2 ∧
        SharingConfig.default.excludes pair.1 = false) ∧
    ¬∀ m ∈ G, ∀ pair ∈ P, pair.1 ∈ s.removedFrom m.id ∧
      ((s.stylesOf m.id).countP fun e ↦ e.attributes.contains pair) = 1 := by
  decide +kernel

end Sharing

end ViewCompiler
