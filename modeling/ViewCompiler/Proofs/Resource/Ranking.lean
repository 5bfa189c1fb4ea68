import Mathlib.Data.List.Pairwise
import ViewCompiler.Proofs.Resource.Ending
import ViewCompiler.Proofs.Resource.StyleUse

/-!
# The styles form a ranked forest

A style covers the elements whose styles it is among (`Sharing.covered`). No rule orders the styles
by what they cover, and none says that a style covers no more than its parent. Both follow from how
they are made (`Sharing.ranked_forest`):

* a new style covers only elements that refer to its parent, so all of them have the parent as well;
* parts only become smaller from round to round, and the best candidate covers as many elements as
  any part with at least three, so no part is left that is larger than the last style. What covers
  two elements is no larger than any style.

`Sharing.Ranked` is the invariant of the rounds on one tag, with the styles of the tag and the
elements that each of them was made for. That these are the ones it covers in the end is part of it:
a lineage is not left once it has been entered.
-/

namespace ViewCompiler

namespace Sharing

/-! ### The rounds on one tag -/

/-- The styles that have been made for a tag, with the elements for which they were made. -/
structure Ranked (group : List Member) (start : Sharing) (p : Progress)
    (made : List (StyleEntry × List NodeId)) : Prop where
  styles : p.result.styles = start.styles ++ made.map Prod.fst
  /-- An element has the styles that were made for it. -/
  lines : ∀ id l, LeadsTo p.result.styles (p.tips.get? id) l →
    l ⊆ made.map Prod.fst ∧ ∀ e ∈ made, e.1 ∈ l ↔ id ∈ e.2
  covers : ∀ e ∈ made, e.2.Nodup ∧ 2 ≤ e.2.length ∧ e.2 ⊆ group.map Member.id
  parents : ∀ before e, before ++ [e] <+: made → ∀ name, e.1.parent = some name →
    ∃ e' ∈ before, e'.1.name = name ∧ e.2 ⊆ e'.2
  sizes : made.Pairwise fun e e' ↦ e'.2.length ≤ e.2.length
  /-- Three elements that refer to the same style are no more than any style was made for. -/
  bound : ∀ e ∈ made, ∀ pair, 2 < (largestPart p.tips (holders p.remaining pair)).length →
    (largestPart p.tips (holders p.remaining pair)).length ≤ e.2.length

namespace Ranked

variable {config : SharingConfig} {group : List Member} {start : Sharing} {p : Progress}
  {made : List (StyleEntry × List NodeId)} {c : Candidate}

/-- Before the first round of a tag, no style has been made for it. -/
theorem initial (taken : List String) :
    Ranked group start (.start config group taken start) [] where
  styles := (List.append_nil _).symm
  lines id l h := by
    have htip : (Progress.start config group taken start).tips.get? id = none :=
      SortedMap.get?_empty id
    rw [htip] at h
    rw [show l = [] from h]
    simp
  covers := by simp
  parents before e h := absurd h (by simp)
  sizes := .nil
  bound := by simp

/-- **No candidate covers more elements than a style that has been made.** -/
theorem coverage_le (h : Ranked group start p made) {n : Nat}
    (hbest : best? p.remaining p.tips n = some c) {e : StyleEntry × List NodeId} (he : e ∈ made) :
    c.coverage.length ≤ e.2.length := by
  by_cases hmany : 2 < c.coverage.length
  · obtain ⟨-, -, -, -, hattributes⟩ := exists_of_best? hbest
    obtain ⟨pair, hpair⟩ := List.exists_mem_of_ne_nil _ hattributes
    rw [coverage_of_best? hbest hpair] at hmany ⊢
    exact h.bound e he pair hmany
  · exact Nat.le_trans (Nat.not_lt.1 hmany) (h.covers e he).2.1

/-- Before the round, all elements that the new style is made for have the parent. -/
theorem exists_parent (h : Ranked group start p made) (hround : InRound config group start p)
    (hc : Promotable p.remaining p.tips c) (base : String) {name : String}
    (hparent : (newStyle base p c).parent = some name) :
    ∃ e ∈ made, e.1.name = name ∧ c.coverage ⊆ e.2 := by
  obtain ⟨first, hfirst⟩ := hc.exists_covered
  obtain ⟨l, hleads⟩ := hround.exists_leads first
  have hname := hleads
  rw [← parent_newStyle hc base hfirst, hparent] at hname
  obtain ⟨e', r, rfl, -, rfl⟩ := hname.1.exists_head
  obtain ⟨e, he, rfl⟩ := List.mem_map.1 ((h.lines first _ hleads).1 List.mem_cons_self)
  refine ⟨e, he, rfl, fun id hid ↦ ?_⟩
  rw [hc.sameTip first hfirst id hid] at hleads
  exact ((h.lines id _ hleads).2 e he).1 List.mem_cons_self

/-- The elements that a new style is made for have it, and those that had a style keep it. -/
theorem lines_promote (h : Ranked group start p made) (hround : InRound config group start p)
    (hc : Promotable p.remaining p.tips c) (base : String) {id : NodeId} {l : List StyleEntry}
    (hleads : LeadsTo (promote base p c).result.styles ((promote base p c).tips.get? id) l) :
    l ⊆ (made ++ [(newStyle base p c, c.coverage)]).map Prod.fst ∧
      ∀ e ∈ made ++ [(newStyle base p c, c.coverage)], e.1 ∈ l ↔ id ∈ e.2 := by
  have hstyle : ∀ e ∈ made, e.1 ≠ newStyle base p c := fun e he heq ↦ by
    refine hround.name_ne_newStyle base c (e := e.1) ?_ (congrArg StyleEntry.name heq)
    rw [h.styles]
    exact List.mem_append_right _ (List.mem_map_of_mem he)
  obtain ⟨l', hleads'⟩ := hround.exists_leads id
  obtain ⟨hsub, hlines⟩ := h.lines id l' hleads'
  obtain rfl := hleads.unique (hround.leads_promote hc base hleads')
  have hnew : newStyle base p c ∉ l' := fun hmem ↦ by
    obtain ⟨e, he, heq⟩ := List.mem_map.1 (hsub hmem)
    exact hstyle e he heq
  rw [List.map_append]
  by_cases hid : id ∈ c.coverage
  · rw [if_pos hid]
    refine ⟨List.cons_subset.2 ⟨by simp, List.subset_append_of_subset_left _ hsub⟩, fun e he ↦ ?_⟩
    rcases List.mem_append.1 he with he | he
    · rw [List.mem_cons, or_iff_right (hstyle e he)]
      exact hlines e he
    · rw [List.mem_singleton.1 he]
      simp [hid]
  · rw [if_neg hid]
    refine ⟨List.subset_append_of_subset_left _ hsub, fun e he ↦ ?_⟩
    rcases List.mem_append.1 he with he | he
    · exact hlines e he
    · rw [List.mem_singleton.1 he]
      simp [hid, hnew]

/-- **One more style.** -/
theorem promote (h : Ranked group start p made) (hround : InRound config group start p) {n : Nat}
    (hbest : best? p.remaining p.tips n = some c) (base : String) :
    Ranked group start (promote base p c) (made ++ [(newStyle base p c, c.coverage)]) := by
  have hc := promotable_of_best? hbest
  refine ⟨?_, fun id l hleads ↦ ?_, fun e he ↦ ?_, fun before e hprefix name hparent ↦ ?_, ?_,
    fun e he pair hmany ↦ ?_⟩
  · rw [promote_styles, h.styles, List.append_assoc, List.map_append]
    rfl
  · exact h.lines_promote hround hc base hleads
  · rcases List.mem_append.1 he with he | he
    · exact h.covers e he
    · rw [List.mem_singleton.1 he]
      exact ⟨hc.nodup_coverage, hc.two_le, hround.covered hc⟩
  · rcases List.prefix_concat_iff.1 hprefix with heq | hprefix
    · obtain ⟨rfl, rfl⟩ := List.append_inj' heq rfl |>.imp_right List.singleton_inj.1
      exact h.exists_parent hround hc base hparent
    · exact h.parents before e hprefix name hparent
  · refine List.pairwise_append.2 ⟨h.sizes, List.pairwise_singleton _ _, fun e he e' he' ↦ ?_⟩
    rw [List.mem_singleton.1 he']
    exact h.coverage_le hbest he
  · have hsmaller := hround.length_largestPart_promote_le hc base pair
    refine Nat.le_trans hsmaller ?_
    rcases List.mem_append.1 he with he | he
    · exact h.bound e he pair (Nat.lt_of_lt_of_le hmany hsmaller)
    · obtain ⟨c', hbest', hle⟩ :=
        exists_best?_of_qualifies (n := n) (qualifies_of_three (Nat.lt_of_lt_of_le hmany hsmaller))
      obtain rfl := Option.some.inj (hbest.symm.trans hbest')
      rw [List.mem_singleton.1 he]
      exact hle

end Ranked

/-- **All rounds**: more styles come behind those that have been made. -/
theorem Rounds.exists_ranked {config : SharingConfig} {group : List Member} {start : Sharing}
    {base : String} {n : Nat} {p q : Progress} (h : Rounds base n p q) :
    ∀ {made}, InRound config group start p → Ranked group start p made →
      ∃ more, Ranked group start q (made ++ more) := by
  induction h with
  | stop _ => exact fun _ hranked ↦ ⟨[], by simpa using hranked⟩
  | more best _ ih =>
    intro made hround hranked
    obtain ⟨more, hmore⟩ :=
      ih (hround.promote (promotable_of_best? best) base) (hranked.promote hround best base)
    exact ⟨_, by simpa using hmore⟩

/-- The styles of a tag are those that the rounds on it have made. -/
theorem Work.Done.made_eq {config : SharingConfig} {w : Work} {s : Sharing} (h : w.Done config s)
    {made : List (StyleEntry × List NodeId)} (hranked : Ranked w.group w.start w.last made) :
    made.map Prod.fst = w.made :=
  List.append_cancel_left (hranked.styles.symm.trans h.styles_eq)

/-- **The styles of a tag, when the work on it is done.** -/
theorem Work.Done.exists_ranked {config : SharingConfig} {w : Work} {s : Sharing}
    (h : w.Done config s) : ∃ made, made.map Prod.fst = w.made ∧
      Ranked w.group w.start w.last made := by
  obtain ⟨made, hranked⟩ := h.rounds.exists_ranked h.begins (.initial w.taken)
  exact ⟨made, h.made_eq hranked, hranked⟩

/-! ### The styles of each tag -/

/-- The elements that have a style, itself or under a narrower one. -/
def covered (s : Sharing) (members : List Member) (e : StyleEntry) : List Member :=
  members.filter fun m ↦ e ∈ s.stylesOf m.id

/-- The styles that some element of a tag has. -/
def stylesOfTag (s : Sharing) (members : List Member) (tag : String) : List StyleEntry :=
  s.styles.filter fun e ↦ (s.covered members e).any fun m ↦ m.tag == tag

theorem mem_covered {s : Sharing} {members : List Member} {e : StyleEntry} {m : Member} :
    m ∈ s.covered members e ↔ m ∈ members ∧ e ∈ s.stylesOf m.id := by
  simp [covered]

namespace Worked

variable {config : SharingConfig} {members : List Member} {works : List Work} {w : Work}
  {m : Member}

/-- An element has only styles that were made for its tag. -/
theorem stylesOf_subset (h : Worked config members works) (hw : w ∈ works) (hm : m ∈ w.group) :
    (ofMembers config members).stylesOf m.id ⊆ w.made := by
  have hdone := h.done w hw
  obtain ⟨made, hmade, hranked⟩ := hdone.exists_ranked
  obtain ⟨l, hleads⟩ := hdone.inRound.exists_leads m.id
  rw [(hdone.leads (List.mem_map_of_mem hm) hleads).stylesOf_eq, ← hmade]
  exact (hranked.lines m.id l hleads).1

/-- **A style covers elements of the tag it was made for only.** -/
theorem tag_of_covered (h : Worked config members works) (hnodup : (members.map Member.id).Nodup)
    (hw : w ∈ works) {e : StyleEntry} (he : e ∈ w.made)
    (hm : m ∈ (ofMembers config members).covered members e) : m.tag = w.tag := by
  obtain ⟨hm, hstyle⟩ := mem_covered.1 hm
  obtain ⟨w', hw', htag⟩ := h.exists_mem hm
  have he' := h.stylesOf_subset hw' ((h.mem_group_iff hw').2 ⟨hm, htag.symm⟩) hstyle
  -- the style was made for one tag, since no two styles have the same name
  have hnames := (used_ofMembers config hnodup).nodup.of_map
  rw [h.styles, List.nodup_flatMap] at hnames
  by_contra hne
  have hworks : w ≠ w' := fun heq ↦ hne (heq ▸ htag.symm)
  have : Std.Symm (Function.onFun List.Disjoint Work.made) := ⟨fun _ _ h _ ha hb ↦ h hb ha⟩
  exact hnames.2.forall hw hw' hworks he he'

/-- **A style covers the elements that it was made for.** -/
theorem exists_ranked (h : Worked config members works) (hnodup : (members.map Member.id).Nodup)
    (hw : w ∈ works) : ∃ made, made.map Prod.fst = w.made ∧ Ranked w.group w.start w.last made ∧
      ∀ e ∈ made, (((ofMembers config members).covered members e.1).map Member.id).Perm e.2 := by
  have hdone := h.done w hw
  obtain ⟨made, hmade, hranked⟩ := hdone.exists_ranked
  refine ⟨made, hmade, hranked, fun e he ↦ ?_⟩
  have hcovered : ∀ m ∈ w.group,
      e.1 ∈ (ofMembers config members).stylesOf m.id ↔ m.id ∈ e.2 := fun m hm ↦ by
    obtain ⟨l, hleads⟩ := hdone.inRound.exists_leads m.id
    rw [(hdone.leads (List.mem_map_of_mem hm) hleads).stylesOf_eq]
    exact (hranked.lines m.id l hleads).2 e he
  obtain ⟨hids, -, hsub⟩ := hranked.covers e he
  have hnodup' : (((ofMembers config members).covered members e.1).map Member.id).Nodup :=
    hnodup.sublist (List.filter_sublist.map _)
  rw [List.perm_ext_iff_of_nodup hnodup' hids]
  refine fun id ↦ ⟨fun hid ↦ ?_, fun hid ↦ ?_⟩
  · obtain ⟨m, hm, rfl⟩ := List.mem_map.1 hid
    have htag := h.tag_of_covered hnodup hw (hmade ▸ List.mem_map_of_mem he) hm
    obtain ⟨hmem, hstyle⟩ := mem_covered.1 hm
    exact (hcovered m ((h.mem_group_iff hw).2 ⟨hmem, htag⟩)).1 hstyle
  · obtain ⟨m, hm, rfl⟩ := List.mem_map.1 (hsub hid)
    exact List.mem_map_of_mem
      (mem_covered.2 ⟨((h.mem_group_iff hw).1 hm).1, (hcovered m hm).2 hid⟩)

/-- A style covers elements of a tag if it was made for the tag. -/
theorem any_covered_iff (h : Worked config members works) (hnodup : (members.map Member.id).Nodup)
    (hw : w ∈ works) {e : StyleEntry} (he : e ∈ w.made) (tag : String) :
    (((ofMembers config members).covered members e).any fun m ↦ m.tag == tag) = true ↔
      w.tag = tag := by
  rw [List.any_eq_true]
  constructor
  · rintro ⟨m, hm, htag⟩
    rw [← beq_iff_eq.1 htag, h.tag_of_covered hnodup hw he hm]
  · rintro rfl
    obtain ⟨made, hmade, hranked, hperm⟩ := h.exists_ranked hnodup hw
    obtain ⟨e, hmem, rfl⟩ := List.mem_map.1 (hmade ▸ he)
    have hlength := (hperm e hmem).length_eq
    rw [List.length_map] at hlength
    obtain ⟨m, hm⟩ := List.exists_mem_of_length_pos
      (Nat.lt_of_lt_of_le Nat.two_pos (hlength.symm ▸ (hranked.covers e hmem).2.1))
    exact ⟨m, hm, beq_iff_eq.2 (h.tag_of_covered hnodup hw he hm)⟩

/-- The work on other tags makes no style for a tag. -/
theorem filter_others (h : Worked config members works) (hnodup : (members.map Member.id).Nodup)
    {others : List Work} (hsub : others ⊆ works) {tag : String}
    (hne : tag ∉ others.map Work.tag) :
    ((others.flatMap Work.made).filter fun e ↦
      ((ofMembers config members).covered members e).any fun m ↦ m.tag == tag) = [] := by
  rw [List.filter_eq_nil_iff]
  intro e he hany
  obtain ⟨w, hw, he⟩ := List.mem_flatMap.1 he
  rw [h.any_covered_iff hnodup (hsub hw) he] at hany
  exact hne (hany ▸ List.mem_map_of_mem hw)

/-- **The styles that elements of a tag have are those that were made for it.** -/
theorem stylesOfTag_eq (h : Worked config members works) (hnodup : (members.map Member.id).Nodup)
    (hw : w ∈ works) : (ofMembers config members).stylesOfTag members w.tag = w.made := by
  obtain ⟨before, after, hworks⟩ := List.append_of_mem hw
  have htags := h.nodup_tags
  rw [hworks, List.map_append, List.map_cons, List.nodup_append', List.nodup_cons] at htags
  obtain ⟨-, ⟨hafter, -⟩, hdisjoint⟩ := htags
  have hbefore : w.tag ∉ before.map Work.tag := fun hmem ↦ hdisjoint hmem List.mem_cons_self
  have hself : (w.made.filter fun e ↦
      ((ofMembers config members).covered members e).any fun m ↦ m.tag == w.tag) = w.made :=
    List.filter_eq_self.2 fun e he ↦ (h.any_covered_iff hnodup hw he w.tag).2 rfl
  have hstyles : (ofMembers config members).styles =
      before.flatMap Work.made ++ (w.made ++ after.flatMap Work.made) := by
    rw [h.styles, hworks, List.flatMap_append, List.flatMap_cons]
  rw [stylesOfTag, hstyles, List.filter_append, List.filter_append, hself,
    h.filter_others hnodup (by rw [hworks]; exact List.subset_append_left _ _) hbefore,
    h.filter_others hnodup (by rw [hworks]; simp) hafter, List.nil_append, List.append_nil]

end Worked

/-! ### The forest -/

/-- What is true of the styles of one tag. -/
structure Forest (s : Sharing) (members : List Member) (tag : String) (es : List StyleEntry) :
    Prop where
  /-- A style covers at least two elements, all of the tag. -/
  covers : ∀ e ∈ es, 2 ≤ (s.covered members e).length ∧ ∀ m ∈ s.covered members e, m.tag = tag
  /-- A parent stands before the style, and covers the same elements and maybe more. -/
  parents : ∀ before e, before ++ [e] <+: es → ∀ name, e.parent = some name →
    ∃ e' ∈ before, e'.name = name ∧ s.covered members e ⊆ s.covered members e'
  /-- No style covers more elements than one before it. -/
  sizes : es.Pairwise fun e e' ↦ (s.covered members e').length ≤ (s.covered members e).length

theorem Worked.forest {config : SharingConfig} {members : List Member} {works : List Work}
    {w : Work} (h : Worked config members works) (hnodup : (members.map Member.id).Nodup)
    (hw : w ∈ works) : Forest (ofMembers config members) members w.tag w.made := by
  obtain ⟨made, hmade, hranked, hperm⟩ := h.exists_ranked hnodup hw
  have hlength : ∀ e ∈ made, ((ofMembers config members).covered members e.1).length =
      e.2.length := fun e he ↦ by
    rw [← (hperm e he).length_eq, List.length_map]
  refine ⟨fun e he ↦ ⟨?_, fun m hm ↦ h.tag_of_covered hnodup hw he hm⟩,
    fun before e hprefix name hparent ↦ ?_, ?_⟩
  · obtain ⟨e, hmem, rfl⟩ := List.mem_map.1 (hmade ▸ he)
    rw [hlength e hmem]
    exact (hranked.covers e hmem).2.1
  · rw [← hmade] at hprefix
    obtain ⟨before', hmap, hprefix'⟩ : ∃ l, l.map Prod.fst = before ++ [e] ∧ l <+: made := by
      rw [List.prefix_iff_eq_take] at hprefix
      exact ⟨_, by rw [List.map_take]; exact hprefix.symm, List.take_prefix _ _⟩
    obtain ⟨before', last, rfl, rfl, hlast⟩ := List.map_eq_append_iff.1 hmap
    obtain ⟨e, rfl, rfl⟩ := List.map_eq_singleton_iff.1 hlast
    obtain ⟨e', he', hname, hsub⟩ := hranked.parents before' e hprefix' name hparent
    have hmem : e' ∈ made := hprefix'.subset (List.mem_append_left _ he')
    refine ⟨e'.1, List.mem_map_of_mem he', hname, fun m hm ↦ ?_⟩
    have hid := (hperm e' hmem).mem_iff.2
      (hsub ((hperm e (hprefix'.subset (by simp))).mem_iff.1 (List.mem_map_of_mem hm)))
    obtain ⟨m', hm', heq⟩ := List.mem_map.1 hid
    obtain rfl := List.inj_on_of_nodup_map hnodup (mem_covered.1 hm').1 (mem_covered.1 hm).1 heq
    exact hm'
  · rw [← hmade, List.pairwise_map]
    refine hranked.sizes.imp_of_mem fun {e e'} he he' hle ↦ ?_
    rwa [hlength e he, hlength e' he']

/-- **The styles form a ranked forest.** Their names differ. They stand tag by tag, and among those
of a tag a parent stands before its children and covers all that they cover, and no style covers
more elements than one before it. -/
theorem ranked_forest (config : SharingConfig) (members : List Member)
    (hnodup : (members.map Member.id).Nodup) :
    let s := ofMembers config members
    (s.styles.map StyleEntry.name).Nodup ∧
    s.styles = ((groups members).map Prod.fst).flatMap (s.stylesOfTag members) ∧
    ∀ tag, Forest s members tag (s.stylesOfTag members tag) := by
  intro s
  refine ⟨(used_ofMembers config hnodup).nodup, ?_⟩
  by_cases henabled : config.enabled = true
  · obtain ⟨works, hworks⟩ := exists_worked henabled hnodup
    refine ⟨?_, fun tag ↦ ?_⟩
    · rw [← hworks.groups, List.map_map, List.flatMap_map, hworks.styles]
      exact List.flatMap_congr fun w hw ↦ (hworks.stylesOfTag_eq hnodup hw).symm
    · by_cases htag : ∃ w ∈ works, w.tag = tag
      · obtain ⟨w, hw, rfl⟩ := htag
        rw [show s.stylesOfTag members w.tag = w.made from hworks.stylesOfTag_eq hnodup hw]
        exact hworks.forest hnodup hw
      · have hnone : s.stylesOfTag members tag = [] := by
          rw [stylesOfTag, List.filter_eq_nil_iff]
          intro e _ hany
          obtain ⟨m, hm, hm'⟩ := List.any_eq_true.1 hany
          obtain ⟨w, hw, heq⟩ := hworks.exists_mem (mem_covered.1 hm).1
          exact htag ⟨w, hw, heq.trans (beq_iff_eq.1 hm')⟩
        rw [hnone]
        exact ⟨by simp, fun _ _ h ↦ absurd h (by simp), .nil⟩
  · have hempty : s = empty := if_neg henabled
    have hnone : ∀ tag, s.stylesOfTag members tag = [] := fun tag ↦ by rw [hempty]; rfl
    refine ⟨?_, fun tag ↦ ?_⟩
    · rw [List.flatMap_eq_nil_iff.2 fun tag _ ↦ hnone tag, hempty]
      rfl
    · rw [hnone]
      exact ⟨by simp, fun _ _ h ↦ absurd h (by simp), .nil⟩

/-- Three buttons of one color, two of which have more in common. -/
def threeButtons : List Member :=
  [⟨0, "Button", .ofList [("android:background", "#000000"), ("android:height", "20dp"),
    ("android:width", "80dp")]⟩,
  ⟨1, "Button", .ofList [("android:background", "#000000")]⟩,
  ⟨2, "Button", .ofList [("android:background", "#000000"), ("android:height", "20dp"),
    ("android:width", "80dp")]⟩]

/-- The style of two of the buttons stands behind that of all three, which is its parent. -/
theorem ranked_forest_threeButtons :
    (threeButtons.map Member.id).Nodup ∧
    (ofMembers .default threeButtons).styles =
      [⟨"Button", none, [("android:background", "#000000")]⟩,
        ⟨"Button_1", some "Button", [("android:height", "20dp"), ("android:width", "80dp")]⟩] ∧
    Forest (ofMembers .default threeButtons) threeButtons "Button"
      ((ofMembers .default threeButtons).stylesOfTag threeButtons "Button") := by
  have hnodup : (threeButtons.map Member.id).Nodup := by decide
  exact ⟨hnodup, by decide +kernel, (ranked_forest .default threeButtons hnodup).2.2 "Button"⟩

end Sharing

end ViewCompiler
