import Mathlib.Data.List.Nodup
import ViewCompiler.Layout.Ingest

/-!
# The boxes inside an element

What is laid out inside an element is not what is inside it in the source. Some of the elements
there make no box, and one that is displayed as its contents leaves its place to what is inside it.
`Flattens` says which boxes there are, in which order, in terms of the provider alone. It follows
the source depth first and carries the handles that have been met, since an element that comes again
is passed over the second time.

* `Flattens.unique`, `exists_flattens` : every list of handles has one flattening;
* `Flattens.lookup_inside` : what it says of an element inside is again a flattening;
* `potential` : a bound on the handles that are still to be met, which the walk through a document
  is given as its number of steps.
-/

namespace ViewCompiler

/-- A run of text: tagged as one, or without a tag. -/
def BoxMeasure.isText (m : BoxMeasure) : Bool :=
  m.tag == Ingest.textTag || (m.tag.isEmpty && m.text.isSome)

/-- What an element is in the run that it comes in. -/
inductive Part where
  /-- It cannot be measured, is not displayed or is blank. -/
  | nothing
  | text (text : String)
  /-- It is displayed as its contents. -/
  | wrapper
  | box
  deriving DecidableEq

/-- The part of an element that was measured. -/
def BoxMeasure.part (m : BoxMeasure) : Part :=
  if m.isText then
    let text := Text.collapse (m.text.getD "")
    if text.isEmpty then .nothing else .text text
  else
    match (Style.ofMap m.style).display with
    | .none => .nothing
    | .contents => .wrapper
    | _ => .box

/-- The part of an element; one that cannot be measured has none. -/
def Provider.part (p : Provider) (h : Handle) : Part :=
  match p.measure h with
  | .error _ => .nothing
  | .ok m => m.part

section Part

variable {m : BoxMeasure} {p : Provider} {h : Handle}

/-- What decides about the part. -/
theorem BoxMeasure.part_cases (m : BoxMeasure) :
    (m.isText = true ∧ (Text.collapse (m.text.getD "")).isEmpty = true ∧ m.part = .nothing) ∨
    (m.isText = true ∧ (Text.collapse (m.text.getD "")).isEmpty = false ∧
      m.part = .text (Text.collapse (m.text.getD ""))) ∨
    (m.isText = false ∧ (Style.ofMap m.style).display = .none ∧ m.part = .nothing) ∨
    (m.isText = false ∧ (Style.ofMap m.style).display = .contents ∧ m.part = .wrapper) ∨
    m.isText = false ∧ (Style.ofMap m.style).display ≠ .none ∧
      (Style.ofMap m.style).display ≠ .contents ∧ m.part = .box := by
  rw [part]
  dsimp only
  cases m.isText with
  | false => cases (Style.ofMap m.style).display <;> simp
  | true => cases (Text.collapse (m.text.getD "")).isEmpty <;> simp

theorem BoxMeasure.part_eq_nothing_iff : m.part = .nothing ↔
    m.isText = true ∧ (Text.collapse (m.text.getD "")).isEmpty = true ∨
      m.isText = false ∧ (Style.ofMap m.style).display = .none := by
  rcases m.part_cases with h | h | h | h | h <;> simp [h]

theorem BoxMeasure.part_eq_text_iff {text : String} : m.part = .text text ↔
    m.isText = true ∧ (Text.collapse (m.text.getD "")).isEmpty = false ∧
      Text.collapse (m.text.getD "") = text := by
  rcases m.part_cases with h | h | h | h | h <;> simp [h]

theorem BoxMeasure.part_eq_wrapper_iff : m.part = .wrapper ↔
    m.isText = false ∧ (Style.ofMap m.style).display = .contents := by
  rcases m.part_cases with h | h | h | h | h <;> simp [h]

theorem BoxMeasure.part_eq_box_iff : m.part = .box ↔
    m.isText = false ∧ (Style.ofMap m.style).display ≠ .none ∧
      (Style.ofMap m.style).display ≠ .contents := by
  rcases m.part_cases with h | h | h | h | h <;> simp [h]

/-- What has a part has been measured. -/
theorem Provider.exists_measure {part : Part} (hpart : p.part h = part) (hne : part ≠ .nothing) :
    ∃ m, p.measure h = .ok m ∧ m.part = part := by
  rw [Provider.part] at hpart
  split at hpart
  · exact absurd hpart.symm hne
  · rename_i m hm
    exact ⟨m, hm, hpart⟩

end Part

/-- A box in a run. -/
inductive Box where
  | text (element : Handle) (text : String)
  | element (element : Handle)
  deriving DecidableEq

/-- The boxes that some elements come to in the run that they are in, and the boxes inside each
element that makes a box, there or further inside. `met` are the elements that have been met
before, and `met'` those that have been met afterwards. -/
inductive Flattens (p : Provider) :
    List Handle → List Handle → List Box → List (Handle × List Box) → List Handle → Prop
  | nil {met : List Handle} : Flattens p met [] [] [] met
  | again {met met' : List Handle} {h : Handle} {rest : List Handle} {boxes : List Box}
      {inside : List (Handle × List Box)} (old : h ∈ met)
      (others : Flattens p met rest boxes inside met') :
      Flattens p met (h :: rest) boxes inside met'
  | nothing {met met' : List Handle} {h : Handle} {rest : List Handle} {boxes : List Box}
      {inside : List (Handle × List Box)} (new : h ∉ met) (part : p.part h = .nothing)
      (others : Flattens p (h :: met) rest boxes inside met') :
      Flattens p met (h :: rest) boxes inside met'
  | text {met met' : List Handle} {h : Handle} {rest : List Handle} {boxes : List Box}
      {inside : List (Handle × List Box)} {text : String} (new : h ∉ met)
      (part : p.part h = .text text) (others : Flattens p (h :: met) rest boxes inside met') :
      Flattens p met (h :: rest) (.text h text :: boxes) inside met'
  | wrapper {met met₁ met' : List Handle} {h : Handle} {rest : List Handle}
      {own boxes : List Box} {inside₁ inside₂ : List (Handle × List Box)} (new : h ∉ met)
      (part : p.part h = .wrapper) (inner : Flattens p (h :: met) (p.children h) own inside₁ met₁)
      (others : Flattens p met₁ rest boxes inside₂ met') :
      Flattens p met (h :: rest) (own ++ boxes) (inside₁ ++ inside₂) met'
  | box {met met₁ met' : List Handle} {h : Handle} {rest : List Handle}
      {own boxes : List Box} {inside₁ inside₂ : List (Handle × List Box)} (new : h ∉ met)
      (part : p.part h = .box) (inner : Flattens p (h :: met) (p.children h) own inside₁ met₁)
      (others : Flattens p met₁ rest boxes inside₂ met') :
      Flattens p met (h :: rest) (.element h :: boxes) ((h, own) :: (inside₁ ++ inside₂)) met'

/-- How many elements are inside some elements, each with all its own. -/
def insideAll (p : Provider) (hs : List Handle) : Nat :=
  hs.foldr (fun h n ↦ (p.children h).length + n) 0

/-- A bound on the handles to be met inside elements that have not been met. -/
def potential (p : Provider) (met : List Handle) : Nat :=
  insideAll p (p.support.filter fun h ↦ !met.contains h)

section Potential

variable (p : Provider)

@[simp] theorem insideAll_nil : insideAll p [] = 0 := rfl

@[simp] theorem insideAll_cons (h : Handle) (hs : List Handle) :
    insideAll p (h :: hs) = (p.children h).length + insideAll p hs := rfl

theorem insideAll_le {hs hs' : List Handle} (h : hs.Sublist hs') :
    insideAll p hs ≤ insideAll p hs' := by
  induction h with
  | slnil => exact Nat.le_refl _
  | cons x _ ih =>
    rw [insideAll_cons]
    omega
  | cons_cons x _ ih =>
    rw [insideAll_cons, insideAll_cons]
    omega

/-- An element that is met for the first time takes its share out of a sum over others. -/
theorem insideAll_filter_cons_le {met : List Handle} {h : Handle} (hnew : h ∉ met)
    (hs : List Handle) :
    insideAll p (hs.filter fun x ↦ !(h :: met).contains x) +
        (if h ∈ hs then (p.children h).length else 0) ≤
      insideAll p (hs.filter fun x ↦ !met.contains x) := by
  induction hs with
  | nil => simp
  | cons x r ih =>
    by_cases hx : x = h
    · subst hx
      have hrest : 0 ≤ if x ∈ r then (p.children x).length else 0 := Nat.zero_le _
      simp [hnew] at ih ⊢
      omega
    · have hx' : ¬h = x := fun heq ↦ hx heq.symm
      by_cases hmet : x ∈ met <;> simp [hx, hx', hmet] at ih ⊢ <;> omega

/-- **What is inside an element is to be met once.** -/
theorem potential_cons {met : List Handle} {h : Handle} (hnew : h ∉ met) :
    potential p (h :: met) + (p.children h).length ≤ potential p met := by
  have hsum := insideAll_filter_cons_le p hnew p.support
  rw [potential, potential]
  split at hsum
  · exact hsum
  · rename_i hh
    rw [p.children_eq_nil h hh, List.length_nil]
    exact hsum

/-- The walk through a document is given as many steps as can be needed. -/
theorem potential_le_bound (root : Handle) :
    potential p [root] + (p.children root).length ≤ Ingest.bound p root := by
  have hfoldl : ∀ (l : List Handle) (n : Nat),
      l.foldl (fun n h ↦ n + (p.children h).length) n = n + insideAll p l := by
    intro l
    induction l with
    | nil => exact fun n ↦ rfl
    | cons h r ih =>
      intro n
      rw [List.foldl_cons, ih, insideAll_cons, Nat.add_assoc]
  have hsub : potential p [root] ≤ insideAll p p.support := insideAll_le p List.filter_sublist
  rw [Ingest.bound, hfoldl]
  omega

end Potential

namespace Flattens

variable {p : Provider} {met met' : List Handle} {hs : List Handle} {boxes : List Box}
  {inside : List (Handle × List Box)}

/-- What has been met stays met. -/
theorem subset (h : Flattens p met hs boxes inside met') : met ⊆ met' := by
  induction h with
  | nil => exact List.Subset.refl _
  | again _ _ ih => exact ih
  | nothing _ _ _ ih | text _ _ _ ih => exact fun x hx ↦ ih (List.mem_cons_of_mem _ hx)
  | wrapper _ _ _ _ ih₁ ih₂ | box _ _ _ _ ih₁ ih₂ =>
    exact fun x hx ↦ ih₂ (ih₁ (List.mem_cons_of_mem _ hx))

/-- **There is one flattening.** -/
theorem unique (h : Flattens p met hs boxes inside met') {boxes' : List Box}
    {inside' : List (Handle × List Box)} {met'' : List Handle}
    (h' : Flattens p met hs boxes' inside' met'') :
    boxes' = boxes ∧ inside' = inside ∧ met'' = met' := by
  induction h generalizing boxes' inside' met'' with
  | nil => cases h'; exact ⟨rfl, rfl, rfl⟩
  | again old _ ih =>
    cases h' with
    | again _ others => exact ih others
    | nothing new _ _ | text new _ _ | wrapper new _ _ _ | box new _ _ _ => exact absurd old new
  | nothing new part _ ih =>
    cases h' with
    | again old _ => exact absurd old new
    | nothing _ _ others => exact ih others
    | text _ part' _ | wrapper _ part' _ _ | box _ part' _ _ =>
      exact absurd (part.symm.trans part') (by simp)
  | text new part _ ih =>
    cases h' with
    | again old _ => exact absurd old new
    | text _ part' others =>
      obtain rfl := Part.text.inj (part.symm.trans part')
      obtain ⟨rfl, rfl, rfl⟩ := ih others
      exact ⟨rfl, rfl, rfl⟩
    | nothing _ part' _ | wrapper _ part' _ _ | box _ part' _ _ =>
      exact absurd (part.symm.trans part') (by simp)
  | wrapper new part _ _ ih₁ ih₂ =>
    cases h' with
    | again old _ => exact absurd old new
    | wrapper _ _ inner others =>
      obtain ⟨rfl, rfl, rfl⟩ := ih₁ inner
      obtain ⟨rfl, rfl, rfl⟩ := ih₂ others
      exact ⟨rfl, rfl, rfl⟩
    | nothing _ part' _ | text _ part' _ | box _ part' _ _ =>
      exact absurd (part.symm.trans part') (by simp)
  | box new part _ _ ih₁ ih₂ =>
    cases h' with
    | again old _ => exact absurd old new
    | box _ _ inner others =>
      obtain ⟨rfl, rfl, rfl⟩ := ih₁ inner
      obtain ⟨rfl, rfl, rfl⟩ := ih₂ others
      exact ⟨rfl, rfl, rfl⟩
    | nothing _ part' _ | text _ part' _ | wrapper _ part' _ _ =>
      exact absurd (part.symm.trans part') (by simp)

/-- There is less to be met afterwards. -/
theorem potential_le (h : Flattens p met hs boxes inside met') :
    potential p met' ≤ potential p met := by
  have hless : ∀ x, (!met'.contains x) = true → (!met.contains x) = true := by
    intro x hx
    simp only [Bool.not_eq_true', List.contains_eq_mem, decide_eq_false_iff_not] at hx ⊢
    exact fun hmem ↦ hx (h.subset hmem)
  exact insideAll_le p (List.monotone_filter_right p.support hless)

/-- **No element makes two boxes**, and none that was met before makes one. -/
theorem keys (h : Flattens p met hs boxes inside met') :
    (inside.map Prod.fst).Nodup ∧ ∀ x ∈ inside.map Prod.fst, x ∉ met ∧ x ∈ met' := by
  have hlater : ∀ {met met₁ : List Handle} {h : Handle} {keys : List Handle},
      (∀ x ∈ keys, x ∉ h :: met ∧ x ∈ met₁) → ∀ x ∈ keys, x ∉ met ∧ x ∈ met₁ :=
    fun hkeys x hx ↦ ⟨fun hmet ↦ (hkeys x hx).1 (List.mem_cons_of_mem _ hmet), (hkeys x hx).2⟩
  have happend : ∀ {met met₁ met' : List Handle} {hs rest own boxes inside₁ inside₂},
      Flattens p met hs own inside₁ met₁ → Flattens p met₁ rest boxes inside₂ met' →
      (inside₁.map Prod.fst).Nodup ∧ (∀ x ∈ inside₁.map Prod.fst, x ∉ met ∧ x ∈ met₁) →
      (inside₂.map Prod.fst).Nodup ∧ (∀ x ∈ inside₂.map Prod.fst, x ∉ met₁ ∧ x ∈ met') →
      ((inside₁ ++ inside₂).map Prod.fst).Nodup ∧
        ∀ x ∈ (inside₁ ++ inside₂).map Prod.fst, x ∉ met ∧ x ∈ met' := by
    intro met met₁ met' hs rest own boxes inside₁ inside₂ hinner hothers h₁ h₂
    rw [List.map_append]
    refine ⟨h₁.1.append h₂.1 fun x hx hx' ↦ (h₂.2 x hx').1 (h₁.2 x hx).2, fun x hx ↦ ?_⟩
    rcases List.mem_append.1 hx with hx | hx
    · exact ⟨(h₁.2 x hx).1, hothers.subset (h₁.2 x hx).2⟩
    · exact ⟨fun hmet ↦ (h₂.2 x hx).1 (hinner.subset hmet), (h₂.2 x hx).2⟩
  induction h with
  | nil => simp
  | again _ _ ih => exact ih
  | nothing _ _ _ ih | text _ _ _ ih => exact ⟨ih.1, hlater ih.2⟩
  | wrapper _ _ inner others ih₁ ih₂ =>
    obtain ⟨hnodup, hkeys⟩ := happend inner others ih₁ ih₂
    exact ⟨hnodup, hlater hkeys⟩
  | @box met met₁ met' h _ _ _ _ _ new _ inner others ih₁ ih₂ =>
    obtain ⟨hnodup, hkeys⟩ := happend inner others ih₁ ih₂
    refine ⟨List.nodup_cons.2 ⟨fun hmem ↦ (hkeys h hmem).1 List.mem_cons_self, hnodup⟩,
      fun x hx ↦ ?_⟩
    rcases List.mem_cons.1 hx with rfl | hx
    · exact ⟨new, others.subset (inner.subset List.mem_cons_self)⟩
    · exact hlater hkeys x hx

/-- **What is said of an element inside is a flattening**, after what has been met up to there. -/
theorem of_mem_inside (h : Flattens p met hs boxes inside met') {x : Handle} {own : List Box}
    (hx : (x, own) ∈ inside) :
    ∃ met₀ inside₀ met₁, x ∈ met₀ ∧ Flattens p met₀ (p.children x) own inside₀ met₁ := by
  induction h with
  | nil => exact absurd hx List.not_mem_nil
  | again _ _ ih | nothing _ _ _ ih | text _ _ _ ih => exact ih hx
  | wrapper _ _ _ _ ih₁ ih₂ => exact (List.mem_append.1 hx).elim ih₁ ih₂
  | @box met met₁ met' h _ _ _ inside₁ _ _ _ inner _ ih₁ ih₂ =>
    rcases List.mem_cons.1 hx with heq | hx
    · obtain ⟨rfl, rfl⟩ := Prod.mk.inj heq
      exact ⟨x :: met, inside₁, met₁, List.mem_cons_self, inner⟩
    · exact (List.mem_append.1 hx).elim ih₁ ih₂

end Flattens

/-- **Every list of handles has a flattening.** -/
theorem exists_flattens (p : Provider) (met hs : List Handle) :
    ∃ boxes inside met', Flattens p met hs boxes inside met' := by
  -- what is inside an element is met at the expense of the potential
  induction hn : potential p met + hs.length using Nat.strongRecOn generalizing met hs with
  | _ n ih =>
    subst hn
    cases hs with
    | nil => exact ⟨[], [], met, .nil⟩
    | cons h rest =>
      have hlength : (h :: rest).length = rest.length + 1 := rfl
      by_cases hold : h ∈ met
      · obtain ⟨boxes, inside, met', hothers⟩ := ih _ (by omega) met rest rfl
        exact ⟨boxes, inside, met', .again hold hothers⟩
      have hless := potential_cons p hold
      have hnested : ∃ own inside₁ met₁ boxes inside₂ met',
          Flattens p (h :: met) (p.children h) own inside₁ met₁ ∧
            Flattens p met₁ rest boxes inside₂ met' := by
        obtain ⟨own, inside₁, met₁, hinner⟩ := ih _ (by omega) (h :: met) (p.children h) rfl
        have hle := hinner.potential_le
        obtain ⟨boxes, inside₂, met', hothers⟩ := ih _ (by omega) met₁ rest rfl
        exact ⟨own, inside₁, met₁, boxes, inside₂, met', hinner, hothers⟩
      have hplain : ∃ boxes inside met', Flattens p (h :: met) rest boxes inside met' :=
        ih _ (by omega) (h :: met) rest rfl
      cases hpart : p.part h with
      | nothing =>
        obtain ⟨boxes, inside, met', hothers⟩ := hplain
        exact ⟨boxes, inside, met', .nothing hold hpart hothers⟩
      | text text =>
        obtain ⟨boxes, inside, met', hothers⟩ := hplain
        exact ⟨.text h text :: boxes, inside, met', .text hold hpart hothers⟩
      | wrapper =>
        obtain ⟨own, inside₁, met₁, boxes, inside₂, met', hinner, hothers⟩ := hnested
        exact ⟨_, _, met', .wrapper hold hpart hinner hothers⟩
      | box =>
        obtain ⟨own, inside₁, met₁, boxes, inside₂, met', hinner, hothers⟩ := hnested
        exact ⟨_, _, met', .box hold hpart hinner hothers⟩

/-- The boxes of a document: for its root and every element that makes a box, the boxes inside. -/
def Provider.Lays (p : Provider) (root : Handle) (layout : List (Handle × List Box)) : Prop :=
  ∃ boxes inside met, Flattens p [root] (p.children root) boxes inside met ∧
    layout = (root, boxes) :: inside

namespace Provider.Lays

variable {p : Provider} {root : Handle} {layout : List (Handle × List Box)}

/-- **The boxes inside each element are a flattening of what the provider has inside.** -/
theorem flattens (h : p.Lays root layout) {x : Handle} {boxes : List Box}
    (hx : (x, boxes) ∈ layout) :
    ∃ met inside met', x ∈ met ∧ Flattens p met (p.children x) boxes inside met' := by
  obtain ⟨own, inside, met, hflat, rfl⟩ := h
  rcases List.mem_cons.1 hx with heq | hx
  · obtain ⟨rfl, rfl⟩ := Prod.mk.inj heq
    exact ⟨[x], inside, met, List.mem_singleton_self x, hflat⟩
  · exact hflat.of_mem_inside hx

/-- Nothing is said twice. -/
theorem nodup (h : p.Lays root layout) : (layout.map Prod.fst).Nodup := by
  obtain ⟨own, inside, met, hflat, rfl⟩ := h
  obtain ⟨hnodup, hkeys⟩ := hflat.keys
  exact List.nodup_cons.2 ⟨fun hmem ↦ (hkeys root hmem).1 (List.mem_singleton_self root), hnodup⟩

/-- **A document is laid out in one way.** -/
theorem unique (h : p.Lays root layout) {layout' : List (Handle × List Box)}
    (h' : p.Lays root layout') : layout' = layout := by
  obtain ⟨own, inside, met, hflat, rfl⟩ := h
  obtain ⟨own', inside', met', hflat', rfl⟩ := h'
  obtain ⟨rfl, rfl, -⟩ := hflat.unique hflat'
  rfl

end Provider.Lays

/-- Every document is laid out. -/
theorem Provider.exists_lays (p : Provider) (root : Handle) : ∃ layout, p.Lays root layout := by
  obtain ⟨boxes, inside, met, hflat⟩ := exists_flattens p [root] (p.children root)
  exact ⟨(root, boxes) :: inside, boxes, inside, met, hflat, rfl⟩

end ViewCompiler
