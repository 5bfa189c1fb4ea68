import ViewCompiler.Proofs.Convert.Consulting
import ViewCompiler.Proofs.Layout.ClassificationOrder

/-!
# Decisions of a conversion

`Answered` is `Consulted` for a list of answers, the latest first, and `Answers` lists them as the
conversion goes on. The nodes of a document are decided on one after another, and each finds what
`Consulted.exists_decideNode` needs: the deepest nodes come first, so the node whose run it is in
comes later, and different documents have no node in common.

A conversion may be told to stop before each document, which is left out then. So what is decided on
in the end is the run with the documents that are left (`Concluded`), and `exists_concluded` says
that every conversion gets there.
-/

namespace ViewCompiler

open NodeTree

variable {σ : Type} {h : Host σ} {π : Policy}

namespace Decided

/-- Deciding on a document comes to its end, if the conversion is to go on. -/
def Settles (h : Host σ) (layout : LayoutConfig) (d : Decided σ) (e : DocumentEntry) : Prop :=
  (d.run.poll h).1 = false →
    ∃ d', { d with run := (d.run.poll h).2 }.decideDocument h layout e = (.ok (), d')

/-- Deciding on documents one after another comes to its end. -/
def SettlesAll (h : Host σ) (layout : LayoutConfig) : List DocumentEntry → Decided σ → Prop
  | [], _ => True
  | e :: r, d => d.Settles h layout e ∧ SettlesAll h layout r (d.document h layout e)

end Decided

/-- What holds after some answers. -/
def Answered (π : Policy) (l : Answers) (moved : List (NodeId × NodeId)) (r : Run σ)
    (d : Decided σ) : Prop :=
  Consulted π l.about (l.map Prod.fst) moved r d

namespace Answered

variable {l : Answers} {moved : List (NodeId × NodeId)} {r : Run σ} {d : Decided σ}

/-- **The next answer.** -/
theorem exists_decideNode (hh : h.Obeys π) (layout : LayoutConfig) (name : String)
    (hd : Answered π l moved r d) {x : NodeId} {k : NodeKind}
    (hkind : r.context.tree.kind? x = some k)
    (hgroup : k ≠ .group) (hhost : k ≠ .host) (hx : x ∉ l.map Prod.fst)
    (hparent : ∀ p, r.context.tree.documentParent? x = some p → p ∉ l.map Prod.fst) :
    ∃ d' moved', d.decideNode h layout name x = (.ok (), d') ∧
      Answered π ((x, h.answer .beforeClassify (some x) d.run) :: l) moved' r d' := by
  refine Consulted.exists_decideNode hh layout name (hd.congr fun y hy ↦ ?_) hkind hgroup hhost hx
    hparent ?_
  · have hne : y ≠ x := fun heq ↦ hx (heq ▸ hy)
    rw [Answers.about_cons, if_neg hne]
  · rw [Answers.about_cons, if_pos rfl, Run.fst_dispatch]

/-- **Nodes are decided on one after another**, the deepest first. -/
theorem exists_decideAll (hh : h.Obeys π) (layout : LayoutConfig) (name : String)
    {xs : List NodeId} (hd : Answered π l moved r d) (hnodup : xs.Nodup)
    (hdeepest : xs.Pairwise fun a b ↦ r.context.tree.depthOf b ≤ r.context.tree.depthOf a)
    (hkind : ∀ x ∈ xs, ∃ k, r.context.tree.kind? x = some k ∧ k ≠ .group ∧ k ≠ .host)
    (hnew : ∀ x ∈ xs, x ∉ l.map Prod.fst)
    (hparent : ∀ x ∈ xs, ∀ p, r.context.tree.documentParent? x = some p →
      p ∉ l.map Prod.fst ∧ r.context.tree.depthOf p < r.context.tree.depthOf x) :
    ∃ d' moved', d.decideAll h layout name xs = (.ok (), d') ∧
      Answered π (d.answersOn h layout name xs l) moved' r d' ∧
      ∀ x, x ∈ (d.answersOn h layout name xs l).map Prod.fst ↔ x ∈ xs ∨ x ∈ l.map Prod.fst := by
  induction xs generalizing l moved d with
  | nil => exact ⟨d, moved, rfl, hd, fun x ↦ by simp [Decided.answersOn]⟩
  | cons x xs ih =>
    obtain ⟨hx, hnodup⟩ := List.nodup_cons.1 hnodup
    obtain ⟨hdeep, hdeepest⟩ := List.pairwise_cons.1 hdeepest
    obtain ⟨k, hk, hgroup, hhost⟩ := hkind x List.mem_cons_self
    obtain ⟨d₁, moved₁, hok, hd₁⟩ := hd.exists_decideNode hh layout name hk hgroup hhost
      (hnew x List.mem_cons_self) fun p hp ↦ (hparent x List.mem_cons_self p hp).1
    have hnew' : ∀ y ∈ xs, y ∉ x :: l.map Prod.fst := fun y hy hmem ↦ by
      rcases List.mem_cons.1 hmem with heq | hmem
      · exact hx (heq ▸ hy)
      · exact hnew y (List.mem_cons_of_mem _ hy) hmem
    have hparent' : ∀ y ∈ xs, ∀ p, r.context.tree.documentParent? y = some p →
        p ∉ x :: l.map Prod.fst ∧
          r.context.tree.depthOf p < r.context.tree.depthOf y := fun y hy p hp ↦ by
      obtain ⟨hnot, hlt⟩ := hparent y (List.mem_cons_of_mem _ hy) p hp
      refine ⟨fun hmem ↦ ?_, hlt⟩
      rcases List.mem_cons.1 hmem with heq | hmem
      · exact absurd (hdeep y hy) (Nat.not_le.2 (heq ▸ hlt))
      · exact hnot hmem
    obtain ⟨d', moved', hrest, hd', hkeys⟩ := ih hd₁ hnodup hdeepest
      (fun y hy ↦ hkind y (List.mem_cons_of_mem _ hy)) hnew' hparent'
    refine ⟨d', moved', by rw [Decided.decideAll, hok]; exact hrest, ?_⟩
    rw [Decided.answersOn, hok]
    refine ⟨hd', fun y ↦ (hkeys y).trans ?_⟩
    rw [List.map_cons, List.mem_cons, List.mem_cons, or_left_comm, or_assoc]

theorem new (hr : r.context.Ingested) : Answered π [] [] r (.new r) where
  arranged := .of_sown hr.sown
  saved _ he := absurd he List.not_mem_nil
  replacements _ := rfl
  allowed _ hx := absurd hx List.not_mem_nil
  answered _ _ hx := absurd hx List.not_mem_nil
  carried _ hx := absurd hx List.not_mem_nil
  hosts name p hp := by
    rw [Decided.new, hr.hosts] at hp
    exact absurd hp (by simp)
  distinct name name' p hp := by
    rw [Decided.new, hr.hosts] at hp
    exact absurd hp (by simp)
  extended := .of_links fun _ ↦ rfl
  documents := rfl
  filled := hr.filled
  nodup := .nil

/-- The nodes of a document that have a run, the deepest first, are known before the first answer:
what has been added since has no run. -/
theorem exists_classificationOrder (hd : Answered π l moved r d) (hr : Sown r.context.tree)
    {root : NodeId} (hroot : r.context.tree.kind? root = some .root) :
    ∃ xs, d.run.context.tree.classificationOrder root = .ok xs ∧ xs.Nodup ∧
      (∀ y, y ∈ xs ↔ Inside r.context.tree.layoutRun root y ∧ r.context.tree.layoutRun y ≠ []) ∧
      xs.Pairwise fun a b ↦ r.context.tree.depthOf b ≤ r.context.tree.depthOf a := by
  have hlt := lt_size_of_kind? hroot
  obtain ⟨xs, hxs, hnodup, hmem, hdeepest⟩ := hd.arranged.forest.exists_classificationOrder
    (Nat.lt_of_lt_of_le hlt hd.extended.size_le)
    (hd.arranged.excluded_of_isTop (hd.extended.kind?_eq hroot) rfl)
  simp only [hd.extended.layoutRun_eq] at hmem
  refine ⟨xs, hxs, hnodup, hmem, hdeepest.imp_of_mem fun {a b} ha hb hab ↦ ?_⟩
  have hdepth : ∀ {y}, y ∈ xs → d.run.context.tree.depthOf y = r.context.tree.depthOf y :=
    fun hy ↦ hd.extended.depthOf_eq (hr.forest.lt_size_of_inside hlt ((hmem _).1 hy).1)
  rwa [hdepth ha, hdepth hb] at hab

/-- **The nodes of a document are decided on**, all of them. They have not been asked about, since
the documents so far are others. -/
theorem exists_decideDocument (hh : h.Obeys π) (layout : LayoutConfig) (hr : Sown r.context.tree)
    (hd : Answered π l moved r d) (done : List NodeId)
    (hdone : ∀ y ∈ l.map Prod.fst, ∃ q ∈ done, Inside r.context.tree.layoutRun q y)
    (hroots : ∀ q ∈ done, r.context.tree.kind? q = some .root) {e : DocumentEntry}
    (he : r.context.tree.kind? e.root = some .root) (hnew : e.root ∉ done) :
    ∃ xs d' moved', d.run.context.tree.classificationOrder e.root = .ok xs ∧
      d.decideDocument h layout e = (.ok (), d') ∧
      Answered π (d.answersOn h layout e.name xs l) moved' r d' ∧
      ∀ y, y ∈ (d.answersOn h layout e.name xs l).map Prod.fst ↔
        (Inside r.context.tree.layoutRun e.root y ∧ r.context.tree.layoutRun y ≠ []) ∨
          y ∈ l.map Prod.fst := by
  obtain ⟨xs, hxs, hnodup, hmem, hdeepest⟩ := hd.exists_classificationOrder hr he
  have houter : ∀ {q}, r.context.tree.kind? q = some .root →
      ∀ p, q ∉ r.context.tree.layoutRun p := by
    intro q hq p hp
    rcases hr.forest.kind?_of_mem hp with hk | hk <;> exact absurd (hk.symm.trans hq) (by decide)
  -- a node inside two roots would make them one
  have hdisjoint : ∀ {y}, Inside r.context.tree.layoutRun e.root y → y ∉ l.map Prod.fst := by
    intro y hy hmem
    obtain ⟨q, hq, hin⟩ := hdone y hmem
    have heq := eq_of_inside_outermost hr.forest.forest.parent (houter (hroots q hq)) (houter he)
      hin hy
    exact hnew (heq ▸ hq)
  have hparent : ∀ x ∈ xs, ∀ p, r.context.tree.documentParent? x = some p →
      p ∉ l.map Prod.fst ∧ r.context.tree.depthOf p < r.context.tree.depthOf x := by
    intro x hx p hp
    rcases Relation.ReflTransGen.cases_tail ((hmem x).1 hx).1 with rfl | ⟨q, hin, hq⟩
    · have hnone := (Arranged.of_sown hr).documentParent?_of_isTop he rfl
      exact absurd (hnone.symm.trans hp) (by simp)
    · obtain rfl := Option.some.inj ((hr.forest.documentParent hq).symm.trans hp)
      exact ⟨hdisjoint hin, hr.forest.depth_eq hq ▸ Nat.lt_succ_self _⟩
  obtain ⟨d', moved', hok, hd', hkeys⟩ := hd.exists_decideAll hh layout e.name hnodup hdeepest
    (fun x hx ↦ hr.forest.kind?_of_inside he ((hmem x).1 hx).1)
    (fun x hx ↦ hdisjoint ((hmem x).1 hx).1) hparent
  refine ⟨xs, d', moved', hxs, ?_, hd', fun y ↦ (hkeys y).trans (or_congr_left (hmem y))⟩
  rw [Decided.decideDocument, hxs]
  exact hok

/-- **A document is decided on**, if the conversion is to go on. -/
theorem document (hh : h.Obeys π) (layout : LayoutConfig) (hr : Sown r.context.tree)
    (hd : Answered π l moved r d) (done : List NodeId)
    (hdone : ∀ y ∈ l.map Prod.fst, ∃ q ∈ done, Inside r.context.tree.layoutRun q y)
    (hroots : ∀ q ∈ done, r.context.tree.kind? q = some .root) {e : DocumentEntry}
    (he : r.context.tree.kind? e.root = some .root) (hnew : e.root ∉ done)
    (hpoll : (d.run.poll h).1 = false) :
    d.Settles h layout e ∧
      (∃ moved', Answered π (d.answersIn h layout e l) moved' r (d.document h layout e)) ∧
      ∀ y, y ∈ (d.answersIn h layout e l).map Prod.fst ↔
        (Inside r.context.tree.layoutRun e.root y ∧ r.context.tree.layoutRun y ≠ []) ∨
          y ∈ l.map Prod.fst := by
  obtain ⟨s, hs⟩ := Run.exists_poll h d.run
  rw [hs] at hpoll
  rw [show (h.cancelled d.run.host).1 = false from hpoll] at hs
  have hd₁ : Answered π l moved r { d with run := ⟨d.run.context, s⟩ } := hd.of_unmoved (.refl _) s
  obtain ⟨xs, d', moved', hxs, hok, hd', hkeys⟩ :=
    hd₁.exists_decideDocument hh layout hr done hdone hroots he hnew
  rw [Decided.Settles, Decided.document, Decided.answersIn, hs]
  simp only [hxs, hok]
  exact ⟨fun _ ↦ ⟨d', rfl⟩, ⟨moved', hd'⟩, hkeys⟩

/-- **A document is left out** if the conversion is to stop. -/
theorem document_of_poll (hd : Answered π l moved r d) (layout : LayoutConfig) (e : DocumentEntry)
    (hpoll : (d.run.poll h).1 = true) :
    Answered π l moved (r.modify fun c ↦ c.removeDocument e.root) (d.document h layout e) ∧
      d.answersIn h layout e l = l := by
  obtain ⟨s, hs⟩ := Run.exists_poll h d.run
  rw [hs] at hpoll
  rw [show (h.cancelled d.run.host).1 = true from hpoll] at hs
  rw [Decided.document, Decided.answersIn, hs]
  exact ⟨(hd.of_unmoved (Context.unmoved_report _ (by rfl)) s).removeDocument e.root, rfl⟩

end Answered

/-- What holds when the documents of a run have been decided on, up to those that have been left out
because the conversion was to stop: `kept` is the run with the others. -/
structure Concluded (π : Policy) (h : Host σ) (l : Answers) (moved : List (NodeId × NodeId))
    (r kept : Run σ) (d : Decided σ) : Prop where
  answered : Answered π l moved kept d
  ingested : kept.context.Ingested
  tree : kept.context.tree = r.context.tree
  documents : kept.context.documents ⊆ r.context.documents
  all : (∀ s, (h.cancelled s).1 = false) → kept = r
  /-- The nodes asked about are those that have a run. -/
  asked : ∀ y, y ∈ l.map Prod.fst ↔ ∃ e ∈ kept.context.documents,
    Inside kept.context.tree.layoutRun e.root y ∧ kept.context.tree.layoutRun y ≠ []

/-- The nodes asked about, in the run that is decided on. -/
theorem Concluded.mem_answers_iff {l : Answers} {moved : List (NodeId × NodeId)} {r kept : Run σ}
    {d : Decided σ} (hd : Concluded π h l moved r kept d) (n : NodeId) :
    n ∈ l.map Prod.fst ↔ ∃ e ∈ d.run.context.documents,
      Inside d.run.context.tree.layoutRun e.root n ∧ d.run.context.tree.layoutRun n ≠ [] := by
  rw [hd.asked, hd.answered.documents, hd.answered.extended.layoutRun_eq]

/-- Documents are decided on one after another. -/
theorem settles_and_concluded (hh : h.Obeys π) (layout : LayoutConfig)
    {rest : List DocumentEntry} (done : List DocumentEntry) {r : Run σ} {l : Answers}
    {moved : List (NodeId × NodeId)} {d : Decided σ} (hr : r.context.Ingested)
    (hall : done ++ rest = r.context.documents) (hd : Answered π l moved r d)
    (hasked : ∀ y, y ∈ l.map Prod.fst ↔ ∃ e ∈ done,
      Inside r.context.tree.layoutRun e.root y ∧ r.context.tree.layoutRun y ≠ []) :
    Decided.SettlesAll h layout rest d ∧
      ∃ moved' kept, Concluded π h (Decided.answers h layout rest d l) moved' r kept
        (rest.foldl (Decided.document h layout) d) := by
  induction rest generalizing done r l moved d with
  | nil =>
    rw [List.append_nil] at hall
    exact ⟨trivial, moved, r, hd, hr, rfl, List.Subset.refl _, fun _ ↦ rfl, hall ▸ hasked⟩
  | cons e rest ih =>
    have hmem : ∀ e' ∈ done ++ e :: rest, r.context.tree.kind? e'.root = some .root :=
      fun e' he' ↦ hr.roots e' (hall ▸ he')
    have hnodup := hr.nodup
    rw [← hall, List.map_append, List.map_cons] at hnodup
    obtain ⟨-, hrest, hdisjoint⟩ := List.nodup_append'.1 hnodup
    cases hpoll : (d.run.poll h).1 with
    | true =>
      obtain ⟨hd', heq⟩ := hd.document_of_poll layout e hpoll
      have hdone : ∀ e' ∈ done, e'.root ≠ e.root := fun e' he' hroot ↦
        hdisjoint (List.mem_map_of_mem he') (hroot ▸ List.mem_cons_self)
      have hlater : ∀ e' ∈ rest, e'.root ≠ e.root := fun e' he' hroot ↦
        (List.nodup_cons.1 hrest).1 (hroot ▸ List.mem_map_of_mem he')
      have hleft : done ++ rest = (r.context.removeDocument e.root).documents := by
        rw [Context.removeDocument, ← hall, List.filter_append,
          List.filter_cons_of_neg (by simp), List.filter_eq_self.2 (by simpa using hdone),
          List.filter_eq_self.2 (by simpa using hlater)]
      obtain ⟨hsettles, moved', kept, hkept⟩ := ih done (hr.removeDocument e.root) hleft hd' hasked
      rw [Decided.answers, heq]
      refine ⟨⟨fun hgoes ↦ absurd (hpoll.symm.trans hgoes) (by simp), hsettles⟩, moved', kept,
        hkept.answered, hkept.ingested, hkept.tree,
        List.Subset.trans hkept.documents List.filter_sublist.subset, fun hruns ↦ ?_, hkept.asked⟩
      exact absurd (hpoll.symm.trans (hruns _)) (by simp)
    | false =>
      obtain ⟨hfirst, ⟨moved', hd'⟩, hasked'⟩ := hd.document hh layout hr.sown
        (done.map DocumentEntry.root) (fun y hy ↦ by
          obtain ⟨e', he', hin, -⟩ := (hasked y).1 hy
          exact ⟨e'.root, List.mem_map_of_mem he', hin⟩)
        (fun q hq ↦ by
          obtain ⟨e', he', rfl⟩ := List.mem_map.1 hq
          exact hmem e' (List.mem_append_left _ he'))
        (hmem e (List.mem_append_right _ List.mem_cons_self))
        (fun hin ↦ hdisjoint hin List.mem_cons_self) hpoll
      obtain ⟨hsettles, hrest⟩ := ih (done ++ [e]) hr (by rw [List.append_assoc]; exact hall) hd'
        fun y ↦ by
          rw [hasked', hasked]
          simp [or_comm, or_and_right, exists_or]
      exact ⟨⟨hfirst, hsettles⟩, hrest⟩

/-- **All documents are decided on**, but for those that are left out. -/
theorem exists_concluded (hh : h.Obeys π) (layout : LayoutConfig) {r : Run σ}
    (hr : r.context.Ingested) :
    ∃ moved kept, Concluded π h (Decided.answers h layout r.context.documents (.new r) []) moved r
      kept (Decided.documents h layout r) :=
  (settles_and_concluded hh layout [] hr rfl (.new hr) (by simp)).2

/-- **Deciding fails on no document.** -/
theorem settlesAll_documents (hh : h.Obeys π) (layout : LayoutConfig) {r : Run σ}
    (hr : r.context.Ingested) : Decided.SettlesAll h layout r.context.documents (.new r) :=
  (settles_and_concluded hh layout [] hr rfl (.new hr) (by simp)).1

end ViewCompiler
