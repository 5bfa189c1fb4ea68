import ViewCompiler.Proofs.Convert.Answers
import ViewCompiler.Proofs.Convert.Documents
import ViewCompiler.Proofs.Layout.Arranging
import ViewCompiler.Proofs.SortedMap

/-!
# Decisions on single nodes

`Consulted` is what holds while the extensions are asked about the nodes of the documents, in terms
of the answers that the whole conversion gets, for extensions that obey some policy: the tree is
arranged for the nodes that have been moved and for those that are not replaced (`settledIn`), among
the nodes asked about so far. A node is moved as has been answered, unless there is no node where it
was to be moved; then that is reported (`Context.Refuses`).

One node keeps it, if neither it nor the node whose run it is in has been asked about
(`Consulted.exists_decideNode`). The answers differ in what is done about the node before its run is
classified; `Consulted.cons` is what they have in common.
-/

namespace ViewCompiler

open NodeTree

variable {σ : Type} {h : Host σ} {π : Policy}

/-- Orders of output that hold as far as they go. -/
def Saved (t : NodeTree) (orders : List (NodeId × List NodeId)) : Prop :=
  ∀ e ∈ orders, t.Ordered e.1 e.2

theorem Saved.widen {t t' : NodeTree} {orders : List (NodeId × List NodeId)} (h : Saved t orders)
    (hw : Widened t t') : Saved t' orders := fun e he ↦ (h e he).widen hw

namespace Decided

/-! ### Taking decisions over -/

/-- A decision with an order of output. -/
def savedOrder (e : LayoutDecision) : List (NodeId × List NodeId) :=
  (e.reorder.map fun order ↦ (e.owner, order)).toList

theorem order_of_mem_savedOrder {e : LayoutDecision} {s : NodeId × List NodeId}
    (hs : s ∈ savedOrder e) : s.1 = e.owner ∧ s.2 = e.outputOrder := by
  obtain ⟨order, horder, rfl⟩ := Option.map_eq_some_iff.1 (Option.mem_toList.1 hs)
  exact ⟨rfl, by rw [LayoutDecision.outputOrder, horder, Option.getD_some]⟩

theorem exists_record (hh : h.Obeys π) (name : String) (d : Decided σ) (e : LayoutDecision) :
    ∃ c s, record h name d e = ⟨⟨c, s⟩, d.replacements, d.orders ++ savedOrder e⟩ ∧
      Context.Unmoved d.run.context c := by
  rw [record]
  split
  · obtain ⟨s, hs⟩ := Run.exists_notify hh .afterClassify (by simp) (some name) (some e.owner)
      (d.run.modify fun c ↦ c.warn .degenerate (some name) (some e.owner)
        (toString e.members.length ++ " member(s) fell back to a frame"))
    exact ⟨_, s, by rw [Decided.modify, hs]; rfl, Context.unmoved_report _ (by rfl)⟩
  · obtain ⟨s, hs⟩ := Run.exists_notify hh .afterClassify (by simp) (some name) (some e.owner)
      d.run
    exact ⟨_, s, by rw [hs]; rfl, .refl _⟩

theorem exists_recordAll (hh : h.Obeys π) (name : String) (ds : List LayoutDecision)
    (d : Decided σ) :
    ∃ c s, ds.foldl (record h name) d =
        ⟨⟨c, s⟩, d.replacements, d.orders ++ ds.flatMap savedOrder⟩ ∧
      Context.Unmoved d.run.context c := by
  induction ds generalizing d with
  | nil => exact ⟨d.run.context, d.run.host, by simp, .refl _⟩
  | cons e r ih =>
    obtain ⟨c, s, hrecord, hu⟩ := exists_record hh name d e
    obtain ⟨c', s', hrest, hu'⟩ := ih (record h name d e)
    rw [hrecord] at hrest hu'
    exact ⟨c', s', by rw [List.foldl_cons, hrecord, hrest]; simp, hu.trans hu'⟩

/-- **The run of a node is classified**, and the orders of output are recorded. -/
theorem exists_classify (hh : h.Obeys π) (layout : LayoutConfig) (name : String)
    {d : Decided σ} {moved : List (NodeId × NodeId)} {settled : List NodeId}
    (ha : Arranged moved settled d.run.context.tree) (hs : Saved d.run.context.tree d.orders)
    {x : NodeId} {k : NodeKind} (hkind : d.run.context.tree.kind? x = some k) (hgroup : k ≠ .group)
    (hhost : k ≠ .host) :
    ∃ d' t, d.classify h layout name x = (.ok (), d') ∧
      Context.Unmoved { d.run.context with tree := t } d'.run.context ∧
      Extended d.run.context.tree t ∧ Arranged moved (x :: settled) t ∧
      Saved t d'.orders ∧ d'.replacements = d.replacements := by
  obtain ⟨ds, t, hrun, harranged, hext, hwidened, hdecided⟩ :=
    ha.exists_run layout hkind hgroup hhost
  obtain ⟨c, s, hrecord, hu⟩ :=
    exists_recordAll hh name ds (d.modify fun c ↦ { c with tree := t })
  refine ⟨⟨⟨c, s⟩, d.replacements, d.orders ++ ds.flatMap savedOrder⟩, t, ?_, hu, hext, harranged,
    fun e he ↦ ?_, rfl⟩
  · rw [classify, hrun]
    exact congrArg (Prod.mk (Except.ok ())) hrecord
  rcases List.mem_append.1 he with he | he
  · exact hs.widen hwidened e he
  · obtain ⟨e', he', hmem⟩ := List.mem_flatMap.1 he
    obtain ⟨howner, horder⟩ := order_of_mem_savedOrder hmem
    rw [howner, horder]
    exact hdecided e' he'

end Decided

/-! ### One node -/

/-- The nodes among some that are not replaced. -/
def settledIn (ans : NodeId → HookAction) (asked : List NodeId) : List NodeId :=
  asked.filter fun x ↦ (ans x).replacement?.isNone

section

variable {ans : NodeId → HookAction} {asked : List NodeId} {x : NodeId}

theorem mem_settledIn :
    x ∈ settledIn ans asked ↔ x ∈ asked ∧ (ans x).replacement? = none := by
  simp [settledIn]

theorem settledIn_cons_of_none (h : (ans x).replacement? = none) :
    settledIn ans (x :: asked) = x :: settledIn ans asked :=
  List.filter_cons_of_pos (by simp [h])

theorem settledIn_cons_of_some {text : String} (h : (ans x).replacement? = some text) :
    settledIn ans (x :: asked) = settledIn ans asked :=
  List.filter_cons_of_neg (by simp [h])

end

/-- A report names a node. -/
def Context.Names (c : Context) (x : NodeId) : Prop := ∃ e ∈ c.diagnostics, e.node = some x

/-- A move that was allowed, though not to a host, could not be carried out and is reported. -/
def Context.Refuses (π : Policy) (c : Context) (x p : NodeId) : Prop :=
  c.Names x ∧ ∃ c' : Context, π.allows c' (.redirect p) ∧ ∀ name, c'.hosts.get? name ≠ some p

/-- What comes of an answer about a node for the list of moves. -/
inductive Carries (π : Policy) (c : Context) (x : NodeId) (action : HookAction)
    (moved : List (NodeId × NodeId)) : List (NodeId × NodeId) → Prop
  | stays (htarget : action.target? = none) : Carries π c x action moved moved
  | refused (p : NodeId) (htarget : action.target? = some p) (hrefused : c.Refuses π x p) :
    Carries π c x action moved moved
  | moved (p : NodeId) (htarget : action.target? = some p) :
    Carries π c x action moved ((x, p) :: moved)

theorem Context.Refuses.of_subset {c c' : Context} {x p : NodeId} (h : c.Refuses π x p)
    (hkept : c.diagnostics ⊆ c'.diagnostics) : c'.Refuses π x p :=
  h.imp_left fun ⟨e, he, hnode⟩ ↦ ⟨e, hkept he, hnode⟩

/-- What holds while extensions are asked about nodes, in terms of all answers of the conversion. -/
structure Consulted (π : Policy) (ans : NodeId → HookAction) (asked : List NodeId)
    (moved : List (NodeId × NodeId)) (r : Run σ) (d : Decided σ) : Prop where
  arranged : Arranged moved (settledIn ans asked) d.run.context.tree
  saved : Saved d.run.context.tree d.orders
  replacements : ∀ x, d.replacements.get? x = if x ∈ asked then (ans x).replacement? else none
  allowed : ∀ x ∈ asked, π.allows d.run.context (ans x)
  answered : ∀ x p, (x, p) ∈ moved → x ∈ asked ∧ (ans x).target? = some p
  carried : ∀ x ∈ asked, ∀ p, (ans x).target? = some p →
    (x, p) ∈ moved ∨ d.run.context.Refuses π x p
  hosts : ∀ name p, d.run.context.hosts.get? name = some p →
    d.run.context.tree.kind? p = some .host
  distinct : ∀ name name' p, d.run.context.hosts.get? name = some p →
    d.run.context.hosts.get? name' = some p → name = name'
  extended : Extended r.context.tree d.run.context.tree
  documents : d.run.context.documents = r.context.documents
  filled : d.run.context.Filled
  nodup : asked.Nodup

namespace Consulted

variable {ans : NodeId → HookAction} {asked : List NodeId} {moved : List (NodeId × NodeId)}
  {r : Run σ} {d : Decided σ}

theorem of_unmoved (hd : Consulted π ans asked moved r d) {c : Context}
    (hu : Context.Unmoved d.run.context c) (s : σ) :
    Consulted π ans asked moved r { d with run := ⟨c, s⟩ } where
  arranged := hd.arranged.of_unmoved hu.tree
  saved := hd.saved.widen hu.tree.widened
  replacements := hd.replacements
  allowed x hx := π.lasts (fun _ _ hp ↦ hu.hosts ▸ hp) (hd.allowed x hx)
  answered := hd.answered
  carried x hx p hp := (hd.carried x hx p hp).imp_right fun h ↦ h.of_subset hu.kept
  hosts name p hp := hu.tree.extended.kind?_eq (hd.hosts name p (hu.hosts ▸ hp))
  distinct name name' p hp hp' := hd.distinct name name' p (hu.hosts ▸ hp) (hu.hosts ▸ hp')
  extended := hd.extended.trans hu.tree.extended
  documents := hu.documents.trans hd.documents
  filled := hu.filled hd.filled
  nodup := hd.nodup

/-- **A document is left out.** -/
theorem removeDocument (hd : Consulted π ans asked moved r d) (root : NodeId) :
    Consulted π ans asked moved (r.modify fun c ↦ c.removeDocument root)
      (d.modify fun c ↦ c.removeDocument root) :=
  { hd with
    allowed := fun x hx ↦ π.lasts (c := d.run.context) (fun _ _ hp ↦ hp) (hd.allowed x hx)
    documents := congrArg (List.filter _) hd.documents }

/-- **A host is asked for.** -/
theorem externalHost (hd : Consulted π ans asked moved r d) (name : String) (s : σ) :
    Consulted π ans asked moved r { d with run := ⟨(d.run.context.externalHost name).2, s⟩ } := by
  rw [Context.externalHost]
  cases hget : d.run.context.hosts.get? name with
  | some id => exact hd.of_unmoved (.refl _) s
  | none =>
    have hext := d.run.context.tree.extended_alloc .host "host"
    have hold : ∀ {name p}, d.run.context.hosts.get? name = some p →
        p ≠ d.run.context.tree.size := fun hp ↦ Nat.ne_of_lt (lt_size_of_kind? (hd.hosts _ _ hp))
    refine ⟨hd.arranged.alloc "host", hd.saved.widen (widened_alloc _ _ _), hd.replacements,
      fun x hx ↦ π.lasts (fun name' p hp ↦ ?_) (hd.allowed x hx), hd.answered,
      fun x hx p hp ↦ (hd.carried x hx p hp).imp_right fun h ↦ h.of_subset (List.Subset.refl _),
      fun name' p hp ↦ ?_, fun n n' p hn hn' ↦ ?_, hd.extended.trans hext, hd.documents, hd.filled,
      hd.nodup⟩
    · have hne : name' ≠ name := fun heq ↦ by
        rw [heq, hget] at hp
        exact absurd hp (by simp)
      exact (SortedMap.get?_insert _ _ _ _).trans ((if_neg hne).trans hp)
    · dsimp only at hp ⊢
      rw [SortedMap.get?_insert] at hp
      split at hp
      · rw [← Option.some.inj hp, kind?, links?_alloc]
        exact congrArg (Option.map Links.kind) (if_pos rfl)
      · exact hext.kind?_eq (hd.hosts name' p hp)
    · dsimp only at hn hn'
      rw [SortedMap.get?_insert] at hn hn'
      split at hn <;> split at hn'
      · rename_i h h'
        exact h.trans h'.symm
      · exact absurd (Option.some.inj hn).symm (hold hn')
      · exact absurd (Option.some.inj hn').symm (hold hn)
      · exact hd.distinct n n' p hn hn'

theorem requests (hd : Consulted π ans asked moved r d) {c : Context}
    (hc : d.run.context.Requests c) (s : σ) :
    Consulted π ans asked moved r { d with run := ⟨c, s⟩ } := by
  induction hc with
  | refl => exact hd.of_unmoved (.refl _) s
  | tail _ hstep ih =>
    obtain ⟨name, rfl⟩ := hstep
    exact ih.externalHost name s

section Step

variable {x : NodeId} {k : NodeKind}

/-- **The next answer**, with the tree that results from it. -/
theorem cons (hd : Consulted π ans asked moved r d) (hx : x ∉ asked)
    {moved' : List (NodeId × NodeId)} {d' : Decided σ} {t : NodeTree}
    (hext : Extended d.run.context.tree t)
    (hu : Context.Unmoved { d.run.context with tree := t } d'.run.context)
    (harranged : Arranged moved' (settledIn ans (x :: asked)) t) (hsaved : Saved t d'.orders)
    (hreplacements : ∀ y, d'.replacements.get? y =
      if y = x then (ans x).replacement? else d.replacements.get? y)
    (hallowed : π.allows d.run.context (ans x))
    (hcarries : Carries π d.run.context x (ans x) moved moved') :
    Consulted π ans (x :: asked) moved' r d' where
  arranged := harranged.of_unmoved hu.tree
  saved := hsaved.widen hu.tree.widened
  replacements y := by
    rw [hreplacements, hd.replacements]
    by_cases hy : y = x
    · rw [if_pos hy, hy, if_pos List.mem_cons_self]
    · simp [hy]
  allowed y hy := by
    refine π.lasts (c := d.run.context) (fun name p hp ↦ hu.hosts ▸ hp) ?_
    rcases List.mem_cons.1 hy with rfl | hy
    · exact hallowed
    · exact hd.allowed y hy
  answered y p hy := by
    have hold : (y, p) ∈ moved → y ∈ x :: asked ∧ (ans y).target? = some p := fun hy ↦
      (hd.answered y p hy).imp_left (List.mem_cons_of_mem _)
    cases hcarries with
    | stays => exact hold hy
    | refused => exact hold hy
    | moved q htarget =>
      rcases List.mem_cons.1 hy with heq | hy
      · obtain ⟨rfl, rfl⟩ := Prod.mk.inj heq
        exact ⟨List.mem_cons_self, htarget⟩
      · exact hold hy
  carried y hy p hp := by
    have hreports : d.run.context.diagnostics ⊆ d'.run.context.diagnostics := hu.kept
    rcases List.mem_cons.1 hy with rfl | hy
    · cases hcarries with
      | stays htarget => exact absurd (htarget.symm.trans hp) (by simp)
      | refused q htarget hrefused =>
        obtain rfl := Option.some.inj (htarget.symm.trans hp)
        exact .inr (hrefused.of_subset hreports)
      | moved q htarget =>
        obtain rfl := Option.some.inj (htarget.symm.trans hp)
        exact .inl List.mem_cons_self
    · refine (hd.carried y hy p hp).imp (fun hmem ↦ ?_) fun h ↦ h.of_subset hreports
      cases hcarries with
      | stays => exact hmem
      | refused => exact hmem
      | moved => exact List.mem_cons_of_mem _ hmem
  hosts name p hp :=
    (hext.trans hu.tree.extended).kind?_eq (hd.hosts name p (hu.hosts ▸ hp))
  distinct name name' p hp hp' := hd.distinct name name' p (hu.hosts ▸ hp) (hu.hosts ▸ hp')
  extended := hd.extended.trans (hext.trans hu.tree.extended)
  documents := hu.documents.trans hd.documents
  filled := hu.filled hd.filled
  nodup := List.nodup_cons.2 ⟨hx, hd.nodup⟩

/-- A node whose run is classified, after what has been done about it. -/
theorem exists_classify (hh : h.Obeys π) (layout : LayoutConfig) (name : String)
    (hd : Consulted π ans asked moved r d) {moved' : List (NodeId × NodeId)} {t : NodeTree}
    (hext : Extended d.run.context.tree t) (hwidened : Widened d.run.context.tree t)
    (harranged : Arranged moved' (settledIn ans asked) t) (hkind : t.kind? x = some k)
    (hgroup : k ≠ .group) (hhost : k ≠ .host) (hx : x ∉ asked)
    (hreplacement : (ans x).replacement? = none) (hallowed : π.allows d.run.context (ans x))
    (hcarries : Carries π d.run.context x (ans x) moved moved') :
    ∃ d', (d.modify fun c ↦ { c with tree := t }).classify h layout name x = (.ok (), d') ∧
      Consulted π ans (x :: asked) moved' r d' := by
  obtain ⟨d', t', hok, hu, hext', harranged', hsaved', hreplacements⟩ :=
    Decided.exists_classify hh layout name (d := d.modify fun c ↦ { c with tree := t })
      harranged (hd.saved.widen hwidened) hkind hgroup hhost
  rw [← settledIn_cons_of_none hreplacement] at harranged'
  refine ⟨d', hok, hd.cons hx (hext.trans hext') hu harranged' hsaved' (fun y ↦ ?_) hallowed
    hcarries⟩
  rw [hreplacements]
  split
  · rw [hreplacement, ‹y = x›]
    exact (hd.replacements x).trans (if_neg hx)
  · rfl

/-- A node that is replaced. -/
theorem replaced {text : String} (hd : Consulted π ans asked moved r d) (hx : x ∉ asked)
    (hanswer : ans x = .replace text) (hallowed : π.allows d.run.context (ans x)) :
    Consulted π ans (x :: asked) moved r { (d.modify fun c ↦ c.modifyNode x fun n ↦
      { n with flags := n.flags.insert .replaced }) with
        replacements := d.replacements.insert x text } := by
  have hu : Context.Unmoved d.run.context (d.run.context.modifyNode x fun n ↦
      { n with flags := n.flags.insert .replaced }) :=
    Context.unmoved_modifyNode _ x (fun _ ↦ by rfl) (fun _ ↦ by rfl)
  have htarget : (ans x).target? = none := by rw [hanswer]; rfl
  have hreplacement : (ans x).replacement? = some text := by rw [hanswer]; rfl
  refine hd.cons hx (.of_links fun _ ↦ rfl) hu ?_ hd.saved (fun y ↦ ?_) hallowed (.stays htarget)
  · rw [settledIn_cons_of_some hreplacement]
    exact hd.arranged
  · rw [hreplacement]
    exact SortedMap.get?_insert _ _ _ _

/-- **A node is moved** before its run is classified. -/
theorem exists_moved (hh : h.Obeys π) (layout : LayoutConfig) (name : String)
    (hd : Consulted π ans asked moved r d) {p : NodeId} (hp : p < d.run.context.tree.size)
    (hkind : d.run.context.tree.kind? x = some k) (hgroup : k ≠ .group) (hhost : k ≠ .host)
    (hx : x ∉ asked) (hnone : d.run.context.tree.renderParent? x = none)
    (hanswer : ans x = .redirect p) (hallowed : π.allows d.run.context (ans x)) :
    ∃ t d', d.run.context.tree.relocate x p = .ok t ∧
      (d.modify fun c ↦ { c with tree := t }).classify h layout name x = (.ok (), d') ∧
      Consulted π ans (x :: asked) ((x, p) :: moved) r d' := by
  obtain ⟨t, hok, harranged, hlinks, hwidened⟩ :=
    hd.arranged.exists_relocate hkind hgroup hhost hnone hp
  have hext : Extended d.run.context.tree t := .of_links hlinks
  obtain ⟨d', hclassify, hd'⟩ := hd.exists_classify hh layout name hext hwidened harranged
    (hext.kind?_eq hkind) hgroup hhost hx (by rw [hanswer]; rfl) hallowed
    (.moved p (by rw [hanswer]; rfl))
  exact ⟨t, d', hok, hclassify, hd'⟩

/-- **A node is not moved** if there is no node where it was to be moved. That is reported. -/
theorem exists_refused (hh : h.Obeys π) (layout : LayoutConfig) (name : String)
    (hd : Consulted π ans asked moved r d) {p : NodeId} (hp : d.run.context.tree.size ≤ p)
    (hkind : d.run.context.tree.kind? x = some k) (hgroup : k ≠ .group) (hhost : k ≠ .host)
    (hx : x ∉ asked) (hanswer : ans x = .redirect p) (hallowed : π.allows d.run.context (ans x))
    (message : String) :
    ∃ d', (d.modify fun c ↦ c.warn .skippedMember (some name) (some x) message).classify h layout
        name x = (.ok (), d') ∧
      Consulted π ans (x :: asked) moved r d' := by
  have hd₁ := hd.of_unmoved (Context.unmoved_report d.run.context
    (d := ⟨.warning, .skippedMember, some name, some x, message⟩) (by rfl)) d.run.host
  have hrefused : (d.run.context.warn .skippedMember (some name) (some x) message).Refuses π x p :=
    ⟨⟨_, List.mem_append_right _ (List.mem_singleton_self _), rfl⟩, d.run.context,
      hanswer ▸ hallowed, fun n hn ↦ Nat.not_lt.2 hp (lt_size_of_kind? (hd.hosts n p hn))⟩
  exact hd₁.exists_classify hh layout name (.of_links fun _ ↦ rfl) (.refl _) hd₁.arranged hkind
    hgroup hhost hx (by rw [hanswer]; rfl) (π.lasts (c := d.run.context) (fun _ _ hp ↦ hp) hallowed)
    (.refused p (by rw [hanswer]; rfl) hrefused)

/-- **One node is decided on.** -/
theorem exists_decideNode (hh : h.Obeys π) (layout : LayoutConfig) (name : String)
    (hd : Consulted π ans asked moved r d) (hkind : r.context.tree.kind? x = some k)
    (hgroup : k ≠ .group) (hhost : k ≠ .host) (hx : x ∉ asked)
    (hparent : ∀ p, r.context.tree.documentParent? x = some p → p ∉ asked)
    (hans : (d.run.dispatch h .beforeClassify (some x)).1 = ans x) :
    ∃ d' moved', d.decideNode h layout name x = (.ok (), d') ∧
      Consulted π ans (x :: asked) moved' r d' := by
  obtain ⟨action, c, s, hdispatch, hrequests, hallowed⟩ :=
    Run.exists_dispatch hh (some x) d.run
  rw [hdispatch] at hans
  obtain rfl : action = ans x := hans
  have hd₁ := hd.requests hrequests s
  have hkind₁ : c.tree.kind? x = some k := hd₁.extended.kind?_eq hkind
  rw [Decided.decideNode, hdispatch]
  cases hanswer : ans x with
  | proceed =>
    have htarget : (ans x).target? = none := by rw [hanswer]; rfl
    obtain ⟨d', hok, hd'⟩ := hd₁.exists_classify hh layout name (.of_links fun _ ↦ rfl) (.refl _)
      hd₁.arranged hkind₁ hgroup hhost hx (by rw [hanswer]; rfl) hallowed (.stays htarget)
    exact ⟨d', moved, hok, hd'⟩
  | replace text => exact ⟨_, moved, rfl, hd₁.replaced hx hanswer hallowed⟩
  | redirect p =>
    have hnone : c.tree.renderParent? x = none := by
      refine hd₁.arranged.renderParent_eq_none (fun q hq ↦ hx (hd₁.answered x q hq).1)
        fun q hq hmem ↦ hparent q ?_ (mem_settledIn.1 hmem).1
      rwa [documentParent?, hd₁.extended.links x (lt_size_of_kind? hkind)] at hq
    rcases Nat.lt_or_ge p c.tree.size with hp | hp
    · obtain ⟨t, d', hrelocate, hok, hd'⟩ :=
        hd₁.exists_moved hh layout name hp hkind₁ hgroup hhost hx hnone hanswer hallowed
      have hrelocate : c.tree.relocate x p = .ok t := hrelocate
      refine ⟨d', (x, p) :: moved, ?_, hd'⟩
      simp only [Decided.modify, Run.modify, hrelocate]
      exact hok
    · obtain ⟨d', hok, hd'⟩ := hd₁.exists_refused hh layout name hp hkind₁ hgroup hhost hx hanswer
        hallowed (TreeError.unknownNode p).message
      have hrelocate := c.tree.relocate_eq_error x hp
      refine ⟨d', moved, ?_, hd'⟩
      simp only [Decided.modify, Run.modify, hrelocate]
      exact hok

end Step

/-- Only the answers about nodes that have been asked about matter. -/
theorem congr (hd : Consulted π ans asked moved r d) {ans' : NodeId → HookAction}
    (hans : ∀ x ∈ asked, ans x = ans' x) : Consulted π ans' asked moved r d := by
  have hsettled : settledIn ans' asked = settledIn ans asked :=
    List.filter_congr fun x hx ↦ by rw [hans x hx]
  refine ⟨?_, hd.saved, fun x ↦ ?_, fun x hx ↦ hans x hx ▸ hd.allowed x hx, fun x p hx ↦ ?_,
    fun x hx ↦ hans x hx ▸ hd.carried x hx, hd.hosts, hd.distinct, hd.extended, hd.documents,
    hd.filled, hd.nodup⟩
  · rw [hsettled]
    exact hd.arranged
  · rw [hd.replacements]
    split
    · rw [hans x ‹_›]
    · rfl
  · obtain ⟨hmem, hp⟩ := hd.answered x p hx
    exact ⟨hmem, hans x hmem ▸ hp⟩

end Consulted

end ViewCompiler
