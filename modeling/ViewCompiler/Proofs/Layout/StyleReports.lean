import ViewCompiler.Proofs.Layout.Branched
import ViewCompiler.Proofs.Style.Sanitizing

/-!
# Style faults are dropped everywhere and reported once

The style of every element is sanitized when its node is made, so that no node of an element has a
fault (`Ingest.Cleaned.node`). What is reported is something else: a property is reported for the
first fault only, and the properties that have been reported are passed on from one document to the
next.

The two are brought together by an invariant of the walk (`Ingest.Cleaned`). The properties that
have been warned of are those from before and those reported since, each of these once, and they
cover every fault of an element that has a node. Over several calls it follows that a property is
reported by the first call that makes a node of an element with such a fault
(`Ingest.reports_first_faults`).
-/

namespace ViewCompiler

open NodeTree Sown

/-- What of a node has to do with its style. -/
structure Styled where
  kind : NodeKind
  element : Option Handle
  style : Style

def Node.styled (n : Node) : Styled := ⟨n.kind, n.element, n.style⟩

/-- A node that stands for an element: the root of a document or a node inside. -/
def Styled.IsElement (x : Styled) : Prop := x.kind = .root ∨ x.kind = .element

theorem steady_styled : Steady Node.styled :=
  ⟨fun _ _ ↦ rfl, fun _ _ ↦ rfl, fun _ _ ↦ rfl, fun _ _ _ _ _ ↦ rfl, fun _ ↦ rfl, fun _ _ ↦ rfl,
    fun _ _ ↦ rfl, fun _ _ ↦ rfl⟩

namespace Ingest

/-- The style that the node of an element is to have, and the errors found on the way. -/
def sanitized (p : Provider) (h : Handle) : Style × List StyleError :=
  match p.measure h with
  | .ok m => (Style.ofMap m.style).sanitize
  | .error _ => (.empty, [])

/-! ### Reports -/

/-- **What has been reported**, where `earlier` had been warned of before and the errors `found`
have been met since. -/
structure Logged (earlier : List String) (found : StyleError → Prop) (errors : List StyleError)
    (warned : List String) : Prop where
  mem_warned : ∀ q, q ∈ warned ↔ q ∈ earlier ∨ q ∈ errors.map subject
  nodup : (errors.map subject).Nodup
  fresh : ∀ e ∈ errors, subject e ∉ earlier
  met : ∀ e ∈ errors, found e
  /-- Nothing that has been met goes without a warning. -/
  covered : ∀ e, found e → subject e ∈ warned

namespace Logged

variable {earlier warned : List String} {found found' : StyleError → Prop}
  {errors : List StyleError}

theorem congr (h : Logged earlier found errors warned) (hfound : ∀ e, found' e ↔ found e) :
    Logged earlier found' errors warned where
  mem_warned := h.mem_warned
  nodup := h.nodup
  fresh := h.fresh
  met e he := (hfound e).2 (h.met e he)
  covered e he := h.covered e ((hfound e).1 he)

/-- At first nothing has been met. -/
theorem start (earlier : List String) : Logged earlier (fun _ ↦ False) [] earlier where
  mem_warned _ := (or_iff_left List.not_mem_nil).symm
  nodup := .nil
  fresh _ he := absurd he List.not_mem_nil
  met _ he := absurd he List.not_mem_nil
  covered _ he := he.elim

/-- An error of a property that has been warned of. -/
theorem skip (h : Logged earlier found errors warned) {e : StyleError}
    (hold : subject e ∈ warned) : Logged earlier (fun e' ↦ found e' ∨ e' = e) errors warned where
  mem_warned := h.mem_warned
  nodup := h.nodup
  fresh := h.fresh
  met e' he' := .inl (h.met e' he')
  covered e' he' := he'.elim (h.covered e') fun heq ↦ heq ▸ hold

/-- An error of another property. -/
theorem add (h : Logged earlier found errors warned) {e : StyleError}
    (hnew : subject e ∉ warned) :
    Logged earlier (fun e' ↦ found e' ∨ e' = e) (errors ++ [e]) (subject e :: warned) where
  mem_warned q := by
    rw [List.mem_cons, h.mem_warned, List.map_append, List.mem_append, List.map_singleton,
      List.mem_singleton, or_comm, or_assoc]
  nodup := by
    rw [List.map_append, List.map_singleton]
    refine h.nodup.append (List.nodup_singleton _) ?_
    exact List.disjoint_singleton.2 fun hmem ↦ hnew ((h.mem_warned _).2 (.inr hmem))
  fresh e' he' := by
    rcases List.mem_append.1 he' with he' | he'
    · exact h.fresh e' he'
    · rw [List.mem_singleton.1 he']
      exact fun hmem ↦ hnew ((h.mem_warned _).2 (.inl hmem))
  met e' he' := (List.mem_append.1 he').imp (h.met e') List.mem_singleton.1
  covered e' he' := he'.elim (fun hfound ↦ List.mem_cons_of_mem _ (h.covered e' hfound))
    fun heq ↦ heq ▸ List.mem_cons_self

/-- **Reporting** the errors of one element. -/
theorem report {s : State} (h : Logged earlier found s.styleErrors s.warned)
    (errors : List StyleError) :
    Logged earlier (fun e ↦ found e ∨ e ∈ errors) (report s errors).styleErrors
      (report s errors).warned := by
  rw [Ingest.report]
  induction errors generalizing s found with
  | nil => exact h.congr fun e ↦ or_iff_left List.not_mem_nil
  | cons e rest ih =>
    have hsplit : ∀ e', found e' ∨ e' ∈ e :: rest ↔ (found e' ∨ e' = e) ∨ e' ∈ rest := fun e' ↦ by
      rw [List.mem_cons, or_assoc]
    rw [List.foldl_cons]
    split
    · rename_i hold
      exact (ih (h.skip (by simpa using hold))).congr hsplit
    · rename_i hnew
      exact (ih (s := { s with
        warned := subject e :: s.warned, styleErrors := s.styleErrors ++ [e] })
        (h.add (by simpa using hnew))).congr hsplit

end Logged

/-! ### New nodes -/

/-- A tree with one more node, of which this is known. -/
structure Grafts (t t' : NodeTree) (x : Styled) : Prop where
  size : t'.size = t.size + 1
  node : ∀ i, t'.view? Node.styled i = if i = t.size then some x else t.view? Node.styled i

theorem grafts_alloc (t : NodeTree) (kind : NodeKind) (tag : String) :
    Grafts t (t.alloc kind tag).2 ⟨kind, none, .empty⟩ where
  size := size_alloc _ _ _
  node := view?_alloc Node.styled t kind tag

theorem grafts_grafted (t : NodeTree) (kind : NodeKind) (tag : String) (parent : NodeId)
    (layoutParent : Option NodeId) :
    Grafts t (grafted t kind tag parent layoutParent) ⟨kind, none, .empty⟩ where
  size := size_grafted _ _ _ _ _
  node := steady_styled.grafted t kind tag parent layoutParent

/-- The new node is changed. -/
theorem Grafts.modify {t t' : NodeTree} {x : Styled} (h : Grafts t t' x) {f : Node → Node}
    (g : Styled → Styled) (hf : ∀ n, (f n).styled = g n.styled) :
    Grafts t (t'.modify t.size f) (g x) where
  size := (size_modify _ _ _).trans h.size
  node i := by
    rw [view?_modify_of t' t.size g hf, h.node]
    split <;> rfl

/-- **The style of an element** is put into its node. -/
theorem Grafts.fill {p : Provider} {t : NodeTree} {s : State} {x : Styled}
    (h : Grafts t s.tree x) {element : Handle} {m : BoxMeasure} (hm : p.measure element = .ok m) :
    Grafts t (fill s t.size element m).tree ⟨x.kind, some element, (sanitized p element).1⟩ := by
  rw [Ingest.fill, sanitized, hm]
  dsimp only
  generalize (Style.ofMap m.style).sanitize = cleaned
  rw [tree_report]
  exact h.modify (fun x ↦ ⟨x.kind, some element, cleaned.1⟩) fun _ ↦ rfl

/-- The errors of an element are reported when its node is filled. -/
theorem report_fill {p : Provider} {element : Handle} {m : BoxMeasure}
    (hm : p.measure element = .ok m) (s : State) (id : NodeId) :
    (fill s id element m).styleErrors = (report s (sanitized p element).2).styleErrors ∧
      (fill s id element m).warned = (report s (sanitized p element).2).warned := by
  rw [fill, sanitized, hm]
  dsimp only
  generalize (Style.ofMap m.style).sanitize = cleaned
  exact ⟨rfl, rfl⟩

/-- An error of an element with a node that has been made since the tree was `t`. -/
def Found (p : Provider) (t t' : NodeTree) (e : StyleError) : Prop :=
  ∃ i x h, t.size ≤ i ∧ t'.view? Node.styled i = some x ∧ x.IsElement ∧ x.element = some h ∧
    e ∈ (sanitized p h).2

theorem found_grafts {p : Provider} {t t' t'' : NodeTree} {x : Styled} (hle : t.size ≤ t'.size)
    (h : Grafts t' t'' x) (e : StyleError) : Found p t t'' e ↔ Found p t t' e ∨
      x.IsElement ∧ ∃ element, x.element = some element ∧ e ∈ (sanitized p element).2 := by
  refine ⟨fun ⟨i, y, element, hi, hy, hkind, helement, he⟩ ↦ ?_, ?_⟩
  · rw [h.node] at hy
    split at hy
    · obtain rfl := Option.some.inj hy
      exact .inr ⟨hkind, element, helement, he⟩
    · exact .inl ⟨i, y, element, hi, hy, hkind, helement, he⟩
  · rintro (⟨i, y, element, hi, hy, hkind, helement, he⟩ | ⟨hkind, element, helement, he⟩)
    · obtain ⟨n, hn, -⟩ := Option.map_eq_some_iff.1 hy
      have hne : i ≠ t'.size := Nat.ne_of_lt (lt_size_of_get? hn)
      exact ⟨i, y, element, hi, by rw [h.node, if_neg hne, hy], hkind, helement, he⟩
    · exact ⟨t'.size, x, element, hle, by rw [h.node, if_pos rfl], hkind, helement, he⟩

/-! ### The walk -/

/-- **What the walk keeps.** Every new node of an element has the sanitized style of its element,
and the errors of all of them are covered by the report. -/
structure Cleaned (p : Provider) (t : NodeTree) (earlier : List String) (s : State) : Prop where
  size_le : t.size ≤ s.tree.size
  node : ∀ i x, t.size ≤ i → s.tree.view? Node.styled i = some x → x.IsElement →
    ∃ h, x.element = some h ∧ x.style = (sanitized p h).1
  logged : Logged earlier (Found p t s.tree) s.styleErrors s.warned

namespace Cleaned

variable {p : Provider} {t : NodeTree} {earlier : List String} {s s' : State} {x : Styled}

/-- The parts of the nodes and the report are what matters. -/
theorem congr (h : Cleaned p t earlier s) (hsame : SameView Node.styled s.tree s'.tree)
    (herrors : s'.styleErrors = s.styleErrors) (hwarned : s'.warned = s.warned) :
    Cleaned p t earlier s' where
  size_le := hsame.1 ▸ h.size_le
  node i x hi hx := h.node i x hi (hsame.2 i ▸ hx)
  logged := by
    rw [herrors, hwarned]
    refine h.logged.congr fun e ↦ ?_
    simp only [Found, hsame.2]

/-- A new node that stands for no element. -/
theorem other (h : Cleaned p t earlier s) (hgraft : Grafts s.tree s'.tree x)
    (hkind : ¬ x.IsElement) (herrors : s'.styleErrors = s.styleErrors)
    (hwarned : s'.warned = s.warned) : Cleaned p t earlier s' where
  size_le := by
    rw [hgraft.size]
    exact Nat.le_succ_of_le h.size_le
  node i y hi hy hy' := by
    rw [hgraft.node] at hy
    split at hy
    · obtain rfl := Option.some.inj hy
      exact absurd hy' hkind
    · exact h.node i y hi hy hy'
  logged := by
    rw [herrors, hwarned]
    refine h.logged.congr fun e ↦ ?_
    rw [found_grafts h.size_le hgraft, or_iff_left fun hx ↦ hkind hx.1]

/-- **A new node of an element**, the errors of which are reported. -/
theorem element (h : Cleaned p t earlier s) {element : Handle}
    (hgraft : Grafts s.tree s'.tree x) (hkind : x.IsElement) (helement : x.element = some element)
    (hstyle : x.style = (sanitized p element).1)
    (hlogged : Logged earlier (fun e ↦ Found p t s.tree e ∨ e ∈ (sanitized p element).2)
      s'.styleErrors s'.warned) : Cleaned p t earlier s' where
  size_le := by
    rw [hgraft.size]
    exact Nat.le_succ_of_le h.size_le
  node i y hi hy hy' := by
    rw [hgraft.node] at hy
    split at hy
    · obtain rfl := Option.some.inj hy
      exact ⟨element, helement, hstyle⟩
    · exact h.node i y hi hy hy'
  logged := hlogged.congr fun e ↦ by
    rw [found_grafts h.size_le hgraft]
    refine or_congr_right ⟨fun ⟨_, element', helement', he⟩ ↦ ?_, fun he ↦ ?_⟩
    · rwa [Option.some.inj (helement.symm.trans helement')]
    · exact ⟨hkind, element, helement, he⟩

/-- A new node that is filled with what was measured of an element. -/
theorem fill (h : Cleaned p t earlier s) {kind : NodeKind} (hkind : kind = .root ∨ kind = .element)
    {tree : NodeTree} (hgraft : Grafts s.tree tree ⟨kind, none, .empty⟩) {element : Handle}
    {m : BoxMeasure} (hm : p.measure element = .ok m) (visited : List Handle)
    (unmeasured : List (Handle × ProviderError)) :
    Cleaned p t earlier (fill ⟨tree, visited, unmeasured, s.styleErrors, s.warned⟩ s.tree.size
      element m) := by
  let s' : State := ⟨tree, visited, unmeasured, s.styleErrors, s.warned⟩
  have hgraft' : Grafts s.tree s'.tree ⟨kind, none, .empty⟩ := hgraft
  have hlogged : Logged earlier (Found p t s.tree) s'.styleErrors s'.warned := h.logged
  obtain ⟨herrors, hwarned⟩ := report_fill hm s' s.tree.size
  refine h.element (hgraft'.fill hm) hkind rfl rfl ?_
  rw [herrors, hwarned]
  exact hlogged.report _

end Cleaned

variable {p : Provider} {t : NodeTree} {earlier : List String} {s : State}

theorem cleaned_elementNode (h : Cleaned p t earlier s) (task : Task) {m : BoxMeasure}
    (hm : p.measure task.element = .ok m) (run : Option NodeId) :
    Cleaned p t earlier (elementNode s task m run) := by
  rw [elementNode]
  exact h.fill (.inr rfl) (grafts_grafted _ _ _ _ _) hm _ _

theorem cleaned_hide (h : Cleaned p t earlier s) (id : NodeId) : Cleaned p t earlier (hide s id) :=
  h.congr (steady_styled.modify s.tree id steady_styled.excluded) rfl rfl

/-- The node of a text is not that of an element. -/
theorem cleaned_meetText (h : Cleaned p t earlier s) (task : Task) (m : BoxMeasure) :
    Cleaned p t earlier (meetText s task m) := by
  rw [meetText]
  dsimp only
  split
  · exact h
  · have hgraft := (grafts_grafted s.tree .text textTag task.parent (some task.layoutParent)).modify
      (fun x ↦ ⟨x.kind, some task.element, .ofMap m.style⟩)
      (f := fun n ↦ { n with
        element := some task.element
        bounds := m.bounds
        text := some (Text.collapse (m.text.getD ""))
        style := Style.ofMap m.style }) fun _ ↦ rfl
    exact h.other hgraft (by simp [Styled.IsElement]) rfl rfl

/-- **An element that is met** has a node without faults, or none. -/
theorem cleaned_meet (h : Cleaned p t earlier s) (task : Task) :
    Cleaned p t earlier (meet p s task).1 := by
  rw [meet]
  split
  · rename_i e he
    -- what could not be measured has no style, and so no faults either
    have hnone : sanitized p task.element = (.empty, []) := by rw [sanitized, he]
    have hgraft := (grafts_grafted s.tree .element "" task.parent none).modify
      (fun x ↦ { x with element := some task.element })
      (f := fun n ↦ { n with element := some task.element, excluded := true }) fun _ ↦ rfl
    refine h.element hgraft (.inr rfl) rfl (by rw [hnone]) (h.logged.congr fun e ↦ ?_)
    rw [hnone]
    exact or_iff_left List.not_mem_nil
  · rename_i m hm
    split
    · exact cleaned_meetText h task m
    · rw [meetElement_eq]
      split
      · exact cleaned_hide (cleaned_elementNode h task hm none) _
      · exact cleaned_hide (cleaned_elementNode h task hm none) _
      · exact cleaned_elementNode h task hm _

/-- **The walk through a document.** -/
theorem cleaned_walk (fuel : Nat) (tasks : List Task) (h : Cleaned p t earlier s) :
    Cleaned p t earlier (walk p fuel s tasks) := by
  refine walk_keeps_made (fun s task h _ ↦ ?_) fuel tasks h
  have hvisited : Cleaned p t earlier { s with visited := task.element :: s.visited } :=
    h.congr (.refl _) rfl rfl
  exact cleaned_meet hvisited task

/-- Before anything is made. -/
theorem cleaned_start (p : Provider) (t : NodeTree) (earlier : List String) :
    Cleaned p t earlier ⟨t, [], [], [], earlier⟩ := by
  have hnew : ∀ i x, t.size ≤ i → t.view? Node.styled i ≠ some x := fun i x hi hx ↦ by
    obtain ⟨n, hn, -⟩ := Option.map_eq_some_iff.1 hx
    exact absurd (lt_size_of_get? hn) (Nat.not_lt.2 hi)
  refine ⟨Nat.le_refl _, fun i x hi hx ↦ absurd hx (hnew i x hi), ?_⟩
  exact (Logged.start earlier).congr fun e ↦
    iff_false_intro fun ⟨i, x, _, hi, hx, _⟩ ↦ hnew i x hi hx

/-- **One more document.** -/
theorem cleaned_document {warned' : List String} {element : Handle} {report : IngestReport}
    {t' : NodeTree} (h : document p t earlier element = .ok (report, t', warned')) :
    Cleaned p t earlier ⟨t', [], [], report.styleErrors, warned'⟩ := by
  rcases document_cases h with ⟨-, herrors, rfl, rfl⟩ | ⟨m, hm, -, herrors, rfl, rfl⟩
  · rw [herrors]
    exact cleaned_start p t' warned'
  · rw [herrors]
    have hroot : Cleaned p t earlier (Ingest.start t earlier element m) :=
      (cleaned_start p t earlier).fill (.inl rfl) (grafts_alloc t .root m.tag) hm _ _
    exact (cleaned_walk _ _ hroot).congr (steady_styled.finished _ t.size) rfl rfl

end Ingest

/-! ### Calls in turn -/

/-- A fault in what was measured of the element of a node. -/
def Node.FaultOf (p : Provider) (n : Node) (property value : String) : Prop :=
  ∃ h m, n.element = some h ∧ p.measure h = .ok m ∧ (Style.ofMap m.style).Fault property value

/-- **A node has the style of its element without its faults**: every known property passes its
check, and every property that was no fault is as it was measured. What could not be measured has
no style. -/
structure Node.CleanedFrom (p : Provider) (n : Node) : Prop where
  faultless : n.style.Faultless
  kept : ∃ h, n.element = some h ∧
    ((∃ e, p.measure h = .error e) ∧ n.style = .empty ∨
      ∃ m, p.measure h = .ok m ∧ ∀ property value, n.style.get? property = some value ↔
        (Style.ofMap m.style).get? property = some value ∧
          ¬ (Style.ofMap m.style).Fault property value)

/-- A call: the tree and the element that it is given, and what it answers. -/
structure Ingestion where
  before : NodeTree
  element : Handle
  outcome : Except IngestError (IngestReport × NodeTree)

namespace Ingestion

/-- A node of an element, the root or one inside, that the call has made. -/
def Made (c : Ingestion) (n : Node) : Prop :=
  ∃ report t i, c.outcome = .ok (report, t) ∧ c.before.size ≤ i ∧ t.get? i = some n ∧
    (n.kind = .root ∨ n.kind = .element)

/-- The style errors that the call reports. -/
def errors (c : Ingestion) : List StyleError :=
  match c.outcome with
  | .ok (report, _) => report.styleErrors
  | .error _ => []

/-- The properties that the call reports an error of. -/
def reported (c : Ingestion) : List String := c.errors.map Ingest.subject

/-- A property that was a fault of the element of some node that the call has made. -/
def Faulty (c : Ingestion) (p : Provider) (property : String) : Prop :=
  ∃ n value, c.Made n ∧ n.FaultOf p property value

end Ingestion

namespace Ingest

/-- **Calls in turn**, each with a tree and a root element of its own. They share the properties
that have been warned of, and a call that fails leaves these as they are. -/
def calls (p : Provider) : List String → List (NodeTree × Handle) → List Ingestion
  | _, [] => []
  | warned, (t, element) :: rest =>
    match document p t warned element with
    | .error e => ⟨t, element, .error e⟩ :: calls p warned rest
    | .ok (report, t', warned') => ⟨t, element, .ok (report, t')⟩ :: calls p warned' rest

variable {p : Provider} {earlier warned : List String} {c : Ingestion} {property : String}

theorem mem_sanitized {h : Handle} {e : StyleError} : e ∈ (sanitized p h).2 ↔
    ∃ m property value, p.measure h = .ok m ∧ (Style.ofMap m.style).Fault property value ∧
      e = .invalidValue property value := by
  rw [sanitized]
  cases hm : p.measure h with
  | error _ => simp
  | ok m =>
    simp only [Style.mem_errors_sanitize, Except.ok.injEq]
    exact ⟨fun ⟨property, value, hfault, he⟩ ↦ ⟨m, property, value, rfl, hfault, he⟩,
      fun ⟨_, property, value, rfl, hfault, he⟩ ↦ ⟨property, value, hfault, he⟩⟩

theorem cleanedFrom_of_sanitized {n : Node} {h : Handle} (helement : n.element = some h)
    (hstyle : n.style = (sanitized p h).1) : n.CleanedFrom p := by
  rw [sanitized] at hstyle
  cases hm : p.measure h with
  | error e =>
    rw [hm] at hstyle
    refine ⟨fun property value hfault ↦ ?_, h, helement, .inl ⟨⟨e, hm⟩, hstyle⟩⟩
    exact absurd (hstyle ▸ hfault.1) (by simp [Style.get?, Style.empty])
  | ok m =>
    rw [hm] at hstyle
    refine ⟨hstyle ▸ Style.faultless_sanitize _, h, helement, .inr ⟨m, hm, fun property value ↦ ?_⟩⟩
    rw [hstyle, Style.get?_sanitize]

/-- **One call**, where `earlier` had been warned of before and `warned` has been after it. -/
structure Reports (p : Provider) (earlier : List String) (c : Ingestion) (warned : List String) :
    Prop where
  cleaned : ∀ n, c.Made n → n.CleanedFrom p
  fault : ∀ e ∈ c.errors, ∃ n property value, c.Made n ∧ n.FaultOf p property value ∧
    e = .invalidValue property value
  nodup : c.reported.Nodup
  mem_reported : ∀ property, property ∈ c.reported ↔ c.Faulty p property ∧ property ∉ earlier
  mem_warned : ∀ property, property ∈ warned ↔ property ∈ earlier ∨ c.Faulty p property

theorem reports_error (p : Provider) (earlier : List String) (t : NodeTree) (element : Handle)
    (e : IngestError) : Reports p earlier ⟨t, element, .error e⟩ earlier := by
  have hnone : ∀ n, ¬ Ingestion.Made ⟨t, element, .error e⟩ n :=
    fun n ⟨_, _, _, houtcome, _⟩ ↦ by simp at houtcome
  have hfaultless : ∀ property, ¬ Ingestion.Faulty ⟨t, element, .error e⟩ p property :=
    fun property ⟨n, _, hn, _⟩ ↦ hnone n hn
  exact {
    cleaned := fun n hn ↦ absurd hn (hnone n)
    fault := fun _ he ↦ absurd he List.not_mem_nil
    nodup := .nil
    mem_reported := fun property ↦
      ⟨fun h ↦ absurd h List.not_mem_nil, fun h ↦ absurd h.1 (hfaultless property)⟩
    mem_warned := fun property ↦ (or_iff_left (hfaultless property)).symm }

theorem found_iff {t t' : NodeTree} {element : Handle} {report : IngestReport} {e : StyleError} :
    Found p t t' e ↔ ∃ n property value, Ingestion.Made ⟨t, element, .ok (report, t')⟩ n ∧
      n.FaultOf p property value ∧ e = .invalidValue property value := by
  refine ⟨fun ⟨i, x, h, hi, hx, hkind, helement, he⟩ ↦ ?_, ?_⟩
  · obtain ⟨n, hn, rfl⟩ := Option.map_eq_some_iff.1 hx
    obtain ⟨m, property, value, hm, hfault, rfl⟩ := mem_sanitized.1 he
    exact ⟨n, property, value, ⟨report, t', i, rfl, hi, hn, hkind⟩, ⟨h, m, helement, hm, hfault⟩,
      rfl⟩
  · rintro ⟨n, property, value, ⟨_, _, i, houtcome, hi, hn, hkind⟩, ⟨h, m, helement, hm, hfault⟩,
      rfl⟩
    obtain ⟨-, rfl⟩ := Prod.mk.inj (Except.ok.inj houtcome)
    exact ⟨i, n.styled, h, hi, view?_of_get? hn, hkind, helement,
      mem_sanitized.2 ⟨m, property, value, hm, hfault, rfl⟩⟩

/-- **A call reports the faults of its elements** that had not been warned of. -/
theorem reports_document {t t' : NodeTree} {element : Handle} {report : IngestReport}
    (h : document p t earlier element = .ok (report, t', warned)) :
    Reports p earlier ⟨t, element, .ok (report, t')⟩ warned := by
  have hcleaned := cleaned_document h
  have hlogged : Logged earlier (Found p t t') report.styleErrors warned := hcleaned.logged
  have hcovered : ∀ property, Ingestion.Faulty ⟨t, element, .ok (report, t')⟩ p property →
      property ∈ warned := fun property ⟨n, value, hn, hfault⟩ ↦
    hlogged.covered _ (found_iff.2 ⟨n, property, value, hn, hfault, rfl⟩)
  have hmet : ∀ property, property ∈ report.styleErrors.map subject →
      Ingestion.Faulty ⟨t, element, .ok (report, t')⟩ p property ∧ property ∉ earlier :=
    fun property hmem ↦ by
      obtain ⟨e, he, rfl⟩ := List.mem_map.1 hmem
      have hfresh := hlogged.fresh e he
      obtain ⟨n, property, value, hn, hfault, rfl⟩ := found_iff.1 (hlogged.met e he)
      exact ⟨⟨n, value, hn, hfault⟩, hfresh⟩
  exact {
    cleaned := fun n ⟨_, _, i, houtcome, hi, hn, hkind⟩ ↦ by
      obtain ⟨-, rfl⟩ := Prod.mk.inj (Except.ok.inj houtcome)
      obtain ⟨x, helement, hstyle⟩ := hcleaned.node i _ hi (view?_of_get? hn) hkind
      exact cleanedFrom_of_sanitized helement hstyle
    fault := fun e he ↦ found_iff.1 (hlogged.met e he)
    nodup := hlogged.nodup
    mem_reported := fun property ↦ ⟨hmet property, fun ⟨hfaulty, hnew⟩ ↦
      ((hlogged.mem_warned property).1 (hcovered property hfaulty)).resolve_left hnew⟩
    mem_warned := fun property ↦ by
      refine ⟨fun hmem ↦ ((hlogged.mem_warned property).1 hmem).imp_right fun hmem ↦
        (hmet property hmem).1, ?_⟩
      rintro (hmem | hfaulty)
      · exact (hlogged.mem_warned property).2 (.inl hmem)
      · exact hcovered property hfaulty }

/-- The first of several calls. -/
theorem exists_calls_cons (p : Provider) (earlier : List String) (input : NodeTree × Handle)
    (rest : List (NodeTree × Handle)) : ∃ c warned,
      calls p earlier (input :: rest) = c :: calls p warned rest ∧ Reports p earlier c warned := by
  obtain ⟨t, element⟩ := input
  rw [calls]
  cases hdocument : document p t earlier element with
  | error e => exact ⟨_, earlier, rfl, reports_error p earlier t element e⟩
  | ok made =>
    obtain ⟨report, t', warned⟩ := made
    exact ⟨_, warned, rfl, reports_document hdocument⟩

/-- **Every call** reports in that way. -/
theorem exists_reports {inputs : List (NodeTree × Handle)} (h : c ∈ calls p earlier inputs) :
    ∃ earlier' warned, Reports p earlier' c warned := by
  induction inputs generalizing earlier with
  | nil => exact absurd h List.not_mem_nil
  | cons input rest ih =>
    obtain ⟨first, warned, hcalls, hreports⟩ := exists_calls_cons p earlier input rest
    rw [hcalls] at h
    rcases List.mem_cons.1 h with rfl | h
    · exact ⟨earlier, warned, hreports⟩
    · exact ih h

/-- **A property is reported by the first call** that meets a fault of it. -/
theorem mem_reported_calls {inputs : List (NodeTree × Handle)} {k : Nat}
    (h : (calls p earlier inputs)[k]? = some c) (property : String) :
    property ∈ c.reported ↔ c.Faulty p property ∧ property ∉ earlier ∧
      ∀ (j : Nat) (c' : Ingestion), j < k → (calls p earlier inputs)[j]? = some c' →
        ¬ c'.Faulty p property := by
  induction inputs generalizing earlier k with
  | nil => exact absurd h (by simp [calls])
  | cons input rest ih =>
    obtain ⟨first, warned, hcalls, hreports⟩ := exists_calls_cons p earlier input rest
    rw [hcalls] at h ⊢
    cases k with
    | zero =>
      obtain rfl : first = c := by simpa using h
      rw [hreports.mem_reported]
      exact and_congr_right fun _ ↦ (and_iff_left fun j _ hj ↦ absurd hj (Nat.not_lt_zero j)).symm
    | succ k =>
      rw [List.getElem?_cons_succ] at h
      -- the later calls know of the faults of the first one as warned of before
      rw [ih h, hreports.mem_warned]
      refine and_congr_right fun _ ↦ ⟨fun ⟨hnew, hlater⟩ ↦ ?_, fun ⟨hnew, hbefore⟩ ↦ ?_⟩
      · refine ⟨fun hold ↦ hnew (.inl hold), fun j c' hj hc' ↦ ?_⟩
        cases j with
        | zero =>
          obtain rfl : first = c' := by simpa using hc'
          exact fun hfaulty ↦ hnew (.inr hfaulty)
        | succ j => exact hlater j c' (Nat.lt_of_succ_lt_succ hj) (by simpa using hc')
      · refine ⟨fun hmem ↦ hmem.elim hnew (hbefore 0 first (Nat.succ_pos k) rfl),
          fun j c' hj hc' ↦ ?_⟩
        exact hbefore (j + 1) c' (Nat.succ_lt_succ hj) (by simpa using hc')

/-- **All reports together.** -/
theorem reported_calls (p : Provider) (earlier : List String)
    (inputs : List (NodeTree × Handle)) :
    ((calls p earlier inputs).flatMap Ingestion.reported).Nodup ∧
      ∀ property, property ∈ (calls p earlier inputs).flatMap Ingestion.reported ↔
        property ∉ earlier ∧ ∃ c ∈ calls p earlier inputs, c.Faulty p property := by
  induction inputs generalizing earlier with
  | nil => simp [calls]
  | cons input rest ih =>
    obtain ⟨first, warned, hcalls, hreports⟩ := exists_calls_cons p earlier input rest
    obtain ⟨hnodup, hmem⟩ := ih warned
    rw [hcalls, List.flatMap_cons]
    refine ⟨hreports.nodup.append hnodup fun property hfirst hlater ↦ ?_, fun property ↦ ?_⟩
    · have hfaulty := ((hreports.mem_reported property).1 hfirst).1
      exact ((hmem property).1 hlater).1 ((hreports.mem_warned property).2 (.inr hfaulty))
    · rw [List.mem_append, hreports.mem_reported, hmem, hreports.mem_warned]
      simp only [List.mem_cons, exists_eq_or_imp]
      tauto

/-- **Style faults are dropped everywhere and reported once.** However often documents are made
into nodes, the nodes of elements have no faults and all else that was measured. What is reported
are faults of these elements; a property is reported by the first call that meets one, so that all
reports together name each faulty property once and nothing else. -/
theorem reports_first_faults (p : Provider) (inputs : List (NodeTree × Handle)) :
    (∀ c ∈ calls p [] inputs, ∀ n, c.Made n → n.CleanedFrom p) ∧
    (∀ c ∈ calls p [] inputs, ∀ e ∈ c.errors, ∃ n property value, c.Made n ∧
      n.FaultOf p property value ∧ e = .invalidValue property value) ∧
    (∀ (k : Nat) (c : Ingestion), (calls p [] inputs)[k]? = some c →
      ∀ property, property ∈ c.reported ↔ c.Faulty p property ∧
        ∀ (j : Nat) (c' : Ingestion), j < k → (calls p [] inputs)[j]? = some c' →
          ¬ c'.Faulty p property) ∧
    ((calls p [] inputs).flatMap Ingestion.reported).Nodup ∧
    ∀ property, property ∈ (calls p [] inputs).flatMap Ingestion.reported ↔
      ∃ c ∈ calls p [] inputs, c.Faulty p property := by
  obtain ⟨hnodup, hmem⟩ := reported_calls p [] inputs
  refine ⟨fun c hc ↦ ?_, fun c hc ↦ ?_, fun k c hc property ↦ ?_, hnodup, fun property ↦ ?_⟩
  · obtain ⟨_, _, hreports⟩ := exists_reports hc
    exact hreports.cleaned
  · obtain ⟨_, _, hreports⟩ := exists_reports hc
    exact hreports.fault
  · rw [mem_reported_calls hc]
    exact and_congr_right fun _ ↦ and_iff_right List.not_mem_nil
  · rw [hmem]
    exact and_iff_right List.not_mem_nil

/-- A root with a width that is none, and an element inside with two such values. -/
def overwide : Provider :=
  let element (style : List (String × String)) (children : List Handle) : ProvidedElement :=
    ⟨.ok { BoxMeasure.empty with tag := "div", style := .ofList style }, children⟩
  .ofElements [⟨"overwide", some 0⟩]
    #[element [("width", "wide")] [1], element [("width", "wider"), ("height", "tall")] []]

/-- What is met inside a document, or in a second one, is reported if it is new. -/
example : (calls overwide [] [(.empty, 0), (.empty, 1), (.empty, 2)]).map Ingestion.reported =
    [["width", "height"], [], []] := by
  decide

end Ingest

end ViewCompiler
