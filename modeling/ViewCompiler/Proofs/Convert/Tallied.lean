import ViewCompiler.Proofs.Convert.Prepared

/-!
# Every document is accounted for

A document that a provider offers is written, or reported as one without a root, or passed over
because the conversion was to stop. `Converter.accounts_for_documents` says that without extensions
each of them meets one of the three, whenever the conversion is told to stop, and that nothing else
goes wrong.

When to stop is a function from the number of the check to the answer (`Host.scheduled`). There is
one check for each document offered, and later one for each document that has been made into nodes.
So the documents that come through the checks are those at certain numbers (`selected`), and the
reports are tallied along the way (`Context.Tallied`): each step before a document is lost or gained
adds warnings at most (`Context.Warned`).
-/

namespace ViewCompiler

/-! ### Schedules -/

section

variable {α : Type}

/-- The elements of a list with numbers that pass a test, counted from `k`. -/
def selected (test : Nat → Bool) : Nat → List α → List α
  | _, [] => []
  | k, a :: r => if test k then a :: selected test (k + 1) r else selected test (k + 1) r

theorem map_selected {β : Type} (f : α → β) (test : Nat → Bool) (k : Nat) (l : List α) :
    (selected test k l).map f = selected test k (l.map f) := by
  induction l generalizing k with
  | nil => rfl
  | cons a r ih =>
    rw [List.map_cons, selected, selected, ← ih]
    split <;> rfl

/-- An element passes the test or fails it. -/
theorem length_selected_add (test : Nat → Bool) (k : Nat) (l : List α) :
    (selected test k l).length + (selected (fun j ↦ !test j) k l).length = l.length := by
  induction l generalizing k with
  | nil => rfl
  | cons a r ih =>
    have hr := ih (k + 1)
    rw [selected, selected, List.length_cons]
    cases test k
    · simp only [Bool.not_false, if_true, Bool.false_eq_true, if_false, List.length_cons]
      omega
    · simp only [Bool.not_true, if_true, Bool.false_eq_true, if_false, List.length_cons]
      omega

end

/-- A host without extensions that is told when to stop by the number of the check. -/
def Host.scheduled (stop : Nat → Bool) : Host Nat := ⟨fun k ↦ (stop k, k + 1), []⟩

namespace Provider

/-- Whether a document has a root element that can be measured and has a box. -/
def hasRoot (p : Provider) (d : DocumentRoot) : Bool :=
  match d.root with
  | none => false
  | some element =>
    match p.measure element with
    | .error _ => false
    | .ok m =>
      let display := (Style.ofMap m.style).display
      !(display == .none || display == .contents)

/-- The documents that are looked at. -/
def offered (p : Provider) (stop : Nat → Bool) : List DocumentRoot :=
  selected (fun k ↦ !stop k) 0 p.documents

/-- The documents that are made into nodes. -/
def made (p : Provider) (stop : Nat → Bool) : List DocumentRoot :=
  (p.offered stop).filter p.hasRoot

/-- The documents that are written. -/
def finished (p : Provider) (stop : Nat → Bool) : List DocumentRoot :=
  selected (fun k ↦ !stop k) p.documents.length (p.made stop)

end Provider

/-! ### Tallies -/

/-- How many reports there are of documents without output, and of documents passed over. -/
structure Context.Tallied (c : Context) (failed cancelled : Nat) : Prop where
  failed : c.diagnostics.countP Diagnostic.isError = failed
  cancelled : Diagnostic.count .cancelled c.diagnostics = cancelled
  noRoot : ∀ d ∈ c.diagnostics, d.isError = true → d.kind = .noRoot

/-- Contexts of which the second has the documents of the first and more warnings. -/
structure Context.Warned (c c' : Context) : Prop where
  documents : c'.documents = c.documents
  warnings : ∃ ds, c'.diagnostics = c.diagnostics ++ ds ∧
    ∀ d ∈ ds, d.severity = .warning ∧ d.kind ≠ .cancelled

namespace Context

variable {c c' c'' : Context} {failed cancelled : Nat}

namespace Warned

theorem of_eq (hdocuments : c'.documents = c.documents)
    (hdiagnostics : c'.diagnostics = c.diagnostics) : Warned c c' :=
  ⟨hdocuments, [], by rw [hdiagnostics, List.append_nil], by simp⟩

theorem refl (c : Context) : Warned c c := .of_eq rfl rfl

theorem trans (h : Warned c c') (h' : Warned c' c'') : Warned c c'' := by
  obtain ⟨ds, hds, hwarnings⟩ := h.warnings
  obtain ⟨ds', hds', hwarnings'⟩ := h'.warnings
  refine ⟨h'.documents.trans h.documents, ds ++ ds', ?_, fun d hd ↦ ?_⟩
  · rw [hds', hds, List.append_assoc]
  · exact (List.mem_append.1 hd).elim (hwarnings d) (hwarnings' d)

theorem foldl {α : Type} {f : Context → α → Context} (hf : ∀ c a, Warned c (f c a))
    (l : List α) (c : Context) : Warned c (l.foldl f c) := by
  induction l generalizing c with
  | nil => exact refl c
  | cons a r ih => exact (hf c a).trans (ih (f c a))

theorem warn {kind : DiagnosticKind} (hkind : kind ≠ .cancelled) (c : Context)
    (document : Option String) (node : Option NodeId) (message : String) :
    Warned c (c.warn kind document node message) :=
  ⟨rfl, [_], rfl, fun d hd ↦ by rw [List.mem_singleton.1 hd]; exact ⟨rfl, hkind⟩⟩

end Warned

theorem warned_modifyNode (c : Context) (id : NodeId) (f : Node → Node) :
    Warned c (c.modifyNode id f) := .of_eq rfl rfl

theorem warned_loadImages (loader : ImageLoader) (c : Context) :
    Warned c (c.loadImages loader) := by
  refine .foldl (fun c image ↦ ?_) _ c
  have hsize : ∀ (size : Size) (c : Context),
      Warned c (image.2.foldl (fun c id ↦ c.modifyNode id fun n ↦ n.withImageSize size) c) :=
    fun size ↦ .foldl (fun c id ↦ warned_modifyNode c id _) _
  rw [loadImage]
  dsimp only
  cases loader image.1 with
  | ok size => exact hsize size c
  | error e => exact (Warned.warn (by simp) c _ _ _).trans (hsize .zero _)

theorem warned_finalize (d : Dialect) (c : Context) (id : NodeId) : Warned c (c.finalize d id) :=
  .of_eq rfl rfl

theorem warned_reportRejected (c : Context) (e : TemplateError) :
    Warned c (c.reportRejected e) := by
  cases e <;> exact .warn (by simp) c _ _ _

namespace Tallied

theorem new (values : ValueStore) : Tallied (.new values) 0 0 :=
  ⟨rfl, rfl, fun _ hd ↦ absurd hd List.not_mem_nil⟩

/-- A report adds to what it is about. -/
theorem append (h : c.Tallied failed cancelled) (ds : List Diagnostic)
    (hds : c'.diagnostics = c.diagnostics ++ ds)
    (hnoRoot : ∀ d ∈ ds, d.isError = true → d.kind = .noRoot) :
    c'.Tallied (failed + ds.countP Diagnostic.isError)
      (cancelled + Diagnostic.count .cancelled ds) := by
  refine ⟨?_, ?_, fun d hd ↦ ?_⟩
  · rw [hds, List.countP_append, h.failed]
  · rw [hds, Diagnostic.count, List.filter_append, List.length_append]
    exact congrArg (· + _) h.cancelled
  · rw [hds] at hd
    exact (List.mem_append.1 hd).elim (h.noRoot d) (hnoRoot d)

/-- **Warnings do not count.** -/
theorem warned (h : c.Tallied failed cancelled) (hw : Warned c c') :
    c'.Tallied failed cancelled := by
  obtain ⟨ds, hds, hwarnings⟩ := hw.warnings
  have herror : ∀ d ∈ ds, d.isError = false := fun d hd ↦ by
    rw [Diagnostic.isError, (hwarnings d hd).1]
    rfl
  have herrors : ds.countP Diagnostic.isError = 0 :=
    List.countP_eq_zero.2 fun d hd ↦ by simp [herror d hd]
  have hcancelled : Diagnostic.count .cancelled ds = 0 := by
    rw [Diagnostic.count, List.length_eq_zero_iff, List.filter_eq_nil_iff]
    exact fun d hd ↦ by simpa using (hwarnings d hd).2
  have hall := h.append ds hds fun d hd herr ↦ absurd ((herror d hd).symm.trans herr) (by simp)
  rwa [herrors, hcancelled] at hall

theorem fail (h : c.Tallied failed cancelled) (document : String) (message : String) :
    (c.fail .noRoot document none message).Tallied (failed + 1) cancelled :=
  h.append [⟨.error, .noRoot, some document, none, message⟩] rfl (by simp)

theorem cancel (h : c.Tallied failed cancelled) (document : Option String) (message : String) :
    (c.report ⟨.info, .cancelled, document, none, message⟩).Tallied failed (cancelled + 1) :=
  h.append [⟨.info, .cancelled, document, none, message⟩] rfl (by simp [Diagnostic.isError])

end Tallied

end Context

open Context

/-! ### Ingestion -/

namespace Run

variable {stop : Nat → Bool}

theorem warned_reportIngestion (name : String) (report : IngestReport) (c : Context) :
    Warned c (reportIngestion name report c) :=
  (Warned.foldl (fun c _ ↦ .warn (by simp) c _ _ _) _ c).trans
    (.foldl (fun c _ ↦ .warn (by simp) c _ _ _) _ _)

/-- What has come of the documents up to a check: those with a root are listed, and the others are
reported. -/
structure Ingesting (k : Nat) (names : List String) (failed cancelled : Nat) (r : Run Nat) :
    Prop where
  checks : r.host = k
  names : r.context.documents.map DocumentEntry.name = names
  tallied : r.context.Tallied failed cancelled

/-- Ingestion finds a root where there is one. -/
theorem hasRoot_eq (p : Provider) {d : DocumentRoot} {element : Handle}
    (hroot : d.root = some element) (t : NodeTree) (warned : List String) :
    p.hasRoot d = match Ingest.document p t warned element with
      | .error _ => false
      | .ok (report, _, _) => report.root.isSome := by
  rw [Provider.hasRoot, hroot, Ingest.document]
  dsimp only
  cases p.measure element with
  | error e => rfl
  | ok m =>
    dsimp only
    cases (Style.ofMap m.style).display == .none || (Style.ofMap m.style).display == .contents <;>
      rfl

/-- **One document is looked at**: it is listed or reported. -/
theorem Ingesting.look {k : Nat} {names : List String} {failed cancelled : Nat} {r : Run Nat}
    (h : Ingesting k names failed cancelled r) (warned : List String) (p : Provider)
    (d : DocumentRoot) (hgo : stop k = false) :
    Ingesting (k + 1) (names ++ if p.hasRoot d then [d.name] else [])
      (failed + if p.hasRoot d then 0 else 1) cancelled
      (ingestDocument (.scheduled stop) p (r, warned) d).1 := by
  obtain ⟨c, k'⟩ := r
  obtain ⟨rfl, rfl, htallied⟩ := h
  have hpoll : poll (.scheduled stop) ⟨c, k'⟩ = (false, ⟨c, k' + 1⟩) := by
    rw [poll, Host.scheduled]
    dsimp only at hgo ⊢
    rw [hgo]
  have hfail : ∀ (c' : Context) (message : String), Warned c c' →
      Ingesting (k' + 1) (c.documents.map DocumentEntry.name ++ []) (failed + 1) cancelled
        ⟨c'.fail .noRoot d.name none message, k' + 1⟩ := fun c' message hw ↦ by
    refine ⟨rfl, ?_, (htallied.warned hw).fail d.name message⟩
    rw [List.append_nil, ← hw.documents]
    rfl
  rw [ingestDocument]
  simp only [hpoll, notify_of_nil (h := .scheduled stop) rfl]
  cases hroot : d.root with
  | none =>
    rw [Provider.hasRoot, hroot]
    exact hfail c _ (.refl c)
  | some element =>
    rw [hasRoot_eq p hroot c.tree warned]
    unfold ingestRoot
    dsimp only
    cases Ingest.document p c.tree warned element with
    | error e => exact hfail c _ (.refl c)
    | ok made =>
      obtain ⟨⟨root, count, unmeasured, errors⟩, t, warned'⟩ := made
      have hmade : Warned c { c with tree := t } := .of_eq rfl rfl
      have hw := hmade.trans
        (warned_reportIngestion d.name ⟨root, count, unmeasured, errors⟩ _)
      cases root with
      | none => exact hfail _ _ hw
      | some root =>
        dsimp only
        rw [notify_of_nil (h := .scheduled stop) rfl]
        have htallied' := htallied.warned hw
        refine ⟨rfl, ?_, htallied'.failed, htallied'.cancelled, htallied'.noRoot⟩
        rw [← hw.documents]
        exact List.map_append

/-- **One document is passed over.** -/
theorem Ingesting.pass {k : Nat} {names : List String} {failed cancelled : Nat} {r : Run Nat}
    (h : Ingesting k names failed cancelled r) (warned : List String) (p : Provider)
    (d : DocumentRoot) (hstop : stop k = true) :
    Ingesting (k + 1) names failed (cancelled + 1)
      (ingestDocument (.scheduled stop) p (r, warned) d).1 := by
  obtain ⟨c, k'⟩ := r
  obtain ⟨rfl, rfl, htallied⟩ := h
  have hpoll : poll (.scheduled stop) ⟨c, k'⟩ = (true, ⟨c, k' + 1⟩) := by
    rw [poll, Host.scheduled]
    dsimp only at hstop ⊢
    rw [hstop]
  rw [ingestDocument]
  simp only [hpoll]
  exact ⟨rfl, rfl, htallied.cancel (some d.name) "skipped before ingestion"⟩

/-- **All documents.** -/
theorem Ingesting.all {k : Nat} {names : List String} {failed cancelled : Nat} {r : Run Nat}
    (h : Ingesting k names failed cancelled r) (stop : Nat → Bool) (p : Provider)
    (ds : List DocumentRoot) (warned : List String) :
    Ingesting (k + ds.length)
      (names ++ ((selected (fun j ↦ !stop j) k ds).filter p.hasRoot).map DocumentRoot.name)
      (failed + (selected (fun j ↦ !stop j) k ds).countP fun d ↦ !p.hasRoot d)
      (cancelled + (selected stop k ds).length)
      (ds.foldl (ingestDocument (.scheduled stop) p) (r, warned)).1 := by
  induction ds generalizing k names failed cancelled r warned with
  | nil => simpa [selected] using h
  | cons d ds ih =>
    rw [List.foldl_cons, selected, selected]
    cases hstop : stop k with
    | true =>
      have hrest := ih (h.pass warned p d hstop)
        (ingestDocument (.scheduled stop) p (r, warned) d).2
      simpa [Nat.add_assoc, Nat.add_comm 1] using hrest
    | false =>
      have hrest := ih (h.look warned p d hstop)
        (ingestDocument (.scheduled stop) p (r, warned) d).2
      cases hroot : p.hasRoot d <;>
        simpa [hroot, Nat.add_assoc, Nat.add_comm 1, List.countP_cons] using hrest

end Run

/-! ### Classification -/

namespace Decided

variable {σ : Type} {h : Host σ} {stop : Nat → Bool}

/-- Steps after which there are the same documents and at most more warnings, and in which nobody
has asked whether to stop. -/
structure Warned (d d' : Decided σ) : Prop where
  context : Context.Warned d.run.context d'.run.context
  host : d'.run.host = d.run.host

theorem Warned.trans {d d' d'' : Decided σ} (h : Warned d d') (h' : Warned d' d'') :
    Warned d d'' :=
  ⟨h.context.trans h'.context, h'.host.trans h.host⟩

theorem warned_record (hnil : h.extensions = []) (name : String) (d : Decided σ)
    (decision : LayoutDecision) : Warned d (d.record h name decision) := by
  rw [record, Run.notify_of_nil hnil]
  split
  · exact ⟨.warn (by simp) _ _ _ _, rfl⟩
  · exact ⟨.refl _, rfl⟩

theorem warned_classify (hnil : h.extensions = []) (layout : LayoutConfig) (name : String)
    (parent : NodeId) (d : Decided σ) : Warned d (d.classify h layout name parent).2 := by
  rw [classify]
  cases Classify.run layout d.run.context.tree parent with
  | error e => exact ⟨.refl _, rfl⟩
  | ok made =>
    obtain ⟨outcome, t⟩ := made
    have hmade : Context.Warned d.run.context { d.run.context with tree := t } := .of_eq rfl rfl
    have hskipped : Context.Warned { d.run.context with tree := t }
        (outcome.skipped.foldl (fun c e ↦
          c.warn .skippedMember (some name) (some e.1) e.2.message)
          { d.run.context with tree := t }) :=
      .foldl (fun c e ↦ .warn (by simp) c _ _ _) _ _
    have hrecord : ∀ (ds : List LayoutDecision) (d : Decided σ),
        Warned d (ds.foldl (record h name) d) := fun ds ↦ by
      induction ds with
      | nil => exact fun d ↦ ⟨.refl _, rfl⟩
      | cons e r ih => exact fun d ↦ (warned_record hnil name d e).trans (ih _)
    have hfirst : Warned d (d.modify fun c ↦ outcome.skipped.foldl (fun c e ↦
        c.warn .skippedMember (some name) (some e.1) e.2.message) { c with tree := t }) :=
      ⟨hmade.trans hskipped, rfl⟩
    exact hfirst.trans (hrecord outcome.decisions _)

theorem warned_decideAll (hnil : h.extensions = []) (layout : LayoutConfig) (name : String)
    (parents : List NodeId) (d : Decided σ) :
    Warned d (decideAll h layout name parents d).2 := by
  induction parents generalizing d with
  | nil => exact ⟨.refl _, rfl⟩
  | cons parent r ih =>
    have hfirst : Warned d (d.decideNode h layout name parent).2 := by
      rw [decideNode, Run.dispatch_of_nil hnil]
      exact warned_classify hnil layout name parent d
    rw [decideAll]
    split
    · rename_i d' hok
      rw [hok] at hfirst
      exact hfirst.trans (ih d')
    · rename_i e d' herror
      rw [herror] at hfirst
      exact hfirst

theorem warned_decideDocument (hnil : h.extensions = []) (layout : LayoutConfig)
    (document : DocumentEntry) (d : Decided σ) :
    Warned d (d.decideDocument h layout document).2 := by
  rw [decideDocument]
  split
  · exact ⟨.refl _, rfl⟩
  · exact warned_decideAll hnil layout document.name _ d

/-- What has come of the documents up to a check: some are kept or passed over, and the rest is yet
to be looked at. -/
structure Deciding (k : Nat) (done rest : List DocumentEntry) (failed cancelled : Nat)
    (d : Decided Nat) : Prop where
  checks : d.run.host = k
  documents : d.run.context.documents = done ++ rest
  nodup : ((done ++ rest).map DocumentEntry.root).Nodup
  tallied : d.run.context.Tallied failed cancelled

namespace Deciding

variable {layout : LayoutConfig} {failed cancelled k : Nat} {done r rest : List DocumentEntry}
  {e : DocumentEntry} {d : Decided Nat}

theorem poll_eq (h : Deciding k done rest failed cancelled d) (stop : Nat → Bool) :
    d.run.poll (.scheduled stop) = (stop k, ⟨d.run.context, k + 1⟩) := by
  rw [Run.poll, ← h.checks]
  rfl

/-- One root is taken out of the list. -/
theorem filter_documents (h : Deciding k done (e :: r) failed cancelled d) :
    (d.run.context.documents.filter fun e' ↦ decide (e'.root ≠ e.root)) = done ++ r := by
  have hnodup := h.nodup
  rw [List.map_append, List.map_cons] at hnodup
  obtain ⟨-, hrest, hdisjoint⟩ := List.nodup_append'.1 hnodup
  have hdone : ∀ e' ∈ done, e'.root ≠ e.root := fun e' he' hroot ↦
    hdisjoint (List.mem_map_of_mem he') (hroot ▸ List.mem_cons_self)
  have hlater : ∀ e' ∈ r, e'.root ≠ e.root := fun e' he' hroot ↦
    (List.nodup_cons.1 hrest).1 (hroot ▸ List.mem_map_of_mem he')
  rw [h.documents, List.filter_append, List.filter_cons_of_neg (by simp),
    List.filter_eq_self.2 (by simpa using hdone), List.filter_eq_self.2 (by simpa using hlater)]

/-- **One document is passed over.** -/
theorem pass (h : Deciding k done (e :: r) failed cancelled d) (hstop : stop k = true) :
    Deciding (k + 1) done r failed (cancelled + 1) (d.document (.scheduled stop) layout e) := by
  have hstep : d.document (.scheduled stop) layout e =
      Decided.modify { d with run := ⟨d.run.context, k + 1⟩ } fun c ↦
        (c.report ⟨.info, .cancelled, some e.name, none,
          "skipped before classification"⟩).removeDocument e.root := by
    rw [document, h.poll_eq stop, hstop]
  have hcancelled := h.tallied.cancel (some e.name) "skipped before classification"
  rw [hstep]
  exact ⟨rfl, h.filter_documents,
    h.nodup.sublist (((List.sublist_cons_self e r).append_left done).map _),
    hcancelled.failed, hcancelled.cancelled, hcancelled.noRoot⟩

/-- **One document is kept.** -/
theorem keep (h : Deciding k done (e :: r) failed cancelled d) (hgo : stop k = false)
    (hsettles : d.Settles (.scheduled stop) layout e) :
    Deciding (k + 1) (done ++ [e]) r failed cancelled
      (d.document (.scheduled stop) layout e) := by
  have hpoll := h.poll_eq stop
  rw [hgo] at hpoll
  obtain ⟨d', hok⟩ := hsettles (by rw [hpoll])
  rw [hpoll] at hok
  have hstep : d.document (.scheduled stop) layout e = d' := by
    rw [document, hpoll]
    dsimp only at hok ⊢
    rw [hok]
  have hw := warned_decideDocument (h := .scheduled stop) rfl layout e
    { d with run := ⟨d.run.context, k + 1⟩ }
  rw [hok] at hw
  rw [hstep]
  exact ⟨hw.host, by rw [hw.context.documents, List.append_assoc]; exact h.documents,
    by rw [List.append_assoc]; exact h.nodup, h.tallied.warned hw.context⟩

/-- **All documents that have been made into nodes**, some of which are passed over. -/
theorem all (h : Deciding k done rest failed cancelled d)
    (hsettles : SettlesAll (.scheduled stop) layout rest d) :
    Deciding (k + rest.length) (done ++ selected (fun j ↦ !stop j) k rest) [] failed
      (cancelled + (selected stop k rest).length)
      (rest.foldl (document (.scheduled stop) layout) d) := by
  induction rest generalizing done d k cancelled with
  | nil => simpa [selected] using h
  | cons e r ih =>
    obtain ⟨hfirst, hsettles⟩ := hsettles
    rw [List.foldl_cons, selected, selected]
    cases hstop : stop k with
    | true =>
      have hall := ih (h.pass hstop) hsettles
      simpa [Nat.add_assoc, Nat.add_comm 1] using hall
    | false =>
      have hall := ih (h.keep hstop hfirst) hsettles
      simpa [Nat.add_assoc, Nat.add_comm 1] using hall

end Deciding

end Decided

/-! ### Assembly -/

/-- After the decisions no document is gained or lost. -/
theorem Converter.warned_assemble {σ : Type} {c : Converter σ} (hnil : c.host.extensions = [])
    {d : Decided σ} {a : Assembled} {r : Run σ} (h : c.assemble d = (.ok a, r)) :
    Warned d.run.context r.context := by
  unfold assemble at h
  dsimp only at h
  split at h
  · exact absurd h (by simp)
  · rename_i rendered hrendered
    rw [Run.notify_of_nil hnil] at h
    split at h
    · exact absurd h (by simp)
    · rename_i assembly d' hok
      obtain ⟨-, rfl⟩ := Prod.mk.inj h
      obtain ⟨es, rfl⟩ := Decided.assemble_reports hok
      have hdepths : Warned d.run.context
          { d.run.context with tree := d.run.context.tree.computeRenderDepths } := .of_eq rfl rfl
      have hreported := (hdepths.trans (.foldl (warned_finalize c.target) rendered _)).trans
        (.foldl warned_reportRejected es _)
      exact hreported.trans (.of_eq (Context.unmoved_share _ _ _ _).documents
        (Context.diagnostics_share _ _ _ _))

namespace Converter

/-- A conversion without extensions that is told when to stop. -/
theorem tallied_ingest {c : Converter Nat} (p : Provider) {stop : Nat → Bool}
    (hhost : c.host = .scheduled stop) (palette : Palette) :
    (c.ingest p palette 0).Ingesting p.documents.length ((p.made stop).map DocumentRoot.name)
      ((p.offered stop).countP fun d ↦ !p.hasRoot d) (selected stop 0 p.documents).length := by
  have hnew : Run.Ingesting 0 [] 0 0 ⟨.new (.new c.slug c.config.values palette), 0⟩ :=
    ⟨rfl, rfl, .new _⟩
  have hall := hnew.all stop p p.documents []
  rw [ingest, Run.ingest, hhost]
  simpa [Provider.made, Provider.offered] using hall

/-- Images are loaded between the checks. -/
theorem warned_loadImages {σ : Type} (c : Converter σ) (r : Run σ) :
    Warned r.context (c.loadImages r).context ∧ (c.loadImages r).host = r.host := by
  rw [loadImages]
  cases c.loader with
  | none => exact ⟨.refl _, rfl⟩
  | some loader => exact ⟨Context.warned_loadImages loader r.context, rfl⟩

/-- **After the decisions**: the documents that are left, and what has been reported so far. -/
theorem tallied_decided {c : Converter Nat} (p : Provider) {stop : Nat → Bool}
    (hhost : c.host = .scheduled stop) (palette : Palette) :
    (Decided.documents c.host c.config.layout
        (c.loadImages (c.ingest p palette 0))).run.context.documents =
        selected (fun j ↦ !stop j) p.documents.length (c.ingest p palette 0).context.documents ∧
      (Decided.documents c.host c.config.layout
        (c.loadImages (c.ingest p palette 0))).run.context.Tallied
          ((p.offered stop).countP fun d ↦ !p.hasRoot d)
          ((selected stop 0 p.documents).length + (selected stop p.documents.length
            (c.ingest p palette 0).context.documents).length) := by
  have hnil : c.host.extensions = [] := by rw [hhost]; rfl
  have hh := Host.obeys_of_extensions_eq_nil hnil .decides
  have hingesting := tallied_ingest p hhost palette
  obtain ⟨hw, hchecks⟩ := c.warned_loadImages (c.ingest p palette 0)
  have hingested := ingested hh p palette 0
  have hsettles := settlesAll_documents hh c.config.layout hingested
  rw [hhost] at hsettles ⊢
  have hfirst : Decided.Deciding p.documents.length []
      (c.loadImages (c.ingest p palette 0)).context.documents _ _
      (.new (c.loadImages (c.ingest p palette 0))) :=
    ⟨hchecks.trans hingesting.checks, rfl, hingested.nodup, hingesting.tallied.warned hw⟩
  have hall := hfirst.all hsettles
  rw [hw.documents] at hall
  rw [Decided.documents, hw.documents]
  exact ⟨hall.documents.trans (by rw [List.append_nil, List.nil_append]), hall.tallied⟩

/-- **Every document is accounted for.** Without extensions, and whenever a conversion is told to
stop, it fails only if no document has been made into nodes and not all were passed over before
that. If it does not fail, each of the documents offered is written, or reported as an error, or
reported as passed over; all errors are about missing roots, and the documents are written in the
order in which they are offered. -/
theorem accounts_for_documents (c : Converter Nat) (p : Provider) {stop : Nat → Bool}
    (hhost : c.host = .scheduled stop) {palette : Palette}
    (hcheck : c.config.check = .ok palette) :
    let ingested := (c.ingest p palette 0).context
    let passed := Diagnostic.count .cancelled ingested.diagnostics
    (ingested.documents.map DocumentEntry.name = (p.made stop).map DocumentRoot.name ∧
        passed + (p.offered stop).length = p.documents.length) ∧
      ((c.convert p 0).1 = .error .noRoot ↔
        ingested.documents = [] ∧ passed < p.documents.length) ∧
      ((c.convert p 0).1 ≠ .error .noRoot → ∃ o, (c.convert p 0).1 = .ok o ∧
        p.documents.length = o.documents.length + o.diagnostics.countP Diagnostic.isError +
          Diagnostic.count .cancelled o.diagnostics ∧
        (∀ d ∈ o.diagnostics, d.isError = true → d.kind = .noRoot) ∧
        o.documents.map DocumentOutput.name = (p.finished stop).map DocumentRoot.name) := by
  intro ingested passed
  have hnil : c.host.extensions = [] := by rw [hhost]; rfl
  have hingesting := tallied_ingest p hhost palette
  have hpassed : passed = (selected stop 0 p.documents).length := hingesting.tallied.cancelled
  have hlength := length_selected_add stop 0 p.documents
  by_cases hempty : c.IsEmpty p palette 0
  · have hnoRoot : (c.convert p 0).1 = .error .noRoot := by
      simp only [convert, hcheck, convertWith, assembled_of_isEmpty hempty]
    refine ⟨⟨hingesting.names, ?_⟩, iff_of_true hnoRoot hempty, fun hne ↦ absurd hnoRoot hne⟩
    exact hpassed ▸ hlength
  · obtain ⟨moved, kept, d, a, r, os, o, h⟩ := exists_converted_of_not_isEmpty
      (Host.obeys_of_extensions_eq_nil hnil .decides) hcheck hempty
    obtain ⟨hdocuments, htallied⟩ := tallied_decided p hhost palette
    rw [show (c.ingest p palette 0).context = ingested from rfl] at hdocuments htallied
    have hw := warned_assemble hnil ((assembled_of_not_isEmpty hempty).symm.trans h.assembled)
    have htallied' := htallied.warned hw
    -- the documents that are left are the targets, and each target is written
    have htargets : a.targets = selected (fun j ↦ !stop j) p.documents.length
        ingested.documents := by
      rw [h.written.targets, h.concluded.targets_eq (about_answers hnil p palette 0),
        ← h.written.unmoved.documents, hw.documents, hdocuments]
    have hresolutions : (a.resolutions r.context.tree).length = a.targets.length := by
      have hroots := congrArg List.length h.written.roots
      rwa [List.length_map, List.length_map, ← h.written.targets] at hroots
    have hnames : o.documents.map DocumentOutput.name = a.targets.map DocumentEntry.name := by
      rw [h.documents, List.map_map]
      refine Eq.trans ?_ (congrArg _ (List.map_fst_zip hresolutions.ge))
      rw [List.map_map]
      rfl
    have hok : (c.convert p 0).1 = .ok o := h.convert
    have hmade : ingested.documents.length = (p.made stop).length := by
      simpa using congrArg List.length hingesting.names
    have hlooked : (p.offered stop).length =
        (p.made stop).length + (p.offered stop).countP fun d ↦ !p.hasRoot d := by
      rw [List.countP_eq_length_filter]
      exact List.length_eq_length_filter_add p.hasRoot
    have hwritten : o.documents.length = a.targets.length := by
      simpa using congrArg List.length hnames
    have hlater := length_selected_add stop p.documents.length ingested.documents
    refine ⟨⟨hingesting.names, ?_⟩, iff_of_false (by simp [hok]) hempty,
      fun _ ↦ ⟨o, hok, ?_, ?_, ?_⟩⟩
    · exact hpassed ▸ hlength
    · rw [h.diagnostics, htallied'.failed, htallied'.cancelled, hwritten, htargets]
      change _ + (p.offered stop).length = _ at hlength
      omega
    · rw [h.diagnostics]
      exact htallied'.noRoot
    · rw [hnames, htargets, Provider.finished, map_selected, map_selected]
      exact congrArg _ hingesting.names

end Converter

/-- Three documents, of which one has no root. -/
def Provider.threeDocuments : Provider :=
  .ofElements [⟨"first", some 0⟩, ⟨"empty", none⟩, ⟨"second", some 1⟩]
    #[⟨.ok { BoxMeasure.empty with tag := "div" }, []⟩,
      ⟨.ok { BoxMeasure.empty with tag := "div" }, []⟩]

/-- A conversion without extensions that stops at its fifth check. -/
def Converter.stopsAtFifth : Converter Nat where
  config := { ConversionConfig.default with palette := .empty }
  slug := Text.asciiSlug
  host := .scheduled fun k ↦ decide (4 ≤ k)
  dialect := none
  loader := none

/-- One document is written, one has no root, and one is passed over. -/
theorem Converter.accounts_for_documents_stopsAtFifth :
    stopsAtFifth.host = .scheduled (fun k ↦ decide (4 ≤ k)) ∧
      stopsAtFifth.config.check = .ok ⟨[]⟩ ∧
      ∃ o, (stopsAtFifth.convert .threeDocuments 0).1 = .ok o ∧
        3 = o.documents.length + o.diagnostics.countP Diagnostic.isError +
          Diagnostic.count .cancelled o.diagnostics ∧
        o.documents.map DocumentOutput.name = ["first"] := by
  have hcheck : stopsAtFifth.config.check = .ok ⟨[]⟩ := rfl
  obtain ⟨⟨hmade, -⟩, hnoRoot, hothers⟩ :=
    accounts_for_documents stopsAtFifth .threeDocuments rfl hcheck
  have hne : (stopsAtFifth.convert .threeDocuments 0).1 ≠ .error .noRoot := fun h ↦ by
    rw [(hnoRoot.1 h).1] at hmade
    exact absurd hmade (by decide)
  obtain ⟨o, hok, hcount, -, hnames⟩ := hothers hne
  refine ⟨rfl, hcheck, o, hok, hcount, hnames.trans ?_⟩
  decide

end ViewCompiler
