import ViewCompiler.Convert.Extension
import ViewCompiler.Layout.Ingest

/-!
# Documents of a conversion

`Run.ingest` makes the nodes of all documents that a provider offers.  A document without a root
that takes part in the layout is reported and left out.
-/

namespace ViewCompiler

namespace Run

variable {σ : Type}

/-- Reports what was wrong in a document. -/
def reportIngestion (name : String) (report : IngestReport) (c : Context) : Context :=
  let c := report.unmeasured.foldl (fun c (element, e) =>
    c.warn .unmeasured (some name) none
      ("element " ++ Handle.text element ++ " hidden: " ++ e.message)) c
  report.styleErrors.foldl (fun c e => c.warn .styleParse (some name) none e.message) c

/-- Makes the nodes of the document with a given root element.  `warned` are the properties of
which an error has been reported. -/
def ingestRoot (h : Host σ) (p : Provider) (name : String) (element : Handle)
    (s : Run σ × List String) : Run σ × List String :=
  let (r, warned) := s
  match Ingest.document p r.context.tree warned element with
  | .error e =>
    let message :=
      "root element " ++ Handle.text e.element ++ " could not be measured: " ++ e.cause.message
    (r.modify fun c => c.fail .noRoot name none message, warned)
  | .ok (report, t, warned) =>
    let r := r.modify fun c => reportIngestion name report { c with tree := t }
    match report.root with
    | none =>
      (r.modify fun c => c.fail .noRoot name none "root element does not participate in layout",
        warned)
    | some root =>
      let r := r.modify fun c => c.addDocument name root
      (r.notify h .afterIngest (some name) (some root), warned)

/-- Makes the nodes of a document, unless the conversion is to stop. -/
def ingestDocument (h : Host σ) (p : Provider) (s : Run σ × List String) (d : DocumentRoot) :
    Run σ × List String :=
  let (r, warned) := s
  match r.poll h with
  | (true, r) =>
    (r.modify fun c =>
      c.report ⟨.info, .cancelled, some d.name, none, "skipped before ingestion"⟩, warned)
  | (false, r) =>
    let r := r.notify h .beforeIngest (some d.name) none
    match d.root with
    | none => (r.modify fun c => c.fail .noRoot d.name none "no root element", warned)
    | some element => ingestRoot h p d.name element (r, warned)

/-- Makes the nodes of all documents. -/
def ingest (h : Host σ) (p : Provider) (r : Run σ) : Run σ :=
  (p.documents.foldl (ingestDocument h p) (r, [])).1

end Run

end ViewCompiler
