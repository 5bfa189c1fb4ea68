import ViewCompiler.Convert.Diagnostic
import ViewCompiler.Layout.Walk
import ViewCompiler.Resource.Store

/-!
# The context of a conversion

Everything that a conversion has made so far, which is also what extensions see and change.

* `Context.externalHost` : a named place outside all documents, for nodes to be moved to;
* `Context.documentName?` : the document or host that a node belongs to.
-/

namespace ViewCompiler

/-- A document with its root. -/
structure DocumentEntry where
  name : String
  root : NodeId
  deriving DecidableEq

structure Context where
  tree : NodeTree
  values : ValueStore
  diagnostics : List Diagnostic
  /-- The documents that are being converted, in the order of the provider. -/
  documents : List DocumentEntry
  hosts : SortedMap String NodeId

namespace Context

def new (values : ValueStore) : Context := ⟨.empty, values, [], [], .empty⟩

/-- The host with a name, which is made at the first request. -/
def externalHost (c : Context) (name : String) : NodeId × Context :=
  match c.hosts.get? name with
  | some id => (id, c)
  | none =>
    let (id, t) := c.tree.alloc .host "host"
    (id, { c with tree := t, hosts := c.hosts.insert name id })

/-- The root of the first document with a name. -/
def documentNamed? (c : Context) (name : String) : Option NodeId :=
  (c.documents.find? fun d => d.name == name).map DocumentEntry.root

def addDocument (c : Context) (name : String) (root : NodeId) : Context :=
  { c with documents := c.documents ++ [⟨name, root⟩] }

def removeDocument (c : Context) (root : NodeId) : Context :=
  { c with documents := c.documents.filter fun d => d.root ≠ root }

def modifyNode (c : Context) (id : NodeId) (f : Node → Node) : Context :=
  { c with tree := c.tree.modify id f }

def report (c : Context) (d : Diagnostic) : Context :=
  { c with diagnostics := c.diagnostics ++ [d] }

/-- Reports what does not stop a document. -/
def warn (c : Context) (kind : DiagnosticKind) (document : Option String) (node : Option NodeId)
    (message : String) : Context :=
  c.report ⟨.warning, kind, document, node, message⟩

/-- Reports that a document has no output. -/
def fail (c : Context) (kind : DiagnosticKind) (document : String) (node : Option NodeId)
    (message : String) : Context :=
  c.report ⟨.error, kind, some document, node, message⟩

/-- The name of the document with a root. -/
def nameOfRoot? (c : Context) (root : NodeId) : Option String :=
  (c.documents.find? fun d => d.root == root).map DocumentEntry.name

/-- The name of the document or host that a node belongs to. -/
def documentName? (c : Context) (id : NodeId) : Option String :=
  match c.tree.documentOf id with
  | .error _ => none
  | .ok root =>
    c.nameOfRoot? root <|> (c.hosts.entries.find? fun e => e.2 == root).map Prod.fst

end Context

end ViewCompiler
