import ViewCompiler.Convert.Diagnostic
import ViewCompiler.Files.Output
import ViewCompiler.Resource.Tables

/-!
# Output of a conversion

The documents, the resources and the diagnostics of a conversion, and the files that they are
written to (`ConversionOutput.files`).
-/

namespace ViewCompiler

/-- A written document. -/
structure DocumentOutput where
  name : String
  /-- The name of the file without its extension. -/
  fileStem : String
  root : NodeId
  content : String
  deriving DecidableEq

/-- The name of a document's file, from its slug: lower-case letters, digits and underscores, with a
letter in front. -/
def DocumentOutput.stem (slug : String → String) (name : String) (root : NodeId) : String :=
  let stem := Text.underscored (slug name)
  if stem.isEmpty then "layout_" ++ toString root
  else if Name.startsWithDigit stem then "layout_" ++ stem
  else stem

/-- What a conversion has made, with the directories for it. -/
structure ConversionOutput where
  documents : List DocumentOutput
  tables : ResourceTables
  diagnostics : List Diagnostic
  layoutDir : String
  valuesDir : String
  drawableDir : String

namespace ConversionOutput

/-- The first document with a name. -/
def document? (o : ConversionOutput) (name : String) : Option DocumentOutput :=
  o.documents.find? fun d => d.name == name

/-- All files: the documents, then the tables of values, then the drawables. -/
def files (o : ConversionOutput) : List EmittedFile :=
  (o.documents.map fun d => ⟨o.layoutDir, d.fileStem ++ ".xml", d.content⟩) ++
    (o.tables.valueFiles.map fun (name, content) => ⟨o.valuesDir, name, content⟩) ++
    (o.tables.drawableFiles.map fun (name, content) => ⟨o.drawableDir, name, content⟩)

def hasErrors (o : ConversionOutput) : Bool := o.diagnostics.any Diagnostic.isError

end ConversionOutput

end ViewCompiler
