import ViewCompiler.Android
import ViewCompiler.Convert.Documents
import ViewCompiler.Convert.Images
import ViewCompiler.Convert.Targets

/-!
# Conversion

From measured boxes to view documents and resources.

* `Converter.convert` : checks the configuration, and converts all documents of a provider.

The conversion fails as a whole only if the configuration is wrong or no document has a root that
takes part in the layout; all else is reported in the output.
-/

namespace ViewCompiler

/-- What a conversion is done with. -/
structure Converter (σ : Type) where
  config : ConversionConfig
  /-- The slug of a text, from which names are made. -/
  slug : String → String
  host : Host σ
  /-- The dialect, unless it is the one for the configured screen. -/
  dialect : Option Dialect
  /-- The sizes of images, if they are asked for. -/
  loader : Option ImageLoader

namespace Converter

variable {σ : Type}

/-- A converter without extensions and images. -/
def ofConfig (config : ConversionConfig) (slug : String → String) : Converter Unit :=
  ⟨config, slug, .quiet, none, none⟩

/-- The dialect of the output. -/
def target (c : Converter σ) : Dialect :=
  c.dialect.getD (Android.dialect c.slug (.new c.config.density c.config.textScale))

/-- Gives the nodes in the output their attributes, and assembles the documents on which has been
decided. -/
def assemble (c : Converter σ) (d : Decided σ) : Except ConversionError Assembled × Run σ :=
  let d := d.modify fun c => { c with tree := c.tree.computeRenderDepths }
  let targets := d.run.context.targets
  match d.renderedNodes targets with
  | .error e => (.error (.layout e), d.run)
  | .ok rendered =>
    let d := d.modify fun context => rendered.foldl (Context.finalize c.target) context
    let d := { d with run := d.run.notify c.host .beforeResourcePass none none }
    match d.assemble targets with
    | .error e => (.error e, d.run)
    | .ok (assembly, d) =>
      let (styles, context) := d.run.context.share c.target c.config.sharing rendered
      (.ok ⟨targets, assembly, styles⟩, { d.run with context := context })

/-- The documents of a provider made into nodes, with a palette of colors. -/
def ingest (c : Converter σ) (p : Provider) (palette : Palette) (s : σ) : Run σ :=
  Run.ingest c.host p ⟨.new (.new c.slug c.config.values palette), s⟩

/-- Asks for the sizes of images, if there is a loader. -/
def loadImages (c : Converter σ) (r : Run σ) : Run σ :=
  match c.loader with
  | some loader => r.modify fun context => context.loadImages loader
  | none => r

/-- The documents of a provider before they are written. -/
def assembled (c : Converter σ) (p : Provider) (palette : Palette) (s : σ) :
    Except ConversionError Assembled × Run σ :=
  let r := c.ingest p palette s
  let cancelled := Diagnostic.count .cancelled r.context.diagnostics
  if r.context.documents.isEmpty && decide (cancelled < p.documents.length) then
    (.error .noRoot, r)
  else c.assemble (Decided.documents c.host c.config.layout (c.loadImages r))

/-- Converts all documents with a palette of colors. -/
def convertWith (c : Converter σ) (p : Provider) (palette : Palette) (s : σ) :
    Except ConversionError ConversionOutput × σ :=
  match c.assembled p palette s with
  | (.error e, r) => (.error e, r.host)
  | (.ok a, r) =>
    let (documents, r) := r.write c.host c.slug c.target a
    (.ok {
      documents := documents
      tables := .collect r.context.values a.styles
      diagnostics := r.context.diagnostics
      layoutDir := c.config.layoutDir
      valuesDir := c.config.valuesDir
      drawableDir := c.config.drawableDir }, r.host)

/-- Converts all documents of a provider, and answers with the state that the host is left in. -/
def convert (c : Converter σ) (p : Provider) (s : σ) :
    Except ConversionError ConversionOutput × σ :=
  match c.config.check with
  | .error e => (.error (.config e), s)
  | .ok palette => c.convertWith p palette s

end Converter

end ViewCompiler
