import ViewCompiler.Json.Reader
import ViewCompiler.Layout.Config
import ViewCompiler.Resource.Sharing
import ViewCompiler.Resource.Store

/-!
# Configuration of a conversion

Everything that a conversion can be tuned with.  A configuration is read from a JSON object in
which any field may be missing (`ConversionConfig.ofJson?`), and checked before it is used
(`ConversionConfig.check`).
-/

namespace ViewCompiler

/-- What is wrong with a configuration. -/
inductive ConfigError where
  | density (value : Scalar)
  | textScale (value : Scalar)
  | palette (cause : PaletteError)
  /-- The text is not a configuration. -/
  | malformed
  deriving DecidableEq

def ConfigError.message : ConfigError → String
  | density x => "Configuration error: density must be a positive number, got " ++ x.shortest
  | textScale x => "Configuration error: textScale must be a positive number, got " ++ x.shortest
  | palette e => "Resource value error: " ++ e.message
  | malformed => "JSON error"

structure ConversionConfig where
  layout : LayoutConfig
  /-- Document pixels in one density-independent pixel. -/
  density : Scalar
  /-- What sizes of text are multiplied by. -/
  textScale : Scalar
  /-- Names of colors with their texts. -/
  palette : SortedMap String String
  values : NameConfig
  sharing : SharingConfig
  layoutDir : String
  valuesDir : String
  drawableDir : String

namespace ConversionConfig

def default : ConversionConfig where
  layout := .default
  density := 1
  textScale := 1
  palette := .ofList Palette.basicTexts
  values := .default
  sharing := .default
  layoutDir := "res/layout"
  valuesDir := "res/values"
  drawableDir := "res/drawable"

instance : Inhabited ConversionConfig := ⟨default⟩

/-- Reads a configuration; what is missing has its default. -/
def ofJson? (j : Json) : Option ConversionConfig := do
  match ← j.fields? ["layout", "density", "textScale", "palette", "values", "dedup", "layoutDir",
      "valuesDir", "drawableDir"] with
  | [layout, density, textScale, palette, values, sharing, layoutDir, valuesDir, drawableDir] =>
    let layout ← Json.withDefault default.layout LayoutConfig.ofJson? layout
    let density ← Json.withDefault default.density Json.scalar? density
    let textScale ← Json.withDefault default.textScale Json.scalar? textScale
    let palette ← Json.withDefault default.palette
      (fun j => j.texts?.map SortedMap.ofList) palette
    let values ← Json.withDefault default.values NameConfig.ofJson? values
    let sharing ← Json.withDefault default.sharing SharingConfig.ofJson? sharing
    let layoutDir ← Json.withDefault default.layoutDir Json.string? layoutDir
    let valuesDir ← Json.withDefault default.valuesDir Json.string? valuesDir
    let drawableDir ← Json.withDefault default.drawableDir Json.string? drawableDir
    return ⟨layout, density, textScale, palette, values, sharing, layoutDir, valuesDir,
      drawableDir⟩
  | _ => none

/-- A finite number above zero. -/
def isPositive (x : Scalar) : Bool := x.isFinite && x > 0

/-- The palette of a configuration, if every number of it is positive and every color of it can be
read. -/
def check (c : ConversionConfig) : Except ConfigError Palette :=
  if !isPositive c.density then .error (.density c.density)
  else if !isPositive c.textScale then .error (.textScale c.textScale)
  else
    match Palette.ofMap c.palette with
    | .ok p => .ok p
    | .error e => .error (.palette e)

/-- Reads and checks a configuration. -/
def ofText (s : String) : Except ConfigError ConversionConfig :=
  match (Json.ofText? s).bind ofJson? with
  | none => .error .malformed
  | some c =>
    match c.check with
    | .ok _ => .ok c
    | .error e => .error e

/-- The names of the fields in the written form, in order, those of records and maps with the
names inside. -/
def writtenFields (c : ConversionConfig) : List (String × Option (List String)) := [
  ("dedup", some ["enabled", "excludedAttributes"]), ("density", none), ("drawableDir", none),
  ("layout", some ["floatOverlap", "originTolerancePx", "tolerancePx"]), ("layoutDir", none),
  ("palette", some c.palette.keys), ("textScale", none),
  ("values", some ["maxSlugWords", "reservedPrefix"]), ("valuesDir", none)]

end ConversionConfig

end ViewCompiler
