import ViewCompiler.Color
import ViewCompiler.SortedMap

/-!
# Palettes

Named colors; a stored color takes its name from the nearest of them.
-/

namespace ViewCompiler

/-- A named color that cannot be read. -/
structure PaletteError where
  name : String
  cause : ColorError
  deriving DecidableEq

def PaletteError.message (e : PaletteError) : String :=
  "Invalid palette entry '" ++ e.name ++ "': " ++ e.cause.message

/-- Colors with names. -/
structure Palette where
  entries : List (String × Color)
  deriving DecidableEq

namespace Palette

/-- The basic colors, as texts. -/
def basicTexts : List (String × String) := [
  ("aqua", "#00FFFF"), ("black", "#000000"), ("blue", "#0000FF"), ("fuchsia", "#FF00FF"),
  ("gray", "#808080"), ("green", "#008000"), ("lime", "#00FF00"), ("maroon", "#800000"),
  ("navy", "#000080"), ("olive", "#808000"), ("purple", "#800080"), ("red", "#FF0000"),
  ("silver", "#C0C0C0"), ("teal", "#008080"), ("white", "#FFFFFF"), ("yellow", "#FFFF00")]

/-- The basic colors. -/
def basic : Palette := ⟨[
  ("aqua", .rgb 0 255 255), ("black", .rgb 0 0 0), ("blue", .rgb 0 0 255),
  ("fuchsia", .rgb 255 0 255), ("gray", .rgb 128 128 128), ("green", .rgb 0 128 0),
  ("lime", .rgb 0 255 0), ("maroon", .rgb 128 0 0), ("navy", .rgb 0 0 128),
  ("olive", .rgb 128 128 0), ("purple", .rgb 128 0 128), ("red", .rgb 255 0 0),
  ("silver", .rgb 192 192 192), ("teal", .rgb 0 128 128), ("white", .rgb 255 255 255),
  ("yellow", .rgb 255 255 0)]⟩

instance : Inhabited Palette := ⟨basic⟩

/-- The palette of a map from names to color texts. -/
def ofMap (m : SortedMap String String) : Except PaletteError Palette := do
  let entries ← m.entries.mapM fun (name, text) =>
    match Color.ofText text with
    | .ok c => Except.ok (name, c)
    | .error e => .error ⟨name, e⟩
  return ⟨entries⟩

/-- The entry nearest to a color; of several equally near the first. -/
def nearest? (p : Palette) (c : Color) : Option (String × Color) :=
  match p.entries with
  | [] => none
  | e :: r =>
    some (r.foldl (fun best e => if e.2.distanceSq c < best.2.distanceSq c then e else best) e)

end Palette

end ViewCompiler
