import ViewCompiler.Files.Assets
import ViewCompiler.Geometry

/-!
# Image loaders

How a conversion gets to know the size of an image: from the source that a document gives, or not
at all.  `ImageLoader.ofAssets` has it read from the bytes of an asset.
-/

namespace ViewCompiler

/-- Why the size of an image is not known. -/
inductive ImageError where
  | load (source reason : String)
  | decode (source reason : String)
  deriving DecidableEq

def ImageError.message : ImageError → String
  | load source reason => "Image '" ++ source ++ "' could not be loaded: " ++ reason
  | decode source reason =>
    "Image '" ++ source ++ "' has an unsupported or corrupt header: " ++ reason

/-- The size of the image with a source. -/
abbrev ImageLoader := String → Except ImageError Size

namespace ImageLoader

/-- A loader that knows no image. -/
def none : ImageLoader := fun source => .error (.load source "no image loader configured")

/-- The loader that reads sizes from the bytes of assets: `size` finds the width and the height in
the bytes of an image, or says why it cannot. -/
def ofAssets (size : ByteArray → Except String (Nat × Nat))
    (load : String → Except AssetError ByteArray) : ImageLoader := fun source =>
  match load source with
  | .error e => .error (.load source e.message)
  | .ok content =>
    match size content with
    | .error reason => .error (.decode source reason)
    | .ok (width, height) => .ok ⟨Scalar.ofNat width, Scalar.ofNat height⟩

end ImageLoader

end ViewCompiler
