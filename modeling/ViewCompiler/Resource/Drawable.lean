import ViewCompiler.Style.Value
import ViewCompiler.Scalar.Decimal
import ViewCompiler.Xml

/-!
# Drawables

Backgrounds that need a resource of their own: bordered shapes, gradients and images.  Shapes and
gradients have a file (`Drawable.xml?`); an image is copied and has none.
-/

namespace ViewCompiler

/-- The line around a shape. -/
structure Stroke where
  width : Scalar
  color : Color
  deriving DecidableEq

inductive Drawable where
  /-- A rectangle with an optional fill, an optional border and rounded corners. -/
  | bordered (fill : Option Color) (stroke : Option Stroke) (radius : Scalar)
  | gradient (g : Gradient)
  /-- An image, by its source. -/
  | image (source : String)
  deriving DecidableEq

namespace Drawable

def androidNamespace : String := "http://schemas.android.com/apk/res/android"

/-- The angle in the resource: counter-clockwise from "to the right" in steps of 45 degrees, from
one that counts clockwise from "to the top". -/
def platformAngle (angle : Scalar) : Int :=
  let steps := Scalar.truncate (-twoPow 31) (twoPow 31 - 1)
    (Scalar.round (Scalar.emod (90 - angle) 360 / 45))
  (steps * 45).tmod 360

/-- A length in density-independent pixels. -/
def lengthText (x : Scalar) : String := x.text ++ "dp"

/-- The shape around what a drawable paints. -/
def shape (children : List Xml.Element) : Xml.Element :=
  .nested "shape" [("xmlns:android", androidNamespace), ("android:shape", "rectangle")] children

/-- The root of a drawable's file. -/
def element? : Drawable → Option Xml.Element
  | image _ => none
  | bordered fill stroke radius =>
    let solid := fill.toList.map fun c => Xml.Element.closed "solid" [("android:color", c.hex)]
    let line := stroke.toList.map fun s =>
      Xml.Element.closed "stroke"
        [("android:width", lengthText s.width), ("android:color", s.color.hex)]
    let corners : List Xml.Element :=
      if radius > 0 then [.closed "corners" [("android:radius", lengthText radius)]] else []
    some (shape (solid ++ line ++ corners))
  | gradient g =>
    let center := g.center.toList.map fun c => ("android:centerColor", c.hex)
    some (shape [.closed "gradient" ([("android:type", "linear"),
      ("android:angle", toString (platformAngle g.angle)), ("android:startColor", g.start.hex)] ++
      center ++ [("android:endColor", g.finish.hex)])])

/-- The text of a drawable's file. -/
def xml? (d : Drawable) : Option String := d.element?.map Xml.document

/-- What tells two drawables apart: the file, or the source of an image. -/
def key : Drawable → String
  | image source => "image:" ++ source
  | d => d.xml?.getD ""

/-- The part of a source after the last slash and before the first point. -/
def stem (source : String) : String :=
  let file := (source.toList.reverse.takeWhile (· != '/')).reverse
  String.ofList (file.takeWhile (· != '.'))

/-- The text from which a drawable's name is made. -/
def hint : Drawable → String
  | bordered .. => "shape"
  | gradient _ => "gradient"
  | image source => "img " ++ stem source

end Drawable

end ViewCompiler
