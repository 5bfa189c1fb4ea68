import ViewCompiler.Template.Dialect

/-!
# The Android dialect

Containers are the stock layouts and leaves the basic widgets.  Every text, color, length and
drawable of an attribute is a stored value.  Views have their names from the slugs of ids.

* `Android.Screen` : how pixels become the units of the platform;
* `Android.viewName?` : the name by which views refer to a view;
* `Android.attributes` : the attributes of a node;
* `Android.dialect` : the dialect of a screen.
-/

namespace ViewCompiler

namespace Android

variable (slug : String → String)

/-! ### Units -/

/-- The screen that the views are made for. -/
structure Screen where
  /-- Pixels for each density-independent one. -/
  density : Scalar
  textScale : Scalar
  deriving DecidableEq

/-- A factor above zero; any other counts as one. -/
def factor (x : Scalar) : Scalar := if x > 0 then x else 1

def Screen.new (density textScale : Scalar) : Screen := ⟨factor density, factor textScale⟩

instance : Inhabited Screen := ⟨.new 1 1⟩

/-- A number with one decimal. -/
def oneDecimal (x : Scalar) : Scalar := Scalar.round (x * 10) / 10

/-- A length in density-independent pixels. -/
def Screen.dp (s : Screen) (px : Scalar) : Scalar := oneDecimal (px / s.density)

/-- A text size in scaled pixels. -/
def Screen.sp (s : Screen) (px : Scalar) : Scalar := oneDecimal (px / s.density * s.textScale)

/-- The least offset, in density-independent pixels, that is written. -/
def minOffset : Scalar := 0.5

abbrev Attribute := String × AttributeValue

def plain (name text : String) : Attribute := ("android:" ++ name, .plain text)

/-- An attribute with a length in pixels. -/
def length (s : Screen) (name : String) (px : Scalar) : Attribute :=
  ("android:" ++ name, .dimension (s.dp px) .dp)

/-! ### Names -/

/-- The name that an id makes; there is none if nothing is left of the id in its slug. -/
def idName? (id : String) : Option String :=
  let name := Text.underscored (slug id)
  if name.isEmpty then none else some (if Name.startsWithDigit name then "id_" ++ name else name)

/-- The name by which views refer to a node's view.  The `id` in the source goes before; a node
without one has a name only if another view refers to it: in a container that aligns its members
on a baseline, or as the target of a label. -/
def viewName? (t : NodeTree) (n : Node) : Option String :=
  match (n.source? "id").bind (idName? slug) with
  | some name => some name
  | none =>
    let aligned :=
      match n.renderParent.bind t.get? with
      | some p => p.container == .relative
      | none => false
    let labelled := t.toList.any fun other => other.companion == some n.id
    if aligned || labelled then some ("view_" ++ toString n.id) else none

/-- An attribute that refers to another view, if that has a name. -/
def view (t : NodeTree) (name : String) (target : Option NodeId) : List Attribute :=
  match (target.bind t.get?).bind (viewName? slug t) with
  | some view => [plain name ("@id/" ++ view)]
  | none => []

/-! ### Size and place -/

def isOutermost (n : Node) (parent : Option Node) : Bool :=
  n.kind == .root || n.kind == .host || parent.isNone

/-- Content that has no size of its own on the platform. -/
def needsSize (n : Node) : Bool :=
  n.isImage || (n.kind == .element && n.container == .leaf && !n.isText)

def isLength : Dimension → Bool
  | .px _ => true
  | _ => false

def width (s : Screen) (n : Node) (parent : Option Node) : List Attribute :=
  let inRow := parent.any fun p => p.container == .linearHorizontal
  if isOutermost n parent || n.flags.contains .matchWidth then
    [plain "layout_width" "match_parent"]
  else if n.flags.contains .percentWidth && inRow then
    let weight := n.style.width.percent?.toList.map fun p => plain "layout_weight" p.text
    weight ++ [plain "layout_width" "0dp"]
  else if isLength n.style.width || needsSize n then [length s "layout_width" n.bounds.width]
  else [plain "layout_width" "wrap_content"]

def height (s : Screen) (n : Node) (parent : Option Node) : List Attribute :=
  if isOutermost n parent then [plain "layout_height" "match_parent"]
  else if isLength n.style.height || needsSize n then
    [length s "layout_height" n.bounds.height]
  else [plain "layout_height" "wrap_content"]

/-- How far a box is from where its container starts. -/
def offsets (s : Screen) (bounds origin : Rect) : List Attribute :=
  let offset (name : String) (x : Scalar) : List Attribute :=
    if x.abs ≥ minOffset then [("android:" ++ name, .dimension x .dp)] else []
  offset "layout_marginStart" (s.dp (bounds.x - origin.x)) ++
    offset "layout_marginTop" (s.dp (bounds.y - origin.y))

/-- How a member is tied to its siblings: to the end of the one in front of it, and to the baseline
of the anchor. -/
def alignment (t : NodeTree) (n parent : Node) : List Attribute :=
  let members := (t.renderOrder parent.id).toOption.getD []
  let isAnchor (id : NodeId) : Bool :=
    (t.get? id).any fun m => m.flags.contains .baselineAnchor
  let previous :=
    (members.idxOf? n.id).bind fun i => if i = 0 then none else members[i - 1]?
  view slug t "layout_toEndOf" previous ++
    view slug t "layout_alignBaseline" ((members.find? isAnchor).filter (· ≠ n.id))

/-- What the container of a member needs to know to place it. -/
def placement (s : Screen) (t : NodeTree) (n parent : Node) : List Attribute :=
  match parent.container with
  | .linearVertical =>
    if n.flags.contains .centerHorizontal then [plain "layout_gravity" "center_horizontal"]
    else if n.flags.contains .alignEnd then [plain "layout_gravity" "end"]
    else []
  | .relative => alignment slug t n parent
  | .frame | .leaf =>
    let drawsNothing := parent.kind == .group || parent.kind == .host
    offsets s n.bounds (if drawsNothing then parent.bounds else parent.contentBox)
  | .linearHorizontal | .grid => []

/-- What a container needs to know to lay out its members. -/
def arrangement (n : Node) : List Attribute :=
  match n.container with
  | .linearHorizontal => [plain "orientation" "horizontal"]
  | .linearVertical => [plain "orientation" "vertical"]
  | .grid => n.grid.toList.map fun g => plain "columnCount" (toString g.columns)
  | _ => []

/-! ### Content -/

/-- An attribute of the source that is not empty. -/
def filled? (n : Node) (key : String) : Option String := (n.source? key).filter fun v => !v.isEmpty

def textStyle (style : Style) : List Attribute :=
  match style.fontWeight.isBold, style.fontStyle.isSlanted with
  | true, true => [plain "textStyle" "bold|italic"]
  | true, false => [plain "textStyle" "bold"]
  | false, true => [plain "textStyle" "italic"]
  | false, false => []

def gravity (style : Style) : List Attribute :=
  match style.textAlign with
  | .center => [plain "gravity" "center_horizontal"]
  | .right | .end => [plain "gravity" "end"]
  | _ => []

/-- How text is set. -/
def typography (s : Screen) (style : Style) : List Attribute :=
  (style.color.toList.map fun c => ("android:textColor", .color c)) ++
    (style.fontSize.toList.map fun x => ("android:textSize", .dimension (s.sp x) .sp)) ++
    (style.fontFamily.toList.map fun f => ("android:fontFamily", .font f)) ++
    textStyle style ++ gravity style

/-- The image of a node, with what is said about it. -/
def image (n : Node) : List Attribute :=
  match n.imageSource with
  | none => []
  | some source =>
    ("android:src", .drawable (.image source)) ::
      ((filled? n "alt").toList.map fun alt => ("android:contentDescription", .string alt))

/-- The labels of a selection, under the best name that it has. -/
def entries (n : Node) : List Attribute :=
  if n.entries.isEmpty then []
  else
    let hint := (n.source? "name" <|> n.source? "id").getD n.tag
    [("android:entries", .array hint n.entries)]

/-- What a node with nothing inside shows. -/
def content (s : Screen) (n : Node) : List Attribute :=
  let setsText := n.isText || ["input", "textarea", "button"].contains n.tag
  ((n.text <|> filled? n "value").toList.map fun text => ("android:text", .string text)) ++
    ((filled? n "placeholder").toList.map fun hint => ("android:hint", .string hint)) ++
    (if setsText then typography s n.style else []) ++ image n ++ entries n

/-! ### Paint -/

/-- The drawable behind a node: a gradient, an image or a shape with border and round corners. -/
def backgroundDrawable? (s : Screen) (n : Node) : Option Drawable :=
  let style := n.style
  let border := ((n.border.top.max n.border.right).max n.border.bottom).max n.border.left
  let stroke :=
    (style.borderColor.filter fun _ => border > 0).map fun color => Stroke.mk (s.dp border) color
  let radius := style.borderRadius
  (style.backgroundGradient.map Drawable.gradient) <|>
    (style.backgroundImage.map Drawable.image) <|>
    if stroke.isSome || radius > 0 then
      some (.bordered style.backgroundColor stroke (s.dp radius))
    else none

/-- What is behind a node. -/
def background (s : Screen) (n : Node) : List Attribute :=
  match backgroundDrawable? s n with
  | some d => [("android:background", .drawable d)]
  | none => n.style.backgroundColor.toList.map fun c => ("android:background", .color c)

def padding (s : Screen) (n : Node) : List Attribute :=
  let p := n.padding
  let side (name : String) (px : Scalar) : List Attribute :=
    if px > 0 then [length s name px] else []
  if p.isZero then []
  else if p.isUniform then [length s "padding" p.top]
  else
    side "paddingTop" p.top ++ side "paddingEnd" p.right ++ side "paddingBottom" p.bottom ++
      side "paddingStart" p.left

/-! ### The dialect -/

/-- All attributes of a node. -/
def nodeAttributes (s : Screen) (t : NodeTree) (n : Node) : List Attribute :=
  let parent := n.renderParent.bind t.get?
  let isLeaf := ((t.renderOrder n.id).toOption.getD []).isEmpty
  ((viewName? slug t n).toList.map fun name => plain "id" ("@+id/" ++ name)) ++
    width s n parent ++ height s n parent ++
    (parent.toList.flatMap (placement slug s t n)) ++ arrangement n ++
    (if isLeaf && n.kind != .group then content s n else []) ++
    (if n.kind != .text && n.kind != .group then background s n ++ padding s n else []) ++
    view slug t "labelFor" n.companion ++
    (if n.visible then [] else [plain "visibility" "invisible"]) ++
    (if n.style.opacity < 1 then [plain "alpha" n.style.opacity.text] else [])

def attributes (s : Screen) (t : NodeTree) (id : NodeId) : List Attribute :=
  match t.get? id with
  | some n => nodeAttributes slug s t n
  | none => []

def containerTag : Container → String
  | .linearHorizontal | .linearVertical => "LinearLayout"
  | .relative => "RelativeLayout"
  | .grid => "GridLayout"
  | .frame | .leaf => "FrameLayout"

/-- The widget of an input of some type. -/
def inputTag (type : String) : String :=
  match type with
  | "checkbox" => "CheckBox"
  | "radio" => "RadioButton"
  | "submit" | "button" | "reset" => "Button"
  | _ => "EditText"

def leafTag (n : Node) : String :=
  match n.tag with
  | "img" | "svg" | "picture" => "ImageView"
  | "input" => inputTag (Text.asciiLower ((n.source? "type").getD "text"))
  | "textarea" => "EditText"
  | "button" => "Button"
  | "select" => "Spinner"
  | _ => if n.isImage then "ImageView" else if n.isText then "TextView" else "View"

def dialect (s : Screen) : Dialect where
  containerTag := containerTag
  leafTag := leafTag
  rootAttributes := [("xmlns:android", Drawable.androidNamespace)]
  styleAttribute := "style"
  attributes := attributes slug s

end Android

end ViewCompiler
