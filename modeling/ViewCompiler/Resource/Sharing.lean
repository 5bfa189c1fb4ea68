import ViewCompiler.Identity
import ViewCompiler.Resource.Name
import ViewCompiler.SortedMap
import ViewCompiler.StableSort

/-!
# Sharing of attributes

Attributes that several elements have in common are moved into named styles.  Elements are taken
together by their tag; among the elements of a tag, the attributes carried by exactly the same
elements are bundled, the best bundle becomes a style, its attributes leave the elements, and the
search is repeated until nothing qualifies.  An element covered twice refers to the newer style,
which names the older one as its parent.

* `Sharing.ofMembers` : the styles, the style of each element, and the attributes it loses;
* `Sharing.chain`, `Sharing.resolve?` : a style with its ancestors, and look-up through them.
-/

namespace ViewCompiler

structure SharingConfig where
  enabled : Bool
  /-- Attributes that are never shared. -/
  excluded : List String
  deriving DecidableEq

namespace SharingConfig

def default : SharingConfig := ⟨true, ["android:id", "android:text", "android:src"]⟩

instance : Inhabited SharingConfig := ⟨default⟩

/-- Reads a configuration; what is missing has its default. -/
def ofJson? (j : Json) : Option SharingConfig := do
  match ← j.fields? ["enabled", "excludedAttributes"] with
  | [enabled, excluded] =>
    let enabled ← Json.withDefault default.enabled Json.bool? enabled
    let excluded ← Json.withDefault default.excluded
      (fun j => j.items?.bind fun items => items.mapM Json.string?) excluded
    return ⟨enabled, excluded⟩
  | _ => none

/-- Whether an attribute stays on its element; a reference to a style always does. -/
def excludes (c : SharingConfig) (key : String) : Bool :=
  key == "style" || c.excluded.contains key

end SharingConfig

/-- An element with its attributes. -/
structure Member where
  id : NodeId
  tag : String
  attributes : SortedMap String String

/-- A style. -/
structure StyleEntry where
  name : String
  parent : Option String
  attributes : List (String × String)
  deriving DecidableEq

/-- The styles made for a list of elements. -/
structure Sharing where
  /-- The styles, a parent before its children. -/
  styles : List StyleEntry
  /-- The narrowest style of each covered element. -/
  assignments : SortedMap NodeId String
  /-- The attributes that each covered element loses. -/
  removals : SortedMap NodeId (List String)

namespace Sharing

def empty : Sharing := ⟨[], .empty, .empty⟩

instance : Inhabited Sharing := ⟨empty⟩

/-! ### Look-up -/

/-- The first style with a name. -/
def style? (s : Sharing) (name : String) : Option StyleEntry :=
  s.styles.find? fun e => e.name == name

/-- The style with a name and its ancestors, in at most `fuel` steps, up to a name seen before. -/
def chainFrom (s : Sharing) : Nat → List String → String → List StyleEntry
  | 0, _, _ => []
  | fuel + 1, seen, name =>
    match s.style? name with
    | none => []
    | some e =>
      if seen.contains e.name then []
      else
        match e.parent with
        | none => [e]
        | some p => e :: s.chainFrom fuel (e.name :: seen) p

/-- The style with a name and its ancestors, the narrowest first.  No name comes twice, so there
are no more than there are styles. -/
def chain (s : Sharing) (name : String) : List StyleEntry :=
  s.chainFrom (s.styles.length + 1) [] name

/-- The value of an attribute in the nearest style of the chain that has it. -/
def resolve? (s : Sharing) (name key : String) : Option String :=
  (s.chain name).findSome? fun e => e.attributes.lookup key

/-! ### Candidates -/

/-- Attributes that could become a style, with the elements that carry them. -/
structure Candidate where
  coverage : List NodeId
  attributes : List (String × String)

/-- Orders lists element by element, a shorter one before its extensions. -/
def compareLists {α : Type} (cmp : α → α → Ordering) : List α → List α → Ordering
  | [], [] => .eq
  | [], _ :: _ => .lt
  | _ :: _, [] => .gt
  | a :: as, b :: bs => (cmp a b).then (compareLists cmp as bs)

/-- Orders attributes by name, then by value. -/
def comparePairs (a b : String × String) : Ordering :=
  (compare a.1 b.1).then (compare a.2 b.2)

/-- The better candidate comes first: more elements, then more attributes, then the smaller first
element, then the attributes themselves. -/
def Candidate.rank (a b : Candidate) : Ordering :=
  (compare b.coverage.length a.coverage.length).then <|
    (compare b.attributes.length a.attributes.length).then <|
      (compareLists compare (a.coverage.take 1) (b.coverage.take 1)).then <|
        compareLists comparePairs a.attributes b.attributes

/-- The attributes that the elements of one tag still have. -/
abbrev Remaining := SortedMap NodeId (SortedMap String String)

/-- The narrowest style of each element so far. -/
abbrev Tips := SortedMap NodeId String

/-- The elements that carry each value of each attribute, all in order. -/
abbrev Carriers := SortedMap String (SortedMap String (List NodeId))

/-- Adds an element to those that carry an attribute with a value. -/
def addCarrier (id : NodeId) (m : Carriers) (pair : String × String) : Carriers :=
  let byValue := m.getD pair.1 .empty
  m.insert pair.1 (byValue.insert pair.2 (byValue.getD pair.2 [] ++ [id]))

/-- The elements that carry each value of each attribute. -/
def carriers (remaining : Remaining) : Carriers :=
  remaining.entries.foldl (fun m e => e.2.entries.foldl (addCarrier e.1) m) .empty

/-- All attributes with a value, in order, with the elements that carry them. -/
def carried (remaining : Remaining) : List ((String × String) × List NodeId) :=
  (carriers remaining).entries.flatMap fun (k, byValue) =>
    byValue.entries.map fun (v, ids) => ((k, v), ids)

/-- Puts an attribute into the bundle of those with the same carriers. -/
def addToBundle (bundles : List Candidate) (pair : String × String) (ids : List NodeId) :
    List Candidate :=
  match bundles with
  | [] => [⟨ids, [pair]⟩]
  | b :: r =>
    if b.coverage = ids then ⟨ids, b.attributes ++ [pair]⟩ :: r
    else b :: addToBundle r pair ids

/-- The attributes carried by two or more elements, bundled by their carriers. -/
def bundles (remaining : Remaining) : List Candidate :=
  (carried remaining).foldl (fun bs (pair, ids) =>
    if 1 < ids.length then addToBundle bs pair ids else bs) []

/-- A style has one parent, so the elements it covers must have the same style so far: the largest
such part, of equally large ones the one with the smallest element. -/
def largestPart (tips : Tips) (ids : List NodeId) : List NodeId :=
  let parts := ids.map fun id => ids.filter fun id' => tips.get? id' == tips.get? id
  parts.foldl (fun best part => if best.length < part.length then part else best) []

/-- Whether a candidate is worth a style: one attribute of two elements is not, unless these are
all elements of the tag. -/
def qualifies (coverage attributes groupSize : Nat) : Bool :=
  2 < coverage || (1 < coverage && 1 < attributes) || (coverage == groupSize && 1 < groupSize)

/-- The best candidate that qualifies. -/
def best? (remaining : Remaining) (tips : Tips) (groupSize : Nat) : Option Candidate :=
  let candidates := (bundles remaining).filterMap fun b =>
    let coverage := largestPart tips b.coverage
    if qualifies coverage.length b.attributes.length groupSize then
      some (Candidate.mk coverage b.attributes)
    else none
  match candidates with
  | [] => none
  | c :: cs => some (cs.foldl (fun best c => if (c.rank best).isLT then c else best) c)

/-! ### Styles of one tag -/

/-- The name before any suffix: the letters, digits and underscores of the tag, starting with a
capital letter. -/
def baseOfTag (tag : String) : String :=
  match tag.toList.filter fun c => c.isAlphanum || c == '_' with
  | [] => "Style"
  | c :: r =>
    if c.isAlpha then String.ofList (c.toUpper :: r) else "Style_" ++ String.ofList (c :: r)

/-- The names of the styles of a tag: the base, then the base with a suffix. -/
def nameAt (base : String) (n : Nat) : String :=
  if n = 0 then base else Name.suffixed base n

/-- Where the work on one tag stands. -/
structure Progress where
  remaining : Remaining
  tips : Tips
  /-- The number of the next name to try. -/
  counter : Nat
  /-- All names of styles so far, also of other tags. -/
  taken : List String
  /-- The styles and removals so far, also of other tags. -/
  result : Sharing

/-- Takes attributes off an element. -/
def dropAttributes (attributes : List (String × String)) (m : SortedMap String String) :
    SortedMap String String :=
  attributes.foldl (fun m e => m.erase e.1) m

/-- Makes a candidate a style. -/
def promote (base : String) (p : Progress) (c : Candidate) : Progress :=
  let (n, name) := Name.firstFree p.taken (nameAt base) p.counter
  let parent := c.coverage.head?.bind p.tips.get?
  let keys := c.attributes.map Prod.fst
  let remaining := c.coverage.foldl (fun m id =>
    match m.get? id with
    | some attributes => m.insert id (dropAttributes c.attributes attributes)
    | none => m) p.remaining
  let removals := c.coverage.foldl (fun m id => m.insert id (m.getD id [] ++ keys))
    p.result.removals
  let tips := c.coverage.foldl (fun m id => m.insert id name) p.tips
  { remaining, tips
    counter := n + 1
    taken := name :: p.taken
    result := { p.result with
      styles := p.result.styles ++ [⟨name, parent, c.attributes⟩]
      removals } }

/-- Promotes candidates until none qualifies, at most `fuel` times. -/
def promoteAll (base : String) (groupSize : Nat) : Nat → Progress → Progress
  | 0, p => p
  | fuel + 1, p =>
    match best? p.remaining p.tips groupSize with
    | none => p
    | some c => promoteAll base groupSize fuel (promote base p c)

/-- Makes the styles of the elements of one tag.  Each style takes attributes off elements, so
there are no more styles than attributes. -/
def shareGroup (config : SharingConfig) (tag : String) (group : List Member)
    (taken : List String) (result : Sharing) : List String × Sharing :=
  let remaining : Remaining := .ofList (group.map fun m =>
    (m.id, m.attributes.filter fun k _ => !config.excludes k))
  let fuel := remaining.values.foldl (fun n m => n + m.size) 1
  let p := promoteAll (baseOfTag tag) group.length fuel ⟨remaining, .empty, 0, taken, result⟩
  (p.taken, { p.result with assignments := p.result.assignments.insertAll p.tips.entries })

/-- The elements of each tag, ordered by tag and then by element. -/
def groups (members : List Member) : List (String × List Member) :=
  let byTag : SortedMap String (List Member) :=
    members.foldl (fun m e => m.insert e.tag (m.getD e.tag [] ++ [e])) .empty
  byTag.entries.map fun (tag, group) => (tag, stableSort (fun a b => a.id ≤ b.id) group)

/-- The styles of a list of elements. -/
def ofMembers (config : SharingConfig) (members : List Member) : Sharing :=
  if config.enabled then
    ((groups members).foldl (fun (taken, result) (tag, group) =>
      shareGroup config tag group taken result) ([], empty)).2
  else empty

end Sharing

end ViewCompiler
