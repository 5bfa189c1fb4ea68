import ViewCompiler.Scalar

/-!
# Structured values

The tree that a JSON text denotes.  A number too large for a double and a string with half of a
surrogate pair have no value; they still have a place in the tree, because a reader that passes
over a part of a text does not look at its values.

* `Json.number?`, `Json.string?` : leaves with a value;
* `Json.strict?` : the tree of a text all of whose leaves have values, whose nesting is within the
  bound, and in which the last of several members with one key counts.
-/

namespace ViewCompiler

/-- A number as it is kept: a whole number in sixty-four bits, or a double. -/
inductive JsonNumber where
  | natural (n : Nat)
  | negative (n : Int)
  | double (x : Float)

namespace JsonNumber

/-- The nearest measured number. -/
def toScalar : JsonNumber → Scalar
  | natural n => Scalar.ofNat n
  | negative n => Scalar.ofInt n
  | double x => Scalar.ofDouble x

/-- The number as a double. -/
def toDouble : JsonNumber → Float
  | natural n => Float.ofNat n
  | negative n => Float.ofInt n
  | double x => x

end JsonNumber

/-- A JSON tree.  Leaves and keys that have no value are `none`. -/
inductive Json where
  | null
  | bool (b : Bool)
  | number (n : Option JsonNumber)
  | string (s : Option String)
  | array (items : List Json)
  | object (members : List (Option String × Json))

namespace Json

instance : Inhabited Json := ⟨null⟩

/-! ### Nesting -/

mutual

/-- The number of arrays and objects inside each other. -/
def depth : Json → Nat
  | array items => depthOfItems items + 1
  | object members => depthOfMembers members + 1
  | _ => 0

def depthOfItems : List Json → Nat
  | [] => 0
  | j :: r => max (depth j) (depthOfItems r)

def depthOfMembers : List (Option String × Json) → Nat
  | [] => 0
  | (_, j) :: r => max (depth j) (depthOfMembers r)

end

/-- The deepest nesting that a text may have. -/
def maxDepth : Nat := 127

/-! ### Strict trees -/

/-- Keeps the last of several members with one key. -/
def lastMembers : List (Option String × Json) → List (Option String × Json)
  | [] => []
  | e :: r => if r.any (fun e' => e'.1 == e.1) then lastMembers r else e :: lastMembers r

mutual

/-- The tree with one member for each key, if all its leaves and keys have values. -/
def valued? : Json → Option Json
  | null => some null
  | bool b => some (bool b)
  | number n => n.map fun n => number (some n)
  | string s => s.map fun s => string (some s)
  | array items => (valuedItems? items).map array
  | object members => (valuedMembers? members).map fun ms => object (lastMembers ms)

def valuedItems? : List Json → Option (List Json)
  | [] => some []
  | j :: r => do
    let j ← valued? j
    let r ← valuedItems? r
    return j :: r

def valuedMembers? : List (Option String × Json) → Option (List (Option String × Json))
  | [] => some []
  | (k, j) :: r => do
    let k ← k
    let j ← valued? j
    let r ← valuedMembers? r
    return (some k, j) :: r

end

/-- The tree as a value of its own: see `valued?`, with the nesting bounded. -/
def strict? (j : Json) : Option Json :=
  if j.depth ≤ maxDepth then j.valued? else none

/-! ### Leaves -/

def number? : Json → Option JsonNumber
  | number n => n
  | _ => none

def string? : Json → Option String
  | string s => s
  | _ => none

def scalar? (j : Json) : Option Scalar := j.number?.map JsonNumber.toScalar

def bool? : Json → Option Bool
  | bool b => some b
  | _ => none

/-- A whole number below `bound`. -/
def natBelow? (bound : Nat) (j : Json) : Option Nat :=
  match j.number? with
  | some (.natural n) => if n < bound then some n else none
  | _ => none

/-- A byte. -/
def byte? (j : Json) : Option UInt8 := (j.natBelow? 256).map UInt8.ofNat

def items? : Json → Option (List Json)
  | array items => some items
  | _ => none

/-- The first member with a key. -/
def member? (k : String) : Json → Option Json
  | object ms => (ms.find? fun e => e.1 == some k).map Prod.snd
  | _ => none

/-! ### Records -/

/-- The values of the members with one of the given names, `none` for a name without a member.
A name may not occur twice.  A record may also be an array of its first values. -/
def fields? (names : List String) : Json → Option (List (Option Json))
  | array items =>
    if items.length ≤ names.length then
      some (items.map some ++ List.replicate (names.length - items.length) none)
    else none
  | object ms =>
    if ms.all fun e => e.1.isSome then
      names.mapM fun name =>
        match ms.filter fun e => e.1 == some name with
        | [] => some none
        | [e] => some (some e.2)
        | _ => none
    else none
  | _ => none

/-- Whether a record is written as an array. -/
def isArray : Json → Bool
  | array _ => true
  | _ => false

/-- Whether a value nests other values. -/
def isContainer : Json → Bool
  | array _ => true
  | object _ => true
  | _ => false

/-- A value that must be there. -/
def required {α : Type} (read : Json → Option α) : Option Json → Option α
  | none => none
  | some j => read j

/-- A value that is `default` when it is not there. -/
def withDefault {α : Type} (default : α) (read : Json → Option α) : Option Json → Option α
  | none => some default
  | some j => read j

/-- A value that may be `null`. -/
def nullable {α : Type} (read : Json → Option α) : Json → Option (Option α)
  | null => some none
  | j => (read j).map some

/-- The members of an object all of whose values are texts, in order. -/
def texts? : Json → Option (List (String × String))
  | object ms => ms.mapM fun (k, j) => do return (← k, ← j.string?)
  | _ => none

/-- An object with a single member. -/
def single? : Json → Option (String × Json)
  | object [(some k, j)] => some (k, j)
  | _ => none

end Json

end ViewCompiler
