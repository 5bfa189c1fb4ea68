import ViewCompiler.Resource.Store

/-!
# References

What an attribute says before any value is stored, and the text that it gets.  `ValueStore.refer`
stores a value and refers to it by its name, and `ValueStore.referAll` does so for a list of
attributes, one after another.
-/

namespace ViewCompiler

/-- The value of an attribute: a text as it is, or a value to be stored. -/
inductive AttributeValue where
  | plain (text : String)
  | string (text : String)
  | array (hint : String) (items : List String)
  | color (c : Color)
  | font (family : String)
  | dimension (x : Scalar) (unit : DimenUnit)
  | drawable (d : Drawable)
  deriving DecidableEq

namespace ValueStore

/-- The text of a reference to a named resource. -/
def reference (kind name : String) : String := "@" ++ kind ++ "/" ++ name

/-- The text of an attribute, and the store with its value. -/
def refer (s : ValueStore) : AttributeValue → String × ValueStore
  | .plain text => (text, s)
  | .string text => (s.string text).map (reference "string") id
  | .array hint items => (s.stringArray hint items).map (reference "array") id
  | .color c => (s.color c).map (reference "color") id
  | .font family => (s.font family).map (reference "string") id
  | .dimension x unit => (s.dimension x unit).map (reference "dimen") id
  | .drawable d => (s.drawable d).map (reference "drawable") id

/-- The texts of attributes, and the store with their values. -/
def referAll (s : ValueStore) : List (String × AttributeValue) →
    List (String × String) × ValueStore
  | [] => ([], s)
  | (name, value) :: r =>
    let (text, s) := s.refer value
    let (rest, s) := s.referAll r
    ((name, text) :: rest, s)

end ValueStore

end ViewCompiler
