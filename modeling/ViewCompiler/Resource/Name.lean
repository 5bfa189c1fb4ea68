import ViewCompiler.Json
import ViewCompiler.Text.Slug

/-!
# Names of resources

* `Name.ofSlug` : an identifier made from the slug of a text;
* `Name.firstFree` : the first of a sequence of names that is not taken;
* `Name.claim` : a base itself, or the base with the least suffix, that is not taken.
-/

namespace ViewCompiler

/-- How names are made from texts. -/
structure NameConfig where
  /-- The words kept of a text. -/
  maxSlugWords : Nat
  /-- What stands before a name that starts with a digit or is reserved. -/
  reservedPrefix : String
  deriving DecidableEq

namespace NameConfig

def default : NameConfig := ⟨4, "s_"⟩

instance : Inhabited NameConfig := ⟨default⟩

/-- Reads a configuration; what is missing has its default. -/
def ofJson? (j : Json) : Option NameConfig := do
  match ← j.fields? ["maxSlugWords", "reservedPrefix"] with
  | [words, start] =>
    let words ← Json.withDefault default.maxSlugWords (Json.natBelow? (twoPow 64)) words
    let start ← Json.withDefault default.reservedPrefix Json.string? start
    return ⟨words, start⟩
  | _ => none

end NameConfig

namespace Name

/-- Words that no name may be. -/
def reserved : List String := [
  "abstract", "assert", "boolean", "break", "byte", "case", "catch", "char", "class", "const",
  "continue", "default", "do", "double", "else", "enum", "extends", "false", "final",
  "finally", "float", "for", "goto", "if", "implements", "import", "instanceof", "int",
  "interface", "long", "native", "new", "null", "package", "private", "protected", "public",
  "return", "short", "static", "super", "switch", "synchronized", "this", "throw", "throws",
  "transient", "true", "try", "void", "volatile", "while"]

/-- Whether a name starts with a digit. -/
def startsWithDigit (s : String) : Bool := (s.toList.head?.map Char.isDigit).getD false

/-- The first words of a slug joined by underscores, or `fallback` when it has none.  In a slug
there are dashes between the words. -/
def ofSlug (config : NameConfig) (slug fallback : String) : String :=
  let words := (Text.runs (· == '-') slug.toList).take (max config.maxSlugWords 1)
  let name := if words.isEmpty then fallback else "_".intercalate (words.map String.ofList)
  if startsWithDigit name || reserved.contains name then config.reservedPrefix ++ name else name

/-- The first of the names `name k`, `name (k + 1)`, … that is not taken, with its number.  Among
one more name than are taken one is free, if no two of them are equal. -/
def firstFree (taken : List String) (name : Nat → String) (k : Nat) : Nat × String :=
  match (List.range (taken.length + 1)).find? fun i => !taken.contains (name (k + i)) with
  | some i => (k + i, name (k + i))
  | none => (k, name k)

/-- A base with a number after it. -/
def suffixed (base : String) (n : Nat) : String := base ++ "_" ++ toString n

/-- The base itself if it is free, unless a suffix is asked for; else the base with the least
suffix, from `1` on, that is free. -/
def claim (taken : List String) (base : String) (suffix : Bool) : String :=
  if !suffix && !taken.contains base then base else (firstFree taken (suffixed base) 1).2

end Name

end ViewCompiler
