import ViewCompiler.Text.Blank

/-!
# Lines

The lines of a text.  A line ends at a line feed, and a carriage return before that belongs to the
end; what follows the last line feed is a line only if there is something.
-/

namespace ViewCompiler

namespace Text

/-- A line without the carriage return at its end. -/
def dropReturn (cs : List Char) : List Char := (dropTrailing? ['\r'] cs).getD cs

/-- The lines among the pieces between line feeds. -/
def linesOfPieces : List (List Char) → List (List Char)
  | [] => []
  | [last] => if last.isEmpty then [] else [last]
  | cs :: r => dropReturn cs :: linesOfPieces r

/-- The lines of a text, without their ends. -/
def lines (s : String) : List String :=
  (linesOfPieces (pieces (· == '\n') s.toList)).map String.ofList

end Text

end ViewCompiler
