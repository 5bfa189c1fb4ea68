/-!
# Blank characters

The characters that separate words, and the two uses of them: `Text.trim` takes them off both ends
of a text, `Text.words` splits a text at their runs, and `Text.collapse` joins the words again by
single spaces.
-/

namespace ViewCompiler

namespace Text

/-- The characters with the property `White_Space`. -/
def isBlank (c : Char) : Bool :=
  let n := c.toNat
  n == 0x20 || (0x09 ≤ n && n ≤ 0x0d) || n == 0x85 || n == 0xa0 || n == 0x1680 ||
    (0x2000 ≤ n && n ≤ 0x200a) || n == 0x2028 || n == 0x2029 || n == 0x202f || n == 0x205f ||
    n == 0x3000

/-- The blanks that core knows, which are all in the ASCII range. -/
theorem eq_of_isWhitespace {c : Char} (h : c.isWhitespace = true) :
    c = ' ' ∨ c = '\t' ∨ c = '\r' ∨ c = '\n' := by
  simpa [Char.isWhitespace, or_assoc] using h

/-- Takes the characters that satisfy `p` off the front. -/
def dropStart (p : Char → Bool) (cs : List Char) : List Char := cs.dropWhile p

/-- Takes the characters that satisfy `p` off the back. -/
def dropEnd (p : Char → Bool) (cs : List Char) : List Char := (cs.reverse.dropWhile p).reverse

/-- Takes the characters that satisfy `p` off both ends. -/
def strip (p : Char → Bool) (cs : List Char) : List Char := dropEnd p (dropStart p cs)

/-- Takes the blanks off both ends. -/
def trimChars (cs : List Char) : List Char := strip isBlank cs

/-- Takes the blanks off both ends of a text. -/
def trim (s : String) : String := String.ofList (trimChars s.toList)

/-- The maximal runs of characters that do not satisfy `p`, in order. -/
def runs (p : Char → Bool) : List Char → List (List Char)
  | [] => []
  | c :: cs =>
    if p c then runs p cs
    else
      match cs with
      | [] => [[c]]
      | d :: _ =>
        if p d then [c] :: runs p cs
        else
          match runs p cs with
          | [] => [[c]]
          | w :: ws => (c :: w) :: ws

/-- The pieces between the characters that satisfy `p`, empty ones included. -/
def pieces (p : Char → Bool) : List Char → List (List Char)
  | [] => [[]]
  | c :: cs =>
    if p c then [] :: pieces p cs
    else
      match pieces p cs with
      | [] => [[c]]
      | w :: ws => (c :: w) :: ws

/-- The words of a text. -/
def words (s : String) : List String := (runs isBlank s.toList).map String.ofList

/-- The words of a text, joined by single spaces. -/
def collapse (s : String) : String := " ".intercalate (words s)

/-- What follows a leading `p`, if `cs` starts with it. -/
def dropLeading? : List Char → List Char → Option (List Char)
  | [], cs => some cs
  | _ :: _, [] => none
  | p :: ps, c :: cs => if p = c then dropLeading? ps cs else none

/-- What precedes a trailing `p`, if `cs` ends with it. -/
def dropTrailing? (p cs : List Char) : Option (List Char) :=
  (dropLeading? p.reverse cs.reverse).map List.reverse

/-- The text in ASCII lower case; other letters stay. -/
def asciiLower (s : String) : String := String.ofList (s.toList.map Char.toLower)

/-- Order of texts by their characters' code points. -/
def le (s t : String) : Bool := decide (¬ t < s)

end Text

end ViewCompiler
