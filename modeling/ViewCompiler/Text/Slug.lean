import ViewCompiler.Text.Blank

/-!
# Slugs

Names are made from slugs: words of lower-case letters and digits, with single dashes between them.
Which slug a text has, and how characters beyond ASCII are spelled in it, is left open: whatever
makes names takes the function from texts to their slugs as an argument.

* `Text.underscored` : a slug as part of a name;
* `Text.asciiSlug` : the slug of a text in ASCII.
-/

namespace ViewCompiler

namespace Text

/-- The characters of a slug's words. -/
def isSlugChar (c : Char) : Bool := c.isLower || c.isDigit

/-- A text with underscores for its dashes. -/
def underscored (s : String) : String :=
  String.ofList (s.toList.map fun c => if c = '-' then '_' else c)

/-- The runs of letters and digits of a text, in lower case and joined by dashes.  This is the slug
of a text in ASCII; other texts are spelled in ASCII before they get theirs. -/
def asciiSlug (s : String) : String :=
  "-".intercalate ((runs (fun c => !isSlugChar c) (s.toList.map Char.toLower)).map String.ofList)

end Text

end ViewCompiler
