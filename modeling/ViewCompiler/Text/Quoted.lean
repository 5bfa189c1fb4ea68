import ViewCompiler.Text.CharTable

/-!
# Quoted text

The form in which a message shows a text it was given: between double quotes, with what cannot be
seen written as an escape.
-/

namespace ViewCompiler

namespace Text

/-- Whether a character is shown by its code point: it has no shape of its own, or joins the
character before it. -/
def isHidden (c : Char) : Bool :=
  let n := c.toNat
  inRanges unprinted n || (0x80 ≤ n && (inRanges format n || inRanges mark n))

/-- A character inside quotes. -/
def quoteChar (c : Char) : List Char :=
  if c = '"' then ['\\', '"']
  else if c = '\\' then ['\\', '\\']
  else if c = '\n' then ['\\', 'n']
  else if c = '\r' then ['\\', 'r']
  else if c = '\t' then ['\\', 't']
  else if c = Char.ofNat 0 then ['\\', '0']
  else if isHidden c then "\\u\x7b".toList ++ Nat.toDigits 16 c.toNat ++ ['\x7d']
  else [c]

/-- A text between double quotes. -/
def quote (s : String) : String :=
  String.ofList ('"' :: s.toList.flatMap quoteChar ++ ['"'])

end Text

end ViewCompiler
