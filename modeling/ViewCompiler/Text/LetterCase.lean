import ViewCompiler.Text.CharTable

/-!
# Lower case

The change of a text to lower case for all letters.  `Text.lower` maps each character on its own,
except a capital sigma: it becomes the final form where it ends a word.
-/

namespace ViewCompiler

namespace Text

/-- The lower case of one character.  One letter has a lower case of two characters. -/
def lowerChar (c : Char) : List Char :=
  let n := c.toNat
  if n < 0x80 then [c.toLower]
  else if n = 0x130 then ['i', Char.ofNat 0x307]
  else
    match lowerRuns.find? fun (lo, hi, step, _) =>
        decide (lo ≤ n) && decide (n ≤ hi) && (n - lo) % step == 0 with
    | some (_, _, _, d) => [Char.ofNat ((n : Int) + d).toNat]
    | none => [c]

/-- Letters with a case. -/
def isCased (c : Char) : Bool := inRanges cased c.toNat

/-- Characters that are passed over in the search for the neighbouring letter of a sigma: marks,
format characters, modifiers, and the points and apostrophes that occur inside words. -/
def isCaseIgnorable (c : Char) : Bool :=
  let n := c.toNat
  inRanges mark n || inRanges format n || inRanges modifier n ||
    [0x27, 0x2e, 0x3a, 0xb7, 0x387, 0x55f, 0x5f4, 0x2018, 0x2019, 0x2024, 0x2027, 0xfe13, 0xfe52,
      0xfe55, 0xff07, 0xff0e, 0xff1a].contains n

/-- Whether the first character that is not passed over has a case. -/
def meetsCased (cs : List Char) : Bool :=
  ((cs.dropWhile isCaseIgnorable).head?.map isCased).getD false

/-- Lower case of `cs`, which follows `before` (the nearest character first). -/
def lowerFrom (before : List Char) : List Char → List Char
  | [] => []
  | c :: cs =>
    let here :=
      if c.toNat = 0x3a3 then
        [if meetsCased before && !meetsCased cs then Char.ofNat 0x3c2 else Char.ofNat 0x3c3]
      else lowerChar c
    here ++ lowerFrom (c :: before) cs

/-- A text in lower case. -/
def lower (s : String) : String := String.ofList (lowerFrom [] s.toList)

end Text

end ViewCompiler
