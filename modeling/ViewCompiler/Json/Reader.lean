import ViewCompiler.Json
import ViewCompiler.Scalar.Decimal

/-!
# Reading JSON text

A text is cut into tokens (`Json.tokens?`), and the tokens are fed to a machine that keeps the open
arrays and objects on a stack (`Json.Machine.step?`).  Both walk their input once, so reading ends
by construction.  The value of a number is not always the nearest double: its digits are kept while
they fit into sixty-four bits, and the power of ten is applied to the rounded significand.
-/

namespace ViewCompiler

namespace Json

/-! ### Numbers -/

/-- The parts of a number's text. -/
structure NumberText where
  negative : Bool
  whole : List Char
  fraction : Option (List Char)
  /-- The sign of the exponent (`true` for minus) and its digits. -/
  exponent : Option (Bool × List Char)

/-- Reads the exponent of a number. -/
def exponentText? : List Char → Option (Option (Bool × List Char))
  | [] => some none
  | c :: r =>
    if c = 'e' ∨ c = 'E' then
      let (negative, r) := Decimal.splitSign r
      if r.isEmpty ∨ !r.all Char.isDigit then none else some (some (negative, r))
    else none

/-- Splits a number's text: an optional minus, digits without a needless zero in front, and an
optional fraction and exponent with a digit each. -/
def NumberText.ofChars? (cs : List Char) : Option NumberText :=
  let (negative, cs) :=
    match cs with
    | '-' :: r => (true, r)
    | r => (false, r)
  let (whole, r) := Decimal.spanDigits cs
  if whole.isEmpty ∨ (whole.head? = some '0' ∧ 1 < whole.length) then none
  else
    match r with
    | '.' :: r =>
      let (fraction, r) := Decimal.spanDigits r
      if fraction.isEmpty then none
      else (exponentText? r).map fun e => ⟨negative, whole, some fraction, e⟩
    | r => (exponentText? r).map fun e => ⟨negative, whole, none, e⟩

/-- The digits taken while the number they write stays below `2 ^ 64`, and the digits left. -/
def takeWord (n : Nat) : List Char → Nat × List Char
  | [] => (n, [])
  | c :: r =>
    let n' := 10 * n + (c.toNat - '0'.toNat)
    if n' < twoPow 64 then takeWord n' r else (n, c :: r)

/-- `m · 10 ^ e` in doubles; `none` beyond the largest.  A power below `10 ^ -308` is applied in
steps. -/
def scaleDouble (m : Nat) (e : Int) : Option Float :=
  let f := Float.ofNat m
  if m = 0 then some 0
  else if 0 ≤ e then
    if 308 < e then none
    else
      let r := f * Float.ofScientific 1 false e.toNat
      if r.isInf then none else some r
  else
    let steps := ((-e).toNat - 1) / 308
    let f := (List.range (min steps 3)).foldl (fun f _ => f / Float.ofScientific 1 false 308) f
    if 3 < steps then some 0
    else some (f / Float.ofScientific 1 false ((-e).toNat - 308 * steps))

/-- The exponents that are added up; beyond them a number is zero or has no value. -/
def maxExponent : Nat := twoPow 31 - 1

/-- The value of a number with a fraction or an exponent, or with too many digits. -/
def NumberText.toDouble (t : NumberText) : Option Float :=
  let (m, left) := takeWord 0 t.whole
  let (m, e) : Nat × Int :=
    match t.fraction with
    | none => (m, left.length)
    | some ds =>
      let (m', left') := takeWord m ds
      (m', (left.length : Int) - (ds.length - left'.length : Nat))
  let magnitude : Option Float :=
    match t.exponent with
    | none => scaleDouble m e
    | some (negative, ds) =>
      let x := Decimal.valueOfDigits 0 ds
      if maxExponent < x then
        if m = 0 ∨ negative then some 0 else none
      else scaleDouble m (if negative then e - x else e + x)
  magnitude.map fun f => if t.negative then -f else f

/-- The value of a number.  Digits alone are a whole number as long as it fits into sixty-four
bits; minus zero is a double. -/
def NumberText.value (t : NumberText) : Option JsonNumber :=
  match t.fraction, t.exponent with
  | none, none =>
    let n := Decimal.valueOfDigits 0 t.whole
    if t.negative then
      if 0 < n ∧ n ≤ twoPow 63 then some (.negative (-n)) else t.toDouble.map .double
    else if n < twoPow 64 then some (.natural n)
    else t.toDouble.map .double
  | _, _ => t.toDouble.map .double

/-! ### Tokens -/

inductive Token where
  | arrayOpen
  | arrayClose
  | objectOpen
  | objectClose
  | colon
  | comma
  | leaf (j : Json)
  | text (s : Option String)

/-- A character of a string, or half of a pair of code units. -/
inductive TextUnit where
  | char (c : Char)
  | high (u : Nat)
  | low (u : Nat)

/-- The text that the units spell; halves must come in pairs. -/
def textOfUnits : List TextUnit → Option (List Char)
  | [] => some []
  | .char c :: r => (textOfUnits r).map (c :: ·)
  | .high h :: .low l :: r =>
    (textOfUnits r).map (Char.ofNat (0x10000 + (h - 0xd800) * 0x400 + (l - 0xdc00)) :: ·)
  | _ => none

/-- The value of a hexadecimal digit. -/
def hexDigit? (c : Char) : Option Nat :=
  if c.isDigit then some (c.toNat - '0'.toNat)
  else if 'a' ≤ c ∧ c ≤ 'f' then some (c.toNat - 'a'.toNat + 10)
  else if 'A' ≤ c ∧ c ≤ 'F' then some (c.toNat - 'A'.toNat + 10)
  else none

/-- The unit with a given code. -/
def TextUnit.ofCode (u : Nat) : TextUnit :=
  if 0xd800 ≤ u ∧ u < 0xdc00 then .high u
  else if 0xdc00 ≤ u ∧ u < 0xe000 then .low u
  else .char (Char.ofNat u)

/-- The character that a letter stands for after a backslash. -/
def escape? (c : Char) : Option Char :=
  if c = '"' ∨ c = '\\' ∨ c = '/' then some c
  else if c = 'b' then some (Char.ofNat 8)
  else if c = 'f' then some (Char.ofNat 12)
  else if c = 'n' then some '\n'
  else if c = 'r' then some '\r'
  else if c = 't' then some '\t'
  else none

/-- Reads a string after its opening quote: its units, latest first, and the rest of the text. -/
def readUnits? (acc : List TextUnit) : List Char → Option (List TextUnit × List Char)
  | [] => none
  | '"' :: r => some (acc, r)
  | '\\' :: 'u' :: a :: b :: c :: d :: r => do
    let a ← hexDigit? a
    let b ← hexDigit? b
    let c ← hexDigit? c
    let d ← hexDigit? d
    readUnits? (TextUnit.ofCode (((a * 16 + b) * 16 + c) * 16 + d) :: acc) r
  | '\\' :: c :: r => do
    let c ← escape? c
    readUnits? (.char c :: acc) r
  | c :: r => if c.toNat < 0x20 ∨ c = '\\' then none else readUnits? (.char c :: acc) r

theorem length_of_readUnits? {acc us : List TextUnit} {cs r : List Char}
    (h : readUnits? acc cs = some (us, r)) : r.length < cs.length := by
  fun_induction readUnits? acc cs with
  | case1 => simp at h
  | case2 acc r' =>
    obtain ⟨-, rfl⟩ := by simpa using h
    simp
  | case3 acc a b c d r' ih =>
    simp only [Option.bind_eq_bind, Option.bind_eq_some_iff] at h
    obtain ⟨a', -, b', -, c', -, d', -, h⟩ := h
    have := ih a' b' c' d' h
    simp only [List.length_cons]
    omega
  | case4 acc c r' _ ih =>
    simp only [Option.bind_eq_bind, Option.bind_eq_some_iff] at h
    obtain ⟨c', -, h⟩ := h
    have := ih c' h
    simp only [List.length_cons]
    omega
  | case5 => simp at h
  | case6 acc c r' _ _ _ _ ih =>
    have := ih h
    simp only [List.length_cons]
    omega

/-- The characters of numbers and of the words `null`, `true` and `false`. -/
def isWordChar (c : Char) : Bool := c.isAlphanum || c == '+' || c == '-' || c == '.'

/-- The leaf that a word stands for. -/
def leafOfWord? (w : List Char) : Option Json :=
  if w = "null".toList then some .null
  else if w = "true".toList then some (.bool true)
  else if w = "false".toList then some (.bool false)
  else (NumberText.ofChars? w).map fun t => .number t.value

/-- The token that a single character is. -/
def punctuation? (c : Char) : Option Token :=
  if c = '[' then some .arrayOpen
  else if c = ']' then some .arrayClose
  else if c = '\x7b' then some .objectOpen
  else if c = '\x7d' then some .objectClose
  else if c = ':' then some .colon
  else if c = ',' then some .comma
  else none

/-- Cuts a text into tokens, latest first. -/
def tokensFrom? (acc : List Token) (cs : List Char) : Option (List Token) :=
  match cs with
  | [] => some acc
  | c :: r =>
    if c.isWhitespace then tokensFrom? acc r
    else if c = '"' then
      match h : readUnits? [] r with
      | none => none
      | some (us, r') =>
        have := length_of_readUnits? h
        tokensFrom? (.text ((textOfUnits us.reverse).map String.ofList) :: acc) r'
    else
      match punctuation? c with
      | some t => tokensFrom? (t :: acc) r
      | none =>
        if isWordChar c then
          have := (List.dropWhile_sublist isWordChar (l := r)).length_le
          match leafOfWord? (c :: r.takeWhile isWordChar) with
          | none => none
          | some j => tokensFrom? (.leaf j :: acc) (r.dropWhile isWordChar)
        else none
termination_by cs.length
decreasing_by all_goals (simp only [List.length_cons]; omega)

/-- The tokens of a text. -/
def tokens? (cs : List Char) : Option (List Token) := (tokensFrom? [] cs).map List.reverse

/-! ### Trees -/

/-- An array or object that is not closed yet, with what it holds so far, latest first. -/
inductive Frame where
  | array (items : List Json)
  | object (members : List (Option String × Json)) (key : Option String)

/-- What may come next. -/
inductive Expectation where
  /-- A value. -/
  | value
  /-- A value, or the end of an array just opened. -/
  | firstItem
  /-- A key. -/
  | key
  /-- A key, or the end of an object just opened. -/
  | firstKey
  /-- The colon after a key. -/
  | colon
  /-- A comma, or the end of the innermost array or object. -/
  | next
  /-- Nothing. -/
  | nothing
  deriving DecidableEq

/-- The state of reading. -/
structure Machine where
  frames : List Frame
  expects : Expectation
  result : Json

namespace Machine

def start : Machine := ⟨[], .value, .null⟩

/-- Puts a complete value into the innermost frame. -/
def put (m : Machine) (j : Json) : Machine :=
  match m.frames with
  | [] => ⟨[], .nothing, j⟩
  | .array items :: fs => ⟨.array (j :: items) :: fs, .next, m.result⟩
  | .object members key :: fs => ⟨.object ((key, j) :: members) none :: fs, .next, m.result⟩

/-- Takes one token. -/
def step? (m : Machine) (t : Token) : Option Machine :=
  match m.expects, t, m.frames with
  | .value, .leaf j, _ | .firstItem, .leaf j, _ => some (m.put j)
  | .value, .text s, _ | .firstItem, .text s, _ => some (m.put (.string s))
  | .value, .arrayOpen, fs | .firstItem, .arrayOpen, fs =>
    some ⟨.array [] :: fs, .firstItem, m.result⟩
  | .value, .objectOpen, fs | .firstItem, .objectOpen, fs =>
    some ⟨.object [] none :: fs, .firstKey, m.result⟩
  | .key, .text s, .object members _ :: fs | .firstKey, .text s, .object members _ :: fs =>
    some ⟨.object members s :: fs, .colon, m.result⟩
  | .colon, .colon, fs => some ⟨fs, .value, m.result⟩
  | .next, .comma, .array items :: fs => some ⟨.array items :: fs, .value, m.result⟩
  | .next, .comma, .object members k :: fs => some ⟨.object members k :: fs, .key, m.result⟩
  | .next, .arrayClose, .array items :: fs | .firstItem, .arrayClose, .array items :: fs =>
    some (put ⟨fs, .next, m.result⟩ (.array items.reverse))
  | .next, .objectClose, .object members _ :: fs
  | .firstKey, .objectClose, .object members _ :: fs =>
    some (put ⟨fs, .next, m.result⟩ (.object members.reverse))
  | _, _, _ => none

end Machine

/-- The tree of a text that is one value with nothing but blanks around it. -/
def ofText? (s : String) : Option Json := do
  let ts ← tokens? s.toList
  let m ← ts.foldlM Machine.step? Machine.start
  if m.expects = .nothing then return m.result else none

end Json

end ViewCompiler
