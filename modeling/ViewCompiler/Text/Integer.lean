/-!
# Whole numbers as text

Readers of whole numbers within bounds: `Text.natBelow?` and `Text.intWithin?`.
-/

namespace ViewCompiler

namespace Text

/-- Reads digits with an optional plus as a number below `bound`. -/
def natBelow? (bound : Nat) (s : String) : Option Nat :=
  let ds :=
    match s.toList with
    | '+' :: r => r
    | r => r
  if ds.isEmpty ∨ !ds.all Char.isDigit then none
  else
    let n := ds.foldl (fun n c => 10 * n + (c.toNat - '0'.toNat)) 0
    if n < bound then some n else none

/-- Reads digits with an optional sign as a number of at least `-bound` and below `bound`. -/
def intWithin? (bound : Nat) (s : String) : Option Int :=
  match s.toList with
  | '-' :: r =>
    match r with
    | '+' :: _ => none
    | r => (natBelow? (bound + 1) (String.ofList r)).map fun n => -(n : Int)
  | _ => (natBelow? bound s).map fun n => (n : Int)

end Text

end ViewCompiler
