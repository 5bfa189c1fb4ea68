/-!
# Powers

Powers of two and of ten.  A number that is held in a fixed number of bits is below `twoPow` of it.
-/

namespace ViewCompiler

/-- Two to the power of a number. -/
def twoPow (k : Nat) : Nat := Nat.pow 2 k

/-- Ten to the power of a number. -/
def tenPow (k : Nat) : Nat := Nat.pow 10 k

end ViewCompiler
