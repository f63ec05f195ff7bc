/-!
Powers of two and of ten, and the bounds of whole numbers that fit a machine word.
-/
namespace Placeholder

/-- Two to the power of `n`. -/
def pow2 (n : Nat) : Nat := Nat.pow 2 n

/-- Ten to the power of `n`. -/
def pow10 (n : Nat) : Nat := Nat.pow 10 n

/-- The least number in sixty-four bits with a sign. -/
def leastSigned : Int := -(pow2 63 : Int)

/-- The greatest number in sixty-four bits with a sign. -/
def greatestSigned : Int := (pow2 63 : Int) - 1

/-- The greatest number in sixty-four bits without a sign. -/
def greatestUnsigned : Nat := pow2 64 - 1

end Placeholder
