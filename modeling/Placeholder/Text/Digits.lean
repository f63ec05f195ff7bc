import Placeholder.Text
/-!
Numbers written with digits. The digits beyond nine are the letters, in either case.
-/
namespace Placeholder.Digits

/-- The value of a digit in a base of at most thirty-six. -/
def digit? (base : Nat) (c : Char) : Option Nat :=
  let value :=
    if '0' ≤ c ∧ c ≤ '9' then some (c.toNat - '0'.toNat)
    else if 'a' ≤ c ∧ c ≤ 'z' then some (c.toNat - 'a'.toNat + 10)
    else if 'A' ≤ c ∧ c ≤ 'Z' then some (c.toNat - 'A'.toNat + 10)
    else none
  value.filter (· < base)

def append? (base n : Nat) (c : Char) : Option Nat :=
  (digit? base c).map (base * n + ·)

/-- The number that digits write; nothing without a digit. -/
def number? (base : Nat) (digits : Text) : Option Nat :=
  if digits.isEmpty then none else digits.foldlM (append? base) 0

def signedNumber? (base : Nat) (text : Text) : Option Nat :=
  match text with
  | '+' :: digits => number? base digits
  | digits => number? base digits

/-- A number written with at least `width` decimal digits. -/
def padded (width n : Nat) : Text :=
  let digits := Nat.toDigits 10 n
  List.replicate (width - digits.length) '0' ++ digits

end Placeholder.Digits
