import Mathlib.Data.List.Basic
import Placeholder.Text.Digits
/-!
Hexadecimal numbers. A digit is one of sixteen, six of which are letters in either case, and it is
worth its place among them.
-/
namespace Placeholder.Digits

variable {digits : Text} {digit : Char} {n number : Nat}

/-- The digits; the letters come twice. -/
def hexDigits : Text := "0123456789abcdefABCDEF".toList

/-- What a digit is worth. -/
def hexValue (digit : Char) : Nat :=
  let place := hexDigits.idxOf digit
  if place < 16 then place else place - 6

/-- The number that a row of digits writes behind the number `n`. -/
def hexNumberFrom (n : Nat) (digits : Text) : Nat :=
  digits.foldl (fun n digit => 16 * n + hexValue digit) n

theorem digit?_ascii : ∀ code : Fin 128, digit? 16 (Char.ofNat code) =
    if Char.ofNat code ∈ hexDigits then some (hexValue (Char.ofNat code)) else none := by
  decide +kernel

theorem lt_of_mem_hexDigits (h : digit ∈ hexDigits) : digit.toNat < 128 := by
  have hAll : hexDigits.all (fun digit => digit.toNat < 128) = true := by decide
  exact of_decide_eq_true (List.all_eq_true.mp hAll digit h)

/-- Beyond the letters there are no digits. -/
theorem digit?_of_le (h : 128 ≤ digit.toNat) (base : Nat) : digit? base digit = none := by
  have hAbove : ∀ last : Char, last.toNat < 128 → ¬ digit ≤ last := by
    intro last hLast hLe
    have hLe' : digit.toNat ≤ last.toNat := Char.le_def.mp hLe
    omega
  have hDigits : ¬ ('0' ≤ digit ∧ digit ≤ '9') := fun h => hAbove '9' (by decide) h.2
  have hSmall : ¬ ('a' ≤ digit ∧ digit ≤ 'z') := fun h => hAbove 'z' (by decide) h.2
  have hLarge : ¬ ('A' ≤ digit ∧ digit ≤ 'Z') := fun h => hAbove 'Z' (by decide) h.2
  simp only [digit?, if_neg hDigits, if_neg hSmall, if_neg hLarge, Option.filter_none]

theorem digit?_eq (digit : Char) :
    digit? 16 digit = if digit ∈ hexDigits then some (hexValue digit) else none := by
  by_cases hAscii : digit.toNat < 128
  · have hCode := digit?_ascii ⟨digit.toNat, hAscii⟩
    rwa [Char.ofNat_toNat] at hCode
  · rw [digit?_of_le (Nat.le_of_not_lt hAscii), if_neg fun hMem => hAscii (lt_of_mem_hexDigits hMem)]

theorem foldlM_append?_eq_some_iff :
    digits.foldlM (append? 16) n = some number ↔
      (∀ digit ∈ digits, digit ∈ hexDigits) ∧ hexNumberFrom n digits = number := by
  induction digits generalizing n with
  | nil => simp [hexNumberFrom]
  | cons digit digits ih =>
      rw [List.foldlM_cons, append?, digit?_eq]
      by_cases hDigit : digit ∈ hexDigits
      · simp [hDigit, ih, hexNumberFrom]
      · simp [hDigit]

/-- A number in hexadecimal is a row of digits. -/
theorem number?_eq_some_iff :
    number? 16 digits = some number ↔
      digits ≠ [] ∧ (∀ digit ∈ digits, digit ∈ hexDigits) ∧ hexNumberFrom 0 digits = number := by
  rw [number?]
  split
  · rename_i hEmpty
    simp [List.isEmpty_iff.mp hEmpty]
  · rename_i hSome
    rw [List.isEmpty_iff] at hSome
    simp [hSome, foldlM_append?_eq_some_iff]

end Placeholder.Digits
