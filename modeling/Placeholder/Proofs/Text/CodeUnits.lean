import Placeholder.Proofs.Text.Hexadecimal
/-!
Characters as sixteen-bit code units. A code point of at most sixteen bits is its own unit; any other
is written as two surrogates, neither of which is the code point of a character. Four hexadecimal
digits write one unit.
-/
namespace Placeholder

namespace Digits

/-- The digit that is worth `n`. The letters are written in either case. -/
def hexDigit (capital : Bool) (n : Nat) : Char :=
  hexDigits.getD (if capital && 10 ≤ n then n + 6 else n) '0'

theorem hexDigit_fin : ∀ (capital : Bool) (n : Fin 16),
    hexDigit capital n ∈ hexDigits ∧ hexValue (hexDigit capital n) = n := by
  decide

theorem hexDigit_mem (capital : Bool) {n : Nat} (h : n < 16) : hexDigit capital n ∈ hexDigits :=
  (hexDigit_fin capital ⟨n, h⟩).1

theorem hexValue_hexDigit (capital : Bool) {n : Nat} (h : n < 16) :
    hexValue (hexDigit capital n) = n :=
  (hexDigit_fin capital ⟨n, h⟩).2

/-- The four digits of a code unit. -/
def fourDigits (capital : Bool) (unit : Nat) : Text :=
  [unit / 0x1000 % 16, unit / 0x100 % 16, unit / 0x10 % 16, unit % 16].map (hexDigit capital)

theorem mem_hexDigits_of_mem_fourDigits {capital : Bool} {unit : Nat} {digit : Char}
    (h : digit ∈ fourDigits capital unit) : digit ∈ hexDigits := by
  obtain ⟨n, hMem, rfl⟩ := List.mem_map.mp h
  apply hexDigit_mem
  simp only [List.mem_cons, List.not_mem_nil, or_false] at hMem
  omega

/-- The digits write the unit. -/
theorem hexNumberFrom_fourDigits (capital : Bool) {unit : Nat} (h : unit < 0x10000) :
    hexNumberFrom 0 (fourDigits capital unit) = unit := by
  have hValue : ∀ n, hexValue (hexDigit capital (n % 16)) = n % 16 := fun n =>
    hexValue_hexDigit capital (Nat.mod_lt n (by decide))
  simp only [hexNumberFrom, fourDigits, List.map_cons, List.map_nil, List.foldl_cons,
    List.foldl_nil, hValue]
  omega

end Digits

namespace Text

/-- The character has a code point of more than sixteen bits. -/
def isSupplementary (c : Char) : Bool :=
  0x10000 ≤ c.toNat

/-- The first of the two code units of a character that needs two. -/
def highSurrogate (c : Char) : Nat :=
  0xD800 + (c.toNat - 0x10000) / 0x400

/-- The second of them. -/
def lowSurrogate (c : Char) : Nat :=
  0xDC00 + (c.toNat - 0x10000) % 0x400

/-- The code units of a character. -/
def codeUnits (c : Char) : List Nat :=
  if isSupplementary c then [highSurrogate c, lowSurrogate c] else [c.toNat]

theorem toNat_lt (c : Char) : c.toNat < 0x110000 := by
  have hValid : c.toNat.isValidChar := c.valid
  rw [Nat.isValidChar] at hValid
  omega

/-- Surrogates lie in a range without characters. -/
theorem highSurrogate_range (c : Char) : 0xD800 ≤ highSurrogate c ∧ highSurrogate c < 0xDC00 := by
  have hLimit := toNat_lt c
  rw [highSurrogate]
  omega

theorem toNat_ne_of_surrogate {unit : Nat} (h : 0xD800 ≤ unit ∧ unit < 0xE000) (c : Char) :
    c.toNat ≠ unit := by
  have hValid : c.toNat.isValidChar := c.valid
  rw [Nat.isValidChar] at hValid
  omega

example : codeUnits '€' = [0x20AC] ∧ codeUnits '😀' = [0xD83D, 0xDE00] := by decide

end Text

end Placeholder
