import Placeholder.Proofs.Text.Hexadecimal
import Placeholder.Property.File
/-!
Escapes in property files, one at a time. A backslash counts if an even number of backslashes stands
right in front of it. What stands in front of one that counts is read by itself, whatever comes behind,
and a `\u` that counts is either followed by four characters that name one or ends the reading.
-/
namespace Placeholder.PropertyFile

variable {front rest raw text digits : Text} {c : Char}

/-- Four hexadecimal digits, and the character with that code point. -/
structure Names (digits : Text) (c : Char) : Prop where
  four : digits.length = 4
  hex : ∀ digit ∈ digits, digit ∈ Digits.hexDigits
  number : Digits.hexNumberFrom 0 digits = c.toNat

/-- Three hexadecimal digits behind a plus sign, and the character with that code point. -/
structure NamesSigned (digits : Text) (c : Char) : Prop where
  four : digits.length = 4
  sign : digits.head? = some '+'
  hex : ∀ digit ∈ digits.tail, digit ∈ Digits.hexDigits
  number : Digits.hexNumberFrom 0 digits.tail = c.toNat

/-- The character with the code point that a row of digits writes. -/
theorem character_of_number_iff :
    ((Digits.number? 16 digits).bind fun n =>
        if h : n.isValidChar then some (Char.ofNatAux n h) else none) = some c ↔
      digits ≠ [] ∧ (∀ digit ∈ digits, digit ∈ Digits.hexDigits) ∧
        Digits.hexNumberFrom 0 digits = c.toNat := by
  rw [Option.bind_eq_some_iff]
  constructor
  · rintro ⟨n, hNumber, hChar⟩
    obtain ⟨hSome, hHex, rfl⟩ := Digits.number?_eq_some_iff.mp hNumber
    by_cases hValid : (Digits.hexNumberFrom 0 digits).isValidChar
    · rw [dif_pos hValid] at hChar
      cases hChar
      exact ⟨hSome, hHex, rfl⟩
    · rw [dif_neg hValid] at hChar
      cases hChar
  · rintro ⟨hSome, hHex, hSame⟩
    refine ⟨c.toNat, Digits.number?_eq_some_iff.mpr ⟨hSome, hHex, hSame⟩, ?_⟩
    have hValid : c.toNat.isValidChar := c.valid
    rw [dif_pos hValid]
    rfl

/-- The four characters behind `\u` name a character in one of two ways. -/
theorem named?_eq_some_iff : named? digits = some c ↔ Names digits c ∨ NamesSigned digits c := by
  have hPlus : '+' ∉ Digits.hexDigits := by decide
  by_cases hFour : digits.length = 4
  case neg =>
    rw [named?, if_neg hFour]
    constructor
    · nofun
    · rintro (h | h) <;> exact absurd h.four hFour
  rw [named?, if_pos hFour]
  by_cases hSigned : ∃ three, digits = '+' :: three
  · obtain ⟨three, rfl⟩ := hSigned
    rw [Digits.signedNumber?, character_of_number_iff]
    constructor
    · rintro ⟨_, hHex, hNumber⟩
      exact .inr ⟨hFour, rfl, hHex, hNumber⟩
    · rintro (h | h)
      · exact absurd (h.hex '+' (by simp)) hPlus
      · refine ⟨?_, h.hex, h.number⟩
        rintro rfl
        cases hFour
  · rw [Digits.signedNumber?, character_of_number_iff]
    · constructor
      · rintro ⟨_, hHex, hNumber⟩
        exact .inl ⟨hFour, hHex, hNumber⟩
      · rintro (h | h)
        · refine ⟨?_, h.hex, h.number⟩
          rintro rfl
          cases hFour
        · exact absurd (List.head?_eq_some_iff.mp h.sign) hSigned
    · exact fun three hThree => hSigned ⟨three, hThree⟩

/-- A character is not named with backslashes. -/
theorem not_mem_of_named? (h : named? digits = some c) : '\\' ∉ digits := by
  have hDigit : '\\' ∉ Digits.hexDigits := by decide
  intro hMem
  rcases named?_eq_some_iff.mp h with h | h
  · exact hDigit (h.hex _ hMem)
  · obtain ⟨three, rfl⟩ := List.head?_eq_some_iff.mp h.sign
    rcases List.mem_cons.mp hMem with hPlus | hThree
    · cases hPlus
    · exact hDigit (h.hex _ hThree)

theorem length_of_named? (h : named? digits = some c) : digits.length = 4 := by
  rcases named?_eq_some_iff.mp h with h | h <;> exact h.four

/-- Where no escape is left open, what comes behind decides whether one is. -/
theorem continues_append (h : continues front = false) (rest : Text) :
    continues (front ++ rest) = continues rest := by
  simp only [continues, decide_eq_false_iff_not, List.reverse_append, List.takeWhile_append,
    decide_eq_decide] at h ⊢
  split
  · rename_i hAll
    rw [List.length_append, hAll]
    omega
  · rfl

theorem continues_singleton (h : c ≠ '\\') : continues [c] = false := by
  simp [continues, h]

theorem continues_pair (c : Char) : continues ['\\', c] = false := by
  by_cases h : c = '\\'
  · rw [h]
    rfl
  · simp [continues, h]

theorem continues_of_not_mem (h : '\\' ∉ front) : continues front = false := by
  induction front with
  | nil => rfl
  | cons c front ih =>
      obtain ⟨hFirst, hLater⟩ := not_or.mp (mt List.mem_cons.mpr h)
      rw [← List.singleton_append, continues_append (continues_singleton (Ne.symm hFirst))]
      exact ih hLater

/-- The ways to write a character: by itself, behind a backslash, or by name. -/
inductive Denotes : Text → Char → Prop
  | plain {c : Char} (h : c ≠ '\\') : Denotes [c] c
  | escaped {c : Char} (h : c ≠ 'u') : Denotes ['\\', c] (plainEscape c)
  | named {digits : Text} {c : Char} (h : named? digits = some c) :
      Denotes ('\\' :: 'u' :: digits) c

/-- A text as it is read: one written character after the other, up to the end, to a backslash that
stands last, or to a `\u` without a name. -/
inductive Units : Text → Prop
  | ended : Units []
  | opened : Units ['\\']
  | unnamed {rest : Text} (h : named? (rest.take 4) = none) : Units ('\\' :: 'u' :: rest)
  | unit {unit rest : Text} {c : Char} (hUnit : Denotes unit c) (hRest : Units rest) :
      Units (unit ++ rest)

theorem units (raw : Text) : Units raw := by
  induction raw using unescape.induct with
  | case1 => exact .ended
  | case2 => exact .opened
  | case3 rest c hNamed ih =>
      have hUnit := Units.unit (.named hNamed) ih
      rwa [List.cons_append, List.cons_append, List.take_append_drop] at hUnit
  | case4 rest hNone => exact .unnamed hNone
  | case5 c rest hPlain ih => exact .unit (.escaped hPlain) ih
  | case6 c rest hOpen hPair ih =>
      refine .unit (.plain ?_) ih
      rintro rfl
      cases rest with
      | nil => exact hOpen rfl rfl
      | cons next rest => exact hPair next rest rfl rfl

theorem unescape_nil : unescape [] = .ok [] := by rw [unescape]

theorem unescape_opened : unescape ['\\'] = .ok [] := by rw [unescape]

theorem unescape_unnamed (h : named? (rest.take 4) = none) :
    unescape ('\\' :: 'u' :: rest) = .error (rest.take 4) := by
  rw [unescape, if_pos rfl, h]

namespace Denotes

variable {unit : Text}

/-- However a character is written, it is read in front of anything. -/
theorem unescape (h : Denotes unit c) (rest : Text) :
    unescape (unit ++ rest) = (unescape rest).map (c :: ·) := by
  cases h with
  | plain hPlain =>
      rw [List.singleton_append, PropertyFile.unescape]
      · exact fun hOpen _ => hPlain hOpen
      · exact fun _ _ hOpen _ => hPlain hOpen
  | escaped hPlain =>
      rw [List.cons_append, List.singleton_append, PropertyFile.unescape, if_neg hPlain]
  | named hNamed =>
      rename_i digits
      have hFour := length_of_named? hNamed
      have hTake : (digits ++ rest).take 4 = digits := List.take_left' hFour
      have hDrop : (digits ++ rest).drop 4 = rest := List.drop_left' hFour
      rw [List.cons_append, List.cons_append, PropertyFile.unescape, if_pos rfl, hTake, hNamed, hDrop]

/-- It leaves no escape open. -/
theorem continues (h : Denotes unit c) : continues unit = false := by
  cases h with
  | plain hPlain => exact continues_singleton hPlain
  | escaped => exact continues_pair _
  | named hNamed =>
      rename_i digits
      show PropertyFile.continues (['\\', 'u'] ++ digits) = false
      rw [continues_append (continues_pair 'u'), continues_of_not_mem (not_mem_of_named? hNamed)]

theorem continues_append (h : Denotes unit c) (rest : Text) :
    PropertyFile.continues (unit ++ rest) = PropertyFile.continues rest :=
  PropertyFile.continues_append h.continues rest

theorem unescape_eq_ok_iff (h : Denotes unit c) :
    PropertyFile.unescape (unit ++ rest) = .ok text ↔
      ∃ later, PropertyFile.unescape rest = .ok later ∧ text = c :: later := by
  rw [h.unescape]
  cases PropertyFile.unescape rest <;> simp [Except.map, eq_comm]

theorem unescape_eq_error_iff (h : Denotes unit c) :
    PropertyFile.unescape (unit ++ rest) = .error digits ↔
      PropertyFile.unescape rest = .error digits := by
  rw [h.unescape]
  cases PropertyFile.unescape rest <;> simp [Except.map]

end Denotes

section Rows

variable {write : Char → Text}

/-- Characters written one after the other are read one after the other. -/
theorem unescape_flatMap (h : ∀ c ∈ text, Denotes (write c) c) :
    unescape (text.flatMap write) = .ok text := by
  induction text with
  | nil => exact unescape_nil
  | cons c text ih =>
      obtain ⟨hFirst, hLater⟩ := List.forall_mem_cons.mp h
      rw [List.flatMap_cons, hFirst.unescape, ih hLater]
      rfl

theorem continues_flatMap (h : ∀ c ∈ text, Denotes (write c) c) :
    continues (text.flatMap write) = false := by
  induction text with
  | nil => rfl
  | cons c text ih =>
      obtain ⟨hFirst, hLater⟩ := List.forall_mem_cons.mp h
      rw [List.flatMap_cons, hFirst.continues_append, ih hLater]

end Rows

/-- What is read by itself is read in front of anything. -/
theorem unescape_append (hClosed : continues front = false) (h : unescape front = .ok text)
    (rest : Text) : unescape (front ++ rest) = (unescape rest).map (text ++ ·) := by
  induction units front generalizing text with
  | ended =>
      rw [unescape_nil] at h
      cases h
      rw [List.nil_append]
      cases unescape rest <;> rfl
  | opened => cases hClosed
  | unnamed hNone =>
      rw [unescape_unnamed hNone] at h
      cases h
  | unit hUnit _ ih =>
      rw [hUnit.continues_append] at hClosed
      obtain ⟨later, hLater, rfl⟩ := hUnit.unescape_eq_ok_iff.mp h
      rw [List.append_assoc, hUnit.unescape, ih hClosed hLater]
      cases unescape rest <;> rfl

/-- Four characters that name none do not when another escape comes behind. -/
theorem named?_append_of_none (h : named? (front.take 4) = none) (rest : Text) :
    named? ((front ++ '\\' :: rest).take 4) = none := by
  by_cases hFour : 4 ≤ front.length
  · rwa [List.take_append_of_le_length hFour]
  · refine Option.eq_none_iff_forall_ne_some.mpr fun c hNamed => not_mem_of_named? hNamed ?_
    obtain ⟨n, hShort⟩ := Nat.exists_eq_add_of_lt (Nat.lt_of_not_le hFour)
    rw [List.take_append, show 4 - front.length = n + 1 by omega, List.take_succ_cons]
    simp

/-- What cannot be read by itself cannot be read in front of another escape. -/
theorem unescape_append_of_error (hClosed : continues front = false)
    (h : unescape front = .error digits) (rest : Text) :
    ∃ digits, unescape (front ++ '\\' :: rest) = .error digits := by
  induction units front with
  | ended =>
      rw [unescape_nil] at h
      cases h
  | opened => cases hClosed
  | unnamed hNone => exact ⟨_, unescape_unnamed (named?_append_of_none hNone rest)⟩
  | unit hUnit _ ih =>
      rw [hUnit.continues_append] at hClosed
      obtain ⟨found, hFound⟩ := ih hClosed (hUnit.unescape_eq_error_iff.mp h)
      refine ⟨found, ?_⟩
      rw [List.append_assoc]
      exact hUnit.unescape_eq_error_iff.mpr hFound

/-- The text has a `\u` that counts, and the four characters behind it, or as many as there are, name
no character. -/
def Misnames (raw : Text) : Prop :=
  ∃ front rest, raw = front ++ '\\' :: 'u' :: rest ∧ continues front = false ∧
    ∀ c, ¬ Names (rest.take 4) c ∧ ¬ NamesSigned (rest.take 4) c

theorem named?_eq_none_iff :
    named? digits = none ↔ ∀ c, ¬ Names digits c ∧ ¬ NamesSigned digits c := by
  simp only [Option.eq_none_iff_forall_ne_some, ne_eq, named?_eq_some_iff, not_or]

/-- Reading fails exactly at a `\u` without a name. -/
theorem exists_error_iff : (∃ digits, unescape raw = .error digits) ↔ Misnames raw := by
  constructor
  · rintro ⟨digits, h⟩
    induction units raw with
    | ended => cases unescape_nil.symm.trans h
    | opened => cases unescape_opened.symm.trans h
    | unnamed hNone => exact ⟨[], _, rfl, rfl, named?_eq_none_iff.mp hNone⟩
    | unit hUnit _ ih =>
        rename_i unit rest c _
        obtain ⟨front, behind, rfl, hClosed, hNone⟩ := ih (hUnit.unescape_eq_error_iff.mp h)
        refine ⟨unit ++ front, behind, (List.append_assoc ..).symm, ?_, hNone⟩
        rwa [hUnit.continues_append]
  · rintro ⟨front, rest, rfl, hClosed, hNone⟩
    cases hFront : unescape front with
    | error digits => exact unescape_append_of_error hClosed hFront _
    | ok text =>
        refine ⟨rest.take 4, ?_⟩
        rw [unescape_append hClosed hFront, unescape_unnamed (named?_eq_none_iff.mpr hNone)]
        rfl

/-- Where reading succeeds, every `\u` that counts stands for the character that it names. -/
theorem eq_of_unescape_named (hClosed : continues front = false) (hNamed : named? digits = some c)
    (h : unescape (front ++ '\\' :: 'u' :: (digits ++ rest)) = .ok text) :
    ∃ before after, unescape front = .ok before ∧ unescape rest = .ok after ∧
      text = before ++ c :: after := by
  cases hFront : unescape front with
  | error found =>
      obtain ⟨other, hOther⟩ := unescape_append_of_error hClosed hFront ('u' :: (digits ++ rest))
      cases h.symm.trans hOther
  | ok before =>
      have hUnit : unescape ('\\' :: 'u' :: (digits ++ rest)) = (unescape rest).map (c :: ·) :=
        (Denotes.named hNamed).unescape rest
      rw [unescape_append hClosed hFront, hUnit] at h
      cases hRest : unescape rest with
      | error found =>
          rw [hRest] at h
          cases h
      | ok after =>
          rw [hRest] at h
          cases h
          exact ⟨before, after, rfl, rfl, rfl⟩

end Placeholder.PropertyFile
