import Mathlib.Data.Set.List
import Placeholder.Proofs.Property.Entries
import Placeholder.Proofs.Table.Lookup
/-!
Characters by name in a property file. A `\u` that counts must be followed by four hexadecimal digits
that are the code point of a character; a file with any other is refused, and the failure gives the
line in which the first such entry begins. One other form slips through: a plus sign in place of the
first digit.
-/
namespace Placeholder.PropertyFile

variable {path content entry raw text : Text}

/-- A `\u` in the key or in the value of an entry has no name. -/
def Misnamed (entry : Text) : Prop :=
  Misnames (splitKey entry).1 ∨ Misnames (valueAfter (splitKey entry).2)

theorem exists_readEntry_error_iff :
    (∃ digits, readEntry entry = .error digits) ↔ Misnamed entry := by
  rw [Misnamed, ← exists_error_iff, ← exists_error_iff, readEntry]
  cases unescape (splitKey entry).1 with
  | error digits => simp [bind, Except.bind]
  | ok key =>
      cases unescape (valueAfter (splitKey entry).2) <;>
        simp [bind, Except.bind, pure, Except.pure]

theorem exists_readEntry_ok_iff : (∃ pair, readEntry entry = .ok pair) ↔ ¬ Misnamed entry := by
  rw [← exists_readEntry_error_iff]
  cases readEntry entry <;> simp

/-- In a text that was read, four hexadecimal digits behind a `\u` that counts gave the character with
that code point, and what stands on either side was read by itself. -/
def KeepsNames (raw text : Text) : Prop :=
  ∀ front digits rest c, raw = front ++ '\\' :: 'u' :: (digits ++ rest) → continues front = false →
    Names digits c → ∃ before after, unescape front = .ok before ∧ unescape rest = .ok after ∧
      text = before ++ c :: after

theorem keepsNames_of_unescape (h : unescape raw = .ok text) : KeepsNames raw text := by
  rintro front digits rest c rfl hClosed hNames
  exact eq_of_unescape_named hClosed (named?_eq_some_iff.mpr (.inl hNames)) h

/-- What becomes of the characters by name in a property file. -/
structure ReadsNames (path content : Text) : Prop where
  /-- With an entry in which one of them is malformed the file is refused, and the first such entry is
  the one that is reported. -/
  refused : (∃ entry ∈ entries 1 (lines content), Misnamed entry.2) →
    ∃ before number entry after digits,
      entries 1 (lines content) = before ++ (number, entry) :: after ∧
      (∀ earlier ∈ before, ¬ Misnamed earlier.2) ∧ Misnamed entry ∧
      Begins (lines content) number entry ∧
      read path content = .error (.malformedProperty path number digits)
  /-- Without one it is read, and every name stands for its character. -/
  accepted : (∀ entry ∈ entries 1 (lines content), ¬ Misnamed entry.2) →
    ∃ pairs, (entries 1 (lines content)).map (fun entry => readEntry entry.2) = pairs.map .ok ∧
      read path content = .ok (.ofList pairs)
  /-- What is read of an entry has a character for each name. -/
  kept : ∀ entry ∈ entries 1 (lines content), ∀ key value, readEntry entry.2 = .ok (key, value) →
    KeepsNames (splitKey entry.2).1 key ∧ KeepsNames (valueAfter (splitKey entry.2).2) value

open Classical in
theorem exists_first_misnamed {all : List (Nat × Text)} (h : ∃ entry ∈ all, Misnamed entry.2) :
    ∃ before number entry after, all = before ++ (number, entry) :: after ∧
      (∀ earlier ∈ before, ¬ Misnamed earlier.2) ∧ Misnamed entry := by
  obtain ⟨⟨number, entry⟩, hFound⟩ := Option.isSome_iff_exists.mp
    (List.find?_isSome (p := fun entry : Nat × Text => decide (Misnamed entry.2)) |>.mpr
      (by simpa using h))
  obtain ⟨hEntry, before, after, hSplit, hBefore⟩ := List.find?_eq_some_iff_append.mp hFound
  exact ⟨before, number, entry, after, hSplit, by simpa using hBefore, by simpa using hEntry⟩

theorem reads_names (path content : Text) : ReadsNames path content where
  refused h := by
    obtain ⟨before, number, entry, after, hSplit, hBefore, hEntry⟩ := exists_first_misnamed h
    obtain ⟨digits, hDigits⟩ := exists_readEntry_error_iff.mpr hEntry
    refine ⟨before, number, entry, after, digits, hSplit, hBefore, hEntry, ?_, ?_⟩
    · apply begins_of_mem
      rw [hSplit]
      simp
    · rw [read, hSplit]
      apply readEntries_of_error (fun earlier hMem => ?_) hDigits
      exact exists_readEntry_ok_iff.mpr (hBefore earlier hMem)
  accepted h := by
    have hAll : (entries 1 (lines content)).map (fun entry => readEntry entry.2) ∈
        Set.range (List.map .ok) := by
      rw [Set.range_list_map]
      intro result hMem
      obtain ⟨entry, hEntry, rfl⟩ := List.mem_map.mp hMem
      obtain ⟨pair, hPair⟩ := exists_readEntry_ok_iff.mpr (h entry hEntry)
      exact ⟨pair, hPair.symm⟩
    obtain ⟨pairs, hPairs⟩ := hAll
    exact ⟨pairs, hPairs.symm, readEntries_of_ok hPairs.symm path .empty⟩
  kept entry hMem key value hRead := by
    obtain ⟨hKey, hValue⟩ := readEntry_eq_ok_iff.mp hRead
    exact ⟨keepsNames_of_unescape hKey, keepsNames_of_unescape hValue⟩

/-- A file with an entry that breaks off behind a `\u`, and one in front of it that does not. -/
theorem reads_names_broken_off :
    let content : Text := "a=1\nb=\\u12\n".toList
    (∃ entry ∈ entries 1 (lines content), Misnamed entry.2) ∧ ReadsNames ['f'] content := by
  intro content
  refine ⟨⟨(2, "b=\\u12".toList), ?_, .inr ⟨[], ['1', '2'], ?_, rfl, ?_⟩⟩, reads_names ['f'] content⟩
  · with_unfolding_all decide
  · with_unfolding_all rfl
  · intro c
    constructor <;> exact fun h => absurd h.four (by decide)

/-- A value in which a `\u` is followed by a plus sign and three digits. The sign is no digit, and yet
the value is read as one character. -/
theorem plus_sign_names :
    let content : Text := "k=\\u+041".toList
    ∃ entry, (1, entry) ∈ entries 1 (lines content) ∧
      valueAfter (splitKey entry).2 = [] ++ '\\' :: 'u' :: ['+', '0', '4', '1'] ∧
      continues [] = false ∧ '+' ∉ Digits.hexDigits ∧
      read ['f'] content = .ok (.ofList [(['k'], ['A'])]) := by
  intro content
  refine ⟨content, ?_, ?_, rfl, by decide, ?_⟩
  · with_unfolding_all decide
  · with_unfolding_all rfl
  · with_unfolding_all rfl

end Placeholder.PropertyFile
