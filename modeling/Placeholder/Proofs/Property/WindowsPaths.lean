import Placeholder.Finisher
import Placeholder.Proofs.Property.Writing
/-!
Windows paths in property files. The finisher writes each backslash of a path twice, which is one way to
write a value: no pair is taken apart, none is left open at the end of the line, and the drive letter
keeps blanks from being dropped in front. Behind a key of characters that stand for themselves, such a
line gives the path back.
-/
namespace Placeholder.PropertyFile

open Finisher (isWindowsPath doubleBackslashes windowsPath)

variable {text key value : Text} {c : Char}

theorem escapeChar_of_bare (h : Bare c) : escapeChar c = [c] := by
  fun_cases escapeChar c with
  | case1 => cases h.shown
  | case2 => cases h.shown
  | case3 => cases h.shown
  | case4 => cases h.shown
  | case5 _ _ _ _ _ hSpecial =>
      have hKey := h.unending
      simp only [endsKey, Bool.or_eq_false_iff, decide_eq_false_iff_not] at hKey
      simp [h.plain, hKey.1, h.uncommenting, h.shown] at hSpecial
  | case6 => rfl

theorem escape_of_bare (h : ∀ c ∈ text, Bare c) : escape text = text := by
  induction text with
  | nil => rfl
  | cons c text ih =>
      obtain ⟨hFirst, hLater⟩ := List.forall_mem_cons.mp h
      rw [escape_cons, ih hLater, escapeChar_of_bare hFirst]
      rfl

/-- White space of ASCII comes before the digits and letters, all other behind them. -/
theorem isBlank_of_between (h : 0x20 < c.toNat ∧ c.toNat < 0x80) : Text.isBlank c = false := by
  have hOther : c.toNat ∉ Text.blankCodePoints := by
    simp only [Text.blankCodePoints, List.mem_cons, List.not_mem_nil, or_false]
    omega
  simpa [Text.isBlank] using hOther

/-- A letter or a digit of ASCII, a point or a dash. -/
def isNameChar (c : Char) : Bool :=
  c.isAlphanum || c = '.' || c = '-'

theorem bare_of_isNameChar (h : isNameChar c = true) : Bare c := by
  have hBetween : 0x20 < c.toNat ∧ c.toNat < 0x80 := by
    have hCode : c.toNat = c.val.toNat := rfl
    have hRanges : isNameChar c = (decide ('A'.val ≤ c.val ∧ c.val ≤ 'Z'.val) ||
        (decide ('a'.val ≤ c.val) && decide (c.val ≤ 'z'.val)) ||
        (decide ('0'.val ≤ c.val) && decide (c.val ≤ '9'.val)) || c = '.' || c = '-') := rfl
    simp only [hRanges, Bool.or_eq_true, Bool.and_eq_true, decide_eq_true_eq, UInt32.le_iff_toNat_le,
      Char.reduceVal, UInt32.reduceToNat] at h
    rcases h with (hLetter | rfl) | rfl
    · omega
    · decide
    · decide
  have hOther : ∀ special, isNameChar special = false → c ≠ special := by
    rintro special hSpecial rfl
    cases h.symm.trans hSpecial
  constructor
  case plain => exact hOther '\\' rfl
  case unending =>
    simp [endsKey, isGap, hOther '=' rfl, hOther ':' rfl, hOther ' ' rfl, hOther '\t' rfl,
      hOther '\x0c' rfl]
  case uncommenting => exact ⟨hOther '#' rfl, hOther '!' rfl⟩
  case shown => exact isBlank_of_between hBetween

/-- A drive letter, a colon, a backslash and anything. -/
theorem exists_of_isWindowsPath (h : isWindowsPath value = true) :
    ∃ drive rest, drive.isAlpha = true ∧ value = drive :: ':' :: '\\' :: rest := by
  fun_cases isWindowsPath value with
  | case1 drive rest => exact ⟨drive, rest, h, rfl⟩
  | case2 => simp_all [isWindowsPath]

/-- A character of a path whose backslashes are doubled. -/
theorem denotes_doubled (c : Char) : Denotes (if c = '\\' then ['\\', '\\'] else [c]) c := by
  split
  · rename_i hBackslash
    rw [hBackslash]
    exact Denotes.escaped (by decide)
  · rename_i hPlain
    exact .plain hPlain

theorem mem_of_mem_doubleBackslashes (h : c ∈ doubleBackslashes value) : c ∈ value := by
  obtain ⟨own, hMem, hOwn⟩ := List.mem_flatMap.mp h
  split at hOwn <;> simp_all

/-- The doubled backslashes stand for the path, whatever stands behind its drive. -/
theorem standsFor_doubleBackslashes (hPath : isWindowsPath value = true)
    (hLine : '\n' ∉ value ∧ '\r' ∉ value) : StandsFor (doubleBackslashes value) value where
  read := unescape_flatMap fun c _ => denotes_doubled c
  closed := continues_flatMap fun c _ => denotes_doubled c
  unbroken := mt mem_of_mem_doubleBackslashes hLine.1
  unreturned := mt mem_of_mem_doubleBackslashes hLine.2
  kept := by
    obtain ⟨drive, rest, hDrive, rfl⟩ := exists_of_isWindowsPath hPath
    have hBare : Bare drive := bare_of_isNameChar (by simp [isNameChar, Char.isAlphanum, hDrive])
    have hFront : doubleBackslashes (drive :: ':' :: '\\' :: rest) =
        drive :: doubleBackslashes (':' :: '\\' :: rest) := by
      simp [doubleBackslashes, hBare.plain]
    rw [hFront, valueAfter_of_head (.inr hBare)]

/-- A Windows path on one line is finished, and a property file in which it then stands as the value of
a plain key gives that key the path, and holds nothing else. -/
theorem finished_path_read_back (hPath : isWindowsPath value = true)
    (hLine : '\n' ∉ value ∧ '\r' ∉ value) (hKey : ∀ c ∈ key, isNameChar c = true)
    (expression path : Text) :
    ∃ written, windowsPath expression value = some written ∧
      read path (key ++ '=' :: written ++ ['\n']) = .ok (.ofList [(key, value)]) := by
  refine ⟨doubleBackslashes value, by rw [windowsPath, if_pos hPath], ?_⟩
  have hHolds := (standsFor_doubleBackslashes hPath hLine).holds key
  rw [escape_of_bare fun c hMem => bare_of_isNameChar (hKey c hMem)] at hHolds
  let write (entry : Text × Text) : Text := entry.1 ++ '=' :: doubleBackslashes entry.2
  have hSpread : Spread write [(key, value)] [write (key, value)] := .entry .ended
  have hRead := hSpread.read (fun entry hMem => List.mem_singleton.mp hMem ▸ hHolds) path
  simpa [joined, write] using hRead

/-- A path that ends in two backslashes, with what elsewhere ends a key, begins a comment or is an
escape. -/
theorem finished_path_read_back_trailing :
    let value := "C:\\temp\\new=1: #\\u00\\\\".toList
    let key := "dir.x-1".toList
    isWindowsPath value = true ∧ ('\n' ∉ value ∧ '\r' ∉ value) ∧
      (∀ c ∈ key, isNameChar c = true) ∧
      ∃ written, windowsPath ['e'] value = some written ∧
        read ['f'] (key ++ '=' :: written ++ ['\n']) = .ok (.ofList [(key, value)]) := by
  intro value key
  have hPath : isWindowsPath value = true := rfl
  have hLine : '\n' ∉ value ∧ '\r' ∉ value := by decide
  have hKey : ∀ c ∈ key, isNameChar c = true := List.all_eq_true.mp rfl
  exact ⟨hPath, hLine, hKey, finished_path_read_back hPath hLine hKey ['e'] ['f']⟩

end Placeholder.PropertyFile
