import Placeholder.Proofs.Property.Names
import Placeholder.Proofs.Property.Writing
import Placeholder.Proofs.Text.CodeUnits
/-!
Property files that are stored in ASCII, the way Java stores them: what is not printable ASCII is
written by the names of its code units. Such a file is read back as long as every character is one
unit. A character of two is written by two names, and neither of them names a character by itself; a
file with one is refused.
-/
namespace Placeholder.PropertyFile

open Text (isSupplementary highSurrogate codeUnits)

variable {capital spaced : Bool} {c : Char} {text written : Text}

/-- A code unit by name. -/
def storeUnit (capital : Bool) (unit : Nat) : Text :=
  '\\' :: 'u' :: Digits.fourDigits capital unit

/-- A character in its stored form. A space is put behind a backslash only if `spaced`. -/
def storeChar (capital spaced : Bool) (c : Char) : Text :=
  if c = ' ' ∧ spaced = false then [' ']
  else if (' ' ≤ c ∧ c ≤ '~') ∨ c ∈ ['\t', '\n', '\r', '\x0c'] then escapeChar c
  else (codeUnits c).flatMap (storeUnit capital)

def storeText (capital spaced : Bool) (text : Text) : Text :=
  text.flatMap (storeChar capital spaced)

/-- Of the spaces in a value only one at its front could be taken for a gap. -/
def storeValue (capital : Bool) : Text → Text
  | [] => []
  | c :: rest => storeChar capital true c ++ storeText capital false rest

def storeEntry (capital : Bool) (entry : Text × Text) : Text :=
  storeText capital true entry.1 ++ '=' :: storeValue capital entry.2

/-- What systems differ in: whether letters among the digits are capitals, and whether a line ends in a
carriage return and a line feed. -/
structure StoreStyle where
  capital : Bool
  returned : Bool

/-- The line of an entry, up to its line feed. -/
def storeLine (style : StoreStyle) (entry : Text × Text) : Text :=
  storeEntry style.capital entry ++ if style.returned then ['\r'] else []

/-- A stored character is a space, or escaped, or written by its code units. -/
inductive Stored (capital spaced : Bool) : Text → Char → Prop
  | space (h : spaced = false) : Stored capital spaced [' '] ' '
  | escaped {written : Text} {c : Char} (h : Escaped written c) (hBasic : isSupplementary c = false) :
      Stored capital spaced written c
  | units (c : Char) : Stored capital spaced ((codeUnits c).flatMap (storeUnit capital)) c

theorem isSupplementary_of_ascii (h : (' ' ≤ c ∧ c ≤ '~') ∨ c ∈ ['\t', '\n', '\r', '\x0c']) :
    isSupplementary c = false := by
  rcases h with ⟨_, hLast⟩ | hControl
  · have hBelow : c.toNat ≤ '~'.toNat := Char.le_def.mp hLast
    have hTilde : '~'.toNat = 126 := rfl
    rw [isSupplementary, decide_eq_false_iff_not]
    omega
  · simp only [List.mem_cons, List.not_mem_nil, or_false] at hControl
    rcases hControl with rfl | rfl | rfl | rfl <;> rfl

theorem stored_storeChar (capital spaced : Bool) (c : Char) :
    Stored capital spaced (storeChar capital spaced c) c := by
  rw [storeChar]
  split
  · rename_i hSpace
    obtain ⟨rfl, hPlain⟩ := hSpace
    exact .space hPlain
  · split
    · rename_i hAscii
      exact .escaped (escaped_escapeChar c) (isSupplementary_of_ascii hAscii)
    · exact .units c

/-- Text in a line of its own, behind which no escape is open. -/
structure Inline (written : Text) : Prop where
  closed : continues written = false
  unbroken : '\n' ∉ written
  unreturned : '\r' ∉ written

namespace Inline

theorem nil : Inline [] := ⟨rfl, List.not_mem_nil, List.not_mem_nil⟩

theorem append {more : Text} (h : Inline written) (hMore : Inline more) : Inline (written ++ more) where
  closed := by rw [continues_append h.closed, hMore.closed]
  unbroken := by simp [h.unbroken, hMore.unbroken]
  unreturned := by simp [h.unreturned, hMore.unreturned]

theorem flatMap {α : Type} {items : List α} {write : α → Text} (h : ∀ item, Inline (write item)) :
    Inline (items.flatMap write) := by
  induction items with
  | nil => exact nil
  | cons item items ih =>
      rw [List.flatMap_cons]
      exact (h item).append ih

end Inline

theorem Escaped.inline (h : Escaped written c) : Inline written :=
  ⟨h.denotes.continues, h.unbroken.1, h.unbroken.2⟩

/-- Digits stand for themselves. -/
theorem bare_of_mem_hexDigits {digit : Char} (h : digit ∈ Digits.hexDigits) : Bare digit := by
  have hAll : (Digits.hexDigits.all fun digit => digit ≠ '\\' ∧ endsKey digit = false ∧
      (digit ≠ '#' ∧ digit ≠ '!') ∧ Text.isBlank digit = false) = true := by
    decide
  obtain ⟨hPlain, hKey, hMarks, hShown⟩ := of_decide_eq_true (List.all_eq_true.mp hAll digit h)
  exact ⟨hPlain, hKey, hMarks, hShown⟩

theorem inline_storeUnit (capital : Bool) (unit : Nat) : Inline (storeUnit capital unit) := by
  have hFront : Inline ['\\', 'u'] := ⟨continues_pair 'u', by decide, by decide⟩
  have hNone : '\\' ∉ Digits.hexDigits ∧ '\n' ∉ Digits.hexDigits ∧ '\r' ∉ Digits.hexDigits := by
    decide
  have hDigits : Inline (Digits.fourDigits capital unit) :=
    ⟨continues_of_not_mem fun hMem => hNone.1 (Digits.mem_hexDigits_of_mem_fourDigits hMem),
      fun hMem => hNone.2.1 (Digits.mem_hexDigits_of_mem_fourDigits hMem),
      fun hMem => hNone.2.2 (Digits.mem_hexDigits_of_mem_fourDigits hMem)⟩
  exact hFront.append hDigits

theorem inline_storeChar (capital spaced : Bool) (c : Char) :
    Inline (storeChar capital spaced c) := by
  have hStored := stored_storeChar capital spaced c
  generalize storeChar capital spaced c = written at hStored
  cases hStored with
  | space => exact ⟨rfl, by decide, by decide⟩
  | escaped hEscaped => exact hEscaped.inline
  | units => exact .flatMap (inline_storeUnit capital)

theorem inline_storeText (capital spaced : Bool) (text : Text) :
    Inline (storeText capital spaced text) :=
  .flatMap (inline_storeChar capital spaced)

theorem inline_storeValue (capital : Bool) (value : Text) : Inline (storeValue capital value) := by
  cases value with
  | nil => exact .nil
  | cons c rest => exact (inline_storeChar capital true c).append (inline_storeText capital false rest)

theorem inline_storeEntry (capital : Bool) (entry : Text × Text) :
    Inline (storeEntry capital entry) := by
  have hSeparator : Inline ['='] := ⟨rfl, by decide, by decide⟩
  exact (inline_storeText ..).append (hSeparator.append (inline_storeValue ..))

/-- A key goes on behind this text. -/
def GoesOn (written : Text) : Prop :=
  ∀ rest, splitKey (written ++ rest) = (written ++ (splitKey rest).1, (splitKey rest).2)

namespace GoesOn

theorem append {more : Text} (h : GoesOn written) (hMore : GoesOn more) : GoesOn (written ++ more) := by
  intro rest
  rw [List.append_assoc, h, hMore, List.append_assoc]

theorem flatMap {α : Type} {items : List α} {write : α → Text}
    (h : ∀ item ∈ items, GoesOn (write item)) : GoesOn (items.flatMap write) := by
  induction items with
  | nil => exact fun _ => rfl
  | cons item items ih =>
      obtain ⟨hFirst, hLater⟩ := List.forall_mem_cons.mp h
      rw [List.flatMap_cons]
      exact hFirst.append (ih hLater)

end GoesOn

theorem goesOn_storeUnit (capital : Bool) (unit : Nat) : GoesOn (storeUnit capital unit) := by
  have hDigits : GoesOn ((Digits.fourDigits capital unit).flatMap fun digit => [digit]) :=
    .flatMap fun digit hMem =>
      (Escaped.bare (bare_of_mem_hexDigits (Digits.mem_hexDigits_of_mem_fourDigits hMem))).splitKey
  have hFront : GoesOn ['\\', 'u'] := fun _ => rfl
  rw [List.flatMap_singleton'] at hDigits
  exact hFront.append hDigits

/-- No character of a key ends it. -/
theorem goesOn_storeText (capital : Bool) (key : Text) : GoesOn (storeText capital true key) := by
  apply GoesOn.flatMap
  intro c _
  have hStored := stored_storeChar capital true c
  generalize storeChar capital true c = written at hStored
  cases hStored with
  | space hPlain => cases hPlain
  | escaped hEscaped => exact hEscaped.splitKey
  | units => exact .flatMap fun unit _ => goesOn_storeUnit capital unit

/-- A stored text as it is read: the text, or the first code unit of its first character that has two. -/
def storedAs (capital : Bool) (text : Text) : Except Text Text :=
  match text.find? isSupplementary with
  | none => .ok text
  | some c => .error (Digits.fourDigits capital (highSurrogate c))

theorem storedAs_cons (capital : Bool) (c : Char) (text : Text) :
    storedAs capital (c :: text) =
      if isSupplementary c then .error (Digits.fourDigits capital (highSurrogate c))
      else (storedAs capital text).map (c :: ·) := by
  rw [storedAs, storedAs, List.find?_cons]
  cases isSupplementary c with
  | true => rfl
  | false => cases text.find? isSupplementary <;> rfl

/-- The name of a code unit that is a code point. -/
theorem denotes_storeUnit (capital : Bool) (h : isSupplementary c = false) :
    Denotes (storeUnit capital c.toNat) c := by
  have hUnit : c.toNat < 0x10000 := by simpa [isSupplementary] using h
  refine .named (named?_eq_some_iff.mpr (.inl ⟨rfl, ?_, ?_⟩))
  · exact fun digit hMem => Digits.mem_hexDigits_of_mem_fourDigits hMem
  · exact Digits.hexNumberFrom_fourDigits capital hUnit

/-- A surrogate names no character. -/
theorem named?_surrogate (capital : Bool) {unit : Nat} (h : 0xD800 ≤ unit ∧ unit < 0xE000) :
    named? (Digits.fourDigits capital unit) = none := by
  refine named?_eq_none_iff.mpr fun c => ⟨fun hNames => ?_, fun hSigned => ?_⟩
  · have hNumber := hNames.number
    rw [Digits.hexNumberFrom_fourDigits capital (by omega)] at hNumber
    exact Text.toNat_ne_of_surrogate h c hNumber.symm
  · have hPlus : '+' ∉ Digits.hexDigits := by decide
    obtain ⟨rest, hFirst⟩ := List.head?_eq_some_iff.mp hSigned.sign
    have hMem : '+' ∈ Digits.fourDigits capital unit := by
      rw [hFirst]
      exact List.mem_cons_self ..
    exact hPlus (Digits.mem_hexDigits_of_mem_fourDigits hMem)

theorem unescape_storeUnit_surrogate (capital : Bool) {unit : Nat}
    (h : 0xD800 ≤ unit ∧ unit < 0xE000) (rest : Text) :
    unescape (storeUnit capital unit ++ rest) = .error (Digits.fourDigits capital unit) := by
  have hTake : (Digits.fourDigits capital unit ++ rest).take 4 = Digits.fourDigits capital unit :=
    List.take_left' rfl
  have hUnnamed : named? ((Digits.fourDigits capital unit ++ rest).take 4) = none := by
    rw [hTake, named?_surrogate capital h]
  exact (unescape_unnamed hUnnamed).trans (congrArg Except.error hTake)

theorem unescape_storeChar (capital spaced : Bool) (c : Char) (rest : Text) :
    unescape (storeChar capital spaced c ++ rest) =
      if isSupplementary c then .error (Digits.fourDigits capital (highSurrogate c))
      else (unescape rest).map (c :: ·) := by
  have hStored := stored_storeChar capital spaced c
  generalize storeChar capital spaced c = written at hStored
  cases hStored with
  | space => exact (Denotes.plain (by decide)).unescape rest
  | escaped hEscaped hBasic =>
      rw [hBasic, hEscaped.denotes.unescape]
      rfl
  | units =>
      rw [codeUnits]
      cases hUnits : isSupplementary c with
      | true =>
          have hRange := Text.highSurrogate_range c
          rw [if_pos rfl, if_pos rfl, List.flatMap_cons, List.append_assoc]
          exact unescape_storeUnit_surrogate capital (by omega) _
      | false =>
          rw [if_neg Bool.false_ne_true, if_neg Bool.false_ne_true, List.flatMap_singleton]
          exact (denotes_storeUnit capital hUnits).unescape rest

theorem unescape_storeText (capital spaced : Bool) (text : Text) :
    unescape (storeText capital spaced text) = storedAs capital text := by
  induction text with
  | nil => exact unescape_nil
  | cons c text ih =>
      have hUnescape := unescape_storeChar capital spaced c (storeText capital spaced text)
      rwa [ih, ← storedAs_cons] at hUnescape

theorem unescape_storeValue (capital : Bool) (value : Text) :
    unescape (storeValue capital value) = storedAs capital value := by
  cases value with
  | nil => exact unescape_nil
  | cons c rest => rw [storeValue, unescape_storeChar, unescape_storeText, ← storedAs_cons]

/-- A stored text begins with a backslash or with a character that stands for itself. -/
theorem head_storeChar (capital : Bool) (c : Char) :
    ∃ first rest, storeChar capital true c = first :: rest ∧ (first = '\\' ∨ Bare first) := by
  have hStored := stored_storeChar capital true c
  generalize storeChar capital true c = written at hStored
  cases hStored with
  | space hPlain => cases hPlain
  | escaped hEscaped => exact hEscaped.head
  | units =>
      rw [codeUnits]
      split
      · exact ⟨'\\', _, rfl, .inl rfl⟩
      · exact ⟨'\\', _, rfl, .inl rfl⟩

theorem valueAfter_storeValue (capital : Bool) (value : Text) :
    valueAfter ('=' :: storeValue capital value) = storeValue capital value := by
  cases value with
  | nil => rfl
  | cons c rest =>
      obtain ⟨first, more, hFirst, hShown⟩ := head_storeChar capital c
      rw [storeValue, hFirst, List.cons_append, valueAfter_of_head hShown]

theorem shown_storeEntry (capital : Bool) (entry : Text × Text) :
    Text.trimStart (storeEntry capital entry) = storeEntry capital entry ∧
      isSkipped (storeEntry capital entry) = false := by
  obtain ⟨key, value⟩ := entry
  cases key with
  | nil => exact shown_of_head (.inl rfl) _
  | cons c key =>
      obtain ⟨first, more, hFirst, hShown⟩ := head_storeChar capital c
      rw [storeEntry, storeText, List.flatMap_cons, hFirst]
      exact shown_of_head (.inr hShown) _

/-- A stored entry is one line by itself, with a carriage return at its end or without. -/
theorem single_storeLine (style : StoreStyle) (entry : Text × Text) :
    Single (storeLine style entry) (storeEntry style.capital entry) := by
  have hInline := inline_storeEntry style.capital entry
  obtain ⟨hTrimmed, hShown⟩ := shown_storeEntry style.capital entry
  rw [storeLine]
  cases style.returned with
  | false =>
      rw [if_neg Bool.false_ne_true, List.append_nil]
      exact ⟨hInline.unbroken, withoutReturn_of_not_mem hInline.unreturned, hTrimmed, hShown,
        hInline.closed⟩
  | true =>
      refine ⟨by simp [hInline.unbroken], ?_, hTrimmed, hShown, hInline.closed⟩
      rw [if_pos rfl, withoutReturn, List.getLast?_concat, if_pos rfl, List.dropLast_concat]

theorem splitKey_storeEntry (capital : Bool) (entry : Text × Text) :
    splitKey (storeEntry capital entry) =
      (storeText capital true entry.1, '=' :: storeValue capital entry.2) := by
  rw [storeEntry, goesOn_storeText]
  exact congrArg (·, _) (List.append_nil _)

/-- The first character of an entry that has two code units. -/
def firstWide? (entry : Text × Text) : Option Char :=
  (entry.1 ++ entry.2).find? isSupplementary

/-- A stored entry is read back, or refused for the first character that has two code units. -/
theorem readEntry_storeEntry (capital : Bool) (entry : Text × Text) :
    readEntry (storeEntry capital entry) =
      match firstWide? entry with
      | none => .ok entry
      | some c => .error (Digits.fourDigits capital (highSurrogate c)) := by
  rw [readEntry, splitKey_storeEntry, firstWide?]
  simp only [valueAfter_storeValue, unescape_storeText, unescape_storeValue, storedAs,
    List.find?_append]
  cases entry.1.find? isSupplementary with
  | some c => rfl
  | none => cases entry.2.find? isSupplementary <;> rfl

theorem readEntry_storeEntry_of_none {entry : Text × Text} (h : firstWide? entry = none) :
    readEntry (storeEntry capital entry) = .ok entry := by
  rw [readEntry_storeEntry, h]

theorem readEntry_storeEntry_of_some {entry : Text × Text} (h : firstWide? entry = some c) :
    readEntry (storeEntry capital entry) =
      .error (Digits.fourDigits capital (highSurrogate c)) := by
  rw [readEntry_storeEntry, h]

theorem firstWide?_eq_none_iff {entry : Text × Text} :
    firstWide? entry = none ↔ ∀ c ∈ entry.1 ++ entry.2, isSupplementary c = false := by
  simp only [firstWide?, List.find?_eq_none, Bool.not_eq_true]

/-- The first entry with a character of two code units, if there is any. -/
theorem exists_first_wide {entries : List (Text × Text)}
    (h : ∃ entry ∈ entries, ∃ c ∈ entry.1 ++ entry.2, isSupplementary c = true) :
    ∃ before entry after c, entries = before ++ entry :: after ∧
      (∀ earlier ∈ before, firstWide? earlier = none) ∧ firstWide? entry = some c := by
  obtain ⟨wide, hMem, c, hChar, hWide⟩ := h
  have hSome : (firstWide? wide).isSome := by
    rw [firstWide?, List.find?_isSome]
    exact ⟨c, hChar, hWide⟩
  obtain ⟨entry, hFound⟩ := Option.isSome_iff_exists.mp
    (List.find?_isSome (p := fun entry => (firstWide? entry).isSome) |>.mpr ⟨wide, hMem, hSome⟩)
  obtain ⟨hEntry, before, after, hSplit, hBefore⟩ := List.find?_eq_some_iff_append.mp hFound
  obtain ⟨first, hFirst⟩ := Option.isSome_iff_exists.mp hEntry
  exact ⟨before, entry, after, first, hSplit, by simpa using hBefore, hFirst⟩

/-- What becomes of a table whose entries are stored in ASCII in some order. -/
structure ReadsStored (capital : Bool) (table : Table) (entries : List (Text × Text))
    (path content : Text) : Prop where
  /-- It is read back if every character has one code unit. -/
  back : (∀ entry ∈ table.entries, ∀ c ∈ entry.1 ++ entry.2, isSupplementary c = false) →
    read path content = .ok table
  /-- With a character of two the file is refused. Reported are the line of the first entry that has
  one, and the first unit of the first of them. -/
  refused : (∃ entry ∈ table.entries, ∃ c ∈ entry.1 ++ entry.2, isSupplementary c = true) →
    ∃ before entry after c number, entries = before ++ entry :: after ∧
      (∀ earlier ∈ before, firstWide? earlier = none) ∧ firstWide? entry = some c ∧
      Begins (lines content) number (storeEntry capital entry) ∧
      read path content =
        .error (.malformedProperty path number (Digits.fourDigits capital (highSurrogate c)))

/-- That holds for every order of the entries, whatever comments and blank lines stand between them. -/
theorem reads_stored (style : StoreStyle) {table : Table} {entries : List (Text × Text)}
    {lines : List Text} (hEntries : entries.Perm table.entries)
    (hLines : Spread (storeLine style) entries lines) (path : Text) :
    ReadsStored style.capital table entries path (joined lines) where
  back h := by
    have hSingle : ∀ entry ∈ entries, Single (storeLine style entry) (storeEntry style.capital entry) :=
      fun entry _ => single_storeLine style entry
    have hRead : ∀ entry ∈ entries, readEntry (storeEntry style.capital entry) = .ok entry := by
      intro entry hMem
      exact readEntry_storeEntry_of_none
        (firstWide?_eq_none_iff.mpr (h entry (hEntries.mem_iff.mp hMem)))
    rw [hLines.read_of_single hSingle hRead, Table.ofList_of_perm hEntries]
  refused h := by
    obtain ⟨wide, hMem, hWide⟩ := h
    obtain ⟨before, entry, after, c, rfl, hBefore, hFirst⟩ :=
      exists_first_wide ⟨wide, hEntries.mem_iff.mpr hMem, hWide⟩
    have hJoined := hLines.entries_joined fun entry _ => single_storeLine style entry
    rw [List.map_append, List.map_cons] at hJoined
    -- The entries of the file fall into the same three parts.
    obtain ⟨front, behind, hSplit, hFront, hBehind⟩ := List.map_eq_append_iff.mp hJoined
    obtain ⟨⟨number, text⟩, later, rfl, rfl, -⟩ := List.map_eq_cons_iff.mp hBehind
    refine ⟨before, entry, after, c, number, rfl, hBefore, hFirst, ?_, ?_⟩
    · apply begins_of_mem
      rw [hSplit]
      simp
    · rw [read, hSplit]
      refine readEntries_of_error (fun earlier hEarlier => ?_) (readEntry_storeEntry_of_some hFirst) ..
      have hStored : earlier.2 ∈ before.map (storeEntry style.capital) := by
        rw [← hFront]
        exact List.mem_map_of_mem hEarlier
      obtain ⟨stored, hIn, hSame⟩ := List.mem_map.mp hStored
      exact ⟨stored, by rw [← hSame, readEntry_storeEntry_of_none (hBefore stored hIn)]⟩

/-- In falling order, with a comment between them: an entry with a character of two units, and one whose
key would begin a comment and whose value begins with a space. -/
theorem reads_stored_wide :
    let style : StoreStyle := ⟨false, true⟩
    let table : Table := .ofList [(['b', ' '], ['ö', '😀', '\t']), (['#', '€'], [' ', ' '])]
    let lines : List Text :=
      ["b\\ =\\u00f6\\ud83d\\ude00\\t\r".toList, [' '] ++ '!' :: ['\r'], "\\#\\u20ac=\\  \r".toList]
    table.entries.reverse.Perm table.entries ∧ Spread (storeLine style) table.entries.reverse lines ∧
      ReadsStored style.capital table table.entries.reverse ['f'] (joined lines) := by
  intro style table lines
  have hEntries : table.entries.reverse.Perm table.entries := List.reverse_perm _
  have hLines : Spread (storeLine style) table.entries.reverse lines :=
    .entry (.comment (List.all_eq_true.mp rfl) (.inr rfl) (by decide) (.entry .ended))
  exact ⟨hEntries, hLines, reads_stored style hEntries hLines ['f']⟩

/-- A value that is one character of two units is stored by two names, and refused for the first. -/
theorem stored_pair_refused :
    let style : StoreStyle := ⟨true, false⟩
    let table : Table := .ofList [(['k'], ['😀'])]
    let lines : List Text := ["k=\\uD83D\\uDE00".toList]
    Spread (storeLine style) table.entries lines ∧ read ['f'] (joined lines) ≠ .ok table ∧
      read ['f'] (joined lines) = .error (.malformedProperty ['f'] 1 "D83D".toList) := by
  intro style table lines
  have hRead : read ['f'] (joined lines) =
      .error (.malformedProperty ['f'] 1 "D83D".toList) := by
    with_unfolding_all rfl
  refine ⟨.entry .ended, ?_, hRead⟩
  rw [hRead]
  exact nofun

end Placeholder.PropertyFile
