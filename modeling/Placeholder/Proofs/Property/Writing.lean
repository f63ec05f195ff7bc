import Placeholder.Proofs.Property.Layout
import Placeholder.Proofs.Table.Contents
/-!
Property files that are written to be read back: one entry a line, and a backslash before every
character that would mean something else by itself. Such a file gives the table that it was written
from, in whatever order its entries stand and whatever blank lines and comments stand between them.
-/
namespace Placeholder.PropertyFile

variable {text rest : Text} {c : Char} {entries : List (Text × Text)} {lines : List Text}

/-- A character in its written form. Line breaks, tabs and form feeds are written as letters behind a
backslash; every other character that separates, comments or is white space is put behind one. -/
def escapeChar (c : Char) : Text :=
  match c with
  | '\t' => ['\\', 't']
  | '\n' => ['\\', 'n']
  | '\r' => ['\\', 'r']
  | '\x0c' => ['\\', 'f']
  | c => if c ∈ ['\\', '=', ':', '#', '!'] || Text.isBlank c then ['\\', c] else [c]

def escape (text : Text) : Text :=
  text.flatMap escapeChar

/-- An entry in one line. -/
def writeEntry (entry : Text × Text) : Text :=
  escape entry.1 ++ '=' :: escape entry.2

/-- The character stands for itself wherever it stands. -/
structure Bare (c : Char) : Prop where
  plain : c ≠ '\\'
  unending : endsKey c = false
  uncommenting : c ≠ '#' ∧ c ≠ '!'
  shown : Text.isBlank c = false

/-- A written character is bare, or a backslash and a character that is no line break. -/
inductive Escaped : Text → Char → Prop
  | bare {c : Char} (h : Bare c) : Escaped [c] c
  | behind (letter : Char) (hName : letter ≠ 'u') (hBreak : letter ≠ '\n' ∧ letter ≠ '\r') :
      Escaped ['\\', letter] (plainEscape letter)

theorem escaped_escapeChar (c : Char) : Escaped (escapeChar c) c := by
  fun_cases escapeChar c with
  | case1 => exact .behind 't' (by decide) (by decide)
  | case2 => exact .behind 'n' (by decide) (by decide)
  | case3 => exact .behind 'r' (by decide) (by decide)
  | case4 => exact .behind 'f' (by decide) (by decide)
  | case5 _ _ hFeed hReturn _ hSpecial =>
      have hLetter : c ∉ ['u', 't', 'n', 'r', 'f'] := by
        have hNone : ['u', 't', 'n', 'r', 'f'].all (fun letter =>
            !(letter ∈ ['\\', '=', ':', '#', '!'] || Text.isBlank letter)) = true := by decide
        intro hMem
        have hPlain := List.all_eq_true.mp hNone c hMem
        rw [hSpecial] at hPlain
        cases hPlain
      have hSame : plainEscape c = c := by
        fun_cases plainEscape c with
        | case5 => rfl
        | _ => simp at hLetter
      have hBehind := Escaped.behind c (by rintro rfl; simp at hLetter) ⟨hFeed, hReturn⟩
      rwa [hSame] at hBehind
  | case6 _ _ _ _ _ hPlain =>
      have hOther : ∀ special, (special ∈ ['\\', '=', ':', '#', '!'] || Text.isBlank special) = true →
          c ≠ special := fun special hSpecial hSame => hPlain (hSame ▸ hSpecial)
      refine .bare ⟨hOther '\\' rfl, ?_, ⟨hOther '#' rfl, hOther '!' rfl⟩, ?_⟩
      · simp [endsKey, isGap, hOther '=' rfl, hOther ':' rfl, hOther ' ' rfl, hOther '\t' rfl,
          hOther '\x0c' rfl]
      · simpa using (not_or.mp (mt Bool.or_eq_true_iff.mpr hPlain)).2

namespace Escaped

variable {written : Text}

theorem denotes (h : Escaped written c) : Denotes written c := by
  cases h with
  | bare hBare => exact .plain hBare.plain
  | behind letter hName _ => exact .escaped hName

/-- A written character does not end a key. -/
theorem splitKey (h : Escaped written c) (rest : Text) :
    splitKey (written ++ rest) =
      (written ++ (PropertyFile.splitKey rest).1, (PropertyFile.splitKey rest).2) := by
  cases h with
  | bare hBare =>
      rw [List.singleton_append, PropertyFile.splitKey, hBare.unending]
      · rfl
      · exact fun hOpen _ => hBare.plain hOpen
      · exact fun _ _ hOpen _ => hBare.plain hOpen
  | behind letter => rfl

/-- No written character holds a line break. -/
theorem unbroken (h : Escaped written c) : '\n' ∉ written ∧ '\r' ∉ written := by
  cases h with
  | bare hBare =>
      have hBlank : ∀ blank, Text.isBlank blank = true → blank ∉ [c] := by
        intro blank hBlank hMem
        obtain rfl := List.mem_singleton.mp hMem
        cases hBlank.symm.trans hBare.shown
      exact ⟨hBlank '\n' rfl, hBlank '\r' rfl⟩
  | behind letter _ hBreak => simp [hBreak.1.symm, hBreak.2.symm]

/-- It begins with a backslash or is bare. -/
theorem head (h : Escaped written c) :
    ∃ first rest, written = first :: rest ∧ (first = '\\' ∨ Bare first) := by
  cases h with
  | bare hBare => exact ⟨c, [], rfl, .inr hBare⟩
  | behind letter => exact ⟨'\\', [letter], rfl, .inl rfl⟩

end Escaped

theorem escape_cons (c : Char) (text : Text) : escape (c :: text) = escapeChar c ++ escape text :=
  List.flatMap_cons

theorem unescape_escape (text : Text) : unescape (escape text) = .ok text :=
  unescape_flatMap fun c _ => (escaped_escapeChar c).denotes

theorem continues_escape (text : Text) : continues (escape text) = false :=
  continues_flatMap fun c _ => (escaped_escapeChar c).denotes

theorem splitKey_escape (text rest : Text) :
    splitKey (escape text ++ '=' :: rest) = (escape text, '=' :: rest) := by
  induction text with
  | nil => rfl
  | cons c text ih =>
      rw [escape_cons, List.append_assoc, (escaped_escapeChar c).splitKey, ih]

theorem unbroken_escape (text : Text) : '\n' ∉ escape text ∧ '\r' ∉ escape text := by
  constructor <;> intro hMem <;> obtain ⟨c, _, hChar⟩ := List.mem_flatMap.mp hMem
  · exact (escaped_escapeChar c).unbroken.1 hChar
  · exact (escaped_escapeChar c).unbroken.2 hChar

/-- The first character of a written text is a backslash or bare. -/
theorem head_escape (text : Text) : escape text = [] ∨
    ∃ first rest, escape text = first :: rest ∧ (first = '\\' ∨ Bare first) := by
  cases text with
  | nil => exact .inl rfl
  | cons c text =>
      obtain ⟨first, rest, hFirst, hShown⟩ := (escaped_escapeChar c).head
      exact .inr ⟨first, rest ++ escape text, by rw [escape_cons, hFirst]; rfl, hShown⟩

/-- Such a character is no gap that could be dropped at the front of a value. -/
theorem valueAfter_of_head {first : Char} (h : first = '\\' ∨ Bare first) (rest : Text) :
    valueAfter ('=' :: first :: rest) = first :: rest := by
  have hGap : isGap first = false := by
    rcases h with rfl | hBare
    · rfl
    · exact (Bool.or_eq_false_iff.mp hBare.unending).2
  exact List.dropWhile_cons_of_neg (by simp [hGap])

/-- An entry that begins with it is not taken for a blank line or a comment. -/
theorem shown_of_head {first : Char} (h : first = '=' ∨ first = '\\' ∨ Bare first) (rest : Text) :
    Text.trimStart (first :: rest) = first :: rest ∧ isSkipped (first :: rest) = false := by
  have hShown : Text.isBlank first = false ∧ first ≠ '#' ∧ first ≠ '!' := by
    rcases h with rfl | rfl | hBare
    · decide
    · decide
    · exact ⟨hBare.shown, hBare.uncommenting⟩
  constructor
  · exact List.dropWhile_cons_of_neg (by simp [hShown.1])
  · simp [isSkipped, hShown.2]

/-- A key that is written is not taken for a blank line or a comment, whatever comes behind it. -/
theorem shown_key (key rest : Text) :
    Text.trimStart (escape key ++ '=' :: rest) = escape key ++ '=' :: rest ∧
      isSkipped (escape key ++ '=' :: rest) = false := by
  rcases head_escape key with hNil | ⟨first, more, hFirst, hShown⟩
  · rw [hNil]
    exact shown_of_head (.inl rfl) _
  · rw [hFirst]
    exact shown_of_head (.inr hShown) _

/-- Text that stands for a value behind its key, up to the end of a line. -/
structure StandsFor (written value : Text) : Prop where
  read : unescape written = .ok value
  closed : continues written = false
  unbroken : '\n' ∉ written
  unreturned : '\r' ∉ written
  kept : valueAfter ('=' :: written) = written

theorem standsFor_escape (value : Text) : StandsFor (escape value) value where
  read := unescape_escape value
  closed := continues_escape value
  unbroken := (unbroken_escape value).1
  unreturned := (unbroken_escape value).2
  kept := by
    rcases head_escape value with hNil | ⟨first, rest, hFirst, hShown⟩
    · rw [hNil]
      rfl
    · rw [hFirst, valueAfter_of_head hShown]

/-- A written key with text for a value holds that entry, and reads as nothing else. -/
theorem StandsFor.holds {written value : Text} (h : StandsFor written value) (key : Text) :
    Holds (escape key ++ '=' :: written) (key, value) where
  unbroken := by simp [(unbroken_escape key).1, h.unbroken]
  unreturned := by simp [(unbroken_escape key).2, h.unreturned]
  trimmed := (shown_key key written).1
  shown := (shown_key key written).2
  closed := by
    have hSeparator : continues ['='] = false := rfl
    rw [continues_append (continues_escape key), ← List.singleton_append,
      continues_append hSeparator, h.closed]
  read := by
    rw [readEntry_eq_ok_iff, splitKey_escape, h.kept]
    exact ⟨unescape_escape key, h.read⟩

theorem holds_writeEntry (entry : Text × Text) : Holds (writeEntry entry) entry :=
  (standsFor_escape entry.2).holds entry.1

/-- A table that is written is read back, in whatever order its entries are written and whatever blank
lines and comments stand between them. -/
theorem read_written {table : Table} (hEntries : entries.Perm table.entries)
    (hLines : Spread writeEntry entries lines) (path : Text) :
    read path (joined lines) = .ok table := by
  rw [hLines.read (fun entry _ => holds_writeEntry entry), Table.ofList_of_perm hEntries]

/-- An empty key and a key that looks like a comment, in falling order, behind a comment that ends in a
backslash and with a blank line between them. -/
theorem read_written_commented :
    let table : Table := .ofList [([], [' ', '=']), (['#', '\\'], ['\\', '\n'])]
    let lines : List Text :=
      [[' '] ++ '!' :: " note \\".toList, "\\#\\\\=\\\\\\n".toList, [' ', '\t'], "=\\ \\=".toList]
    table.entries.reverse.Perm table.entries ∧ Spread writeEntry table.entries.reverse lines ∧
      read ['f'] (joined lines) = .ok table := by
  intro table lines
  have hEntries : table.entries.reverse.Perm table.entries := List.reverse_perm _
  have hLines : Spread writeEntry table.entries.reverse lines :=
    .comment (List.all_eq_true.mp rfl) (.inr rfl) (by decide)
      (.entry (.blank (List.all_eq_true.mp rfl) (by decide) (.entry .ended)))
  exact ⟨hEntries, hLines, read_written hEntries hLines ['f']⟩

end Placeholder.PropertyFile
