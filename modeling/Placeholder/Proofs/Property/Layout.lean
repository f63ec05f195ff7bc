import Mathlib.Data.List.TakeWhile
import Placeholder.Proofs.Property.Entries
/-!
Property files laid out line by line: each entry in a line of its own, and blank lines and comments
anywhere between them. If every such line reads as its entry, the file gives the entries in order.
-/
namespace Placeholder.PropertyFile

variable {line text blanks : Text} {c mark : Char} {entries : List (Text × Text)}
  {lines : List Text} {write : Text × Text → Text}

/-- Entries in order, each in the line that `write` makes of it, with blank lines and comments
anywhere. -/
inductive Spread (write : Text × Text → Text) : List (Text × Text) → List Text → Prop
  | ended : Spread write [] []
  | entry {entry : Text × Text} {entries : List (Text × Text)} {lines : List Text}
      (hLater : Spread write entries lines) : Spread write (entry :: entries) (write entry :: lines)
  | blank {blanks : Text} {entries : List (Text × Text)} {lines : List Text}
      (hBlanks : ∀ c ∈ blanks, Text.isBlank c = true) (hUnbroken : '\n' ∉ blanks)
      (hLater : Spread write entries lines) : Spread write entries (blanks :: lines)
  | comment {blanks text : Text} {mark : Char} {entries : List (Text × Text)} {lines : List Text}
      (hBlanks : ∀ c ∈ blanks, Text.isBlank c = true) (hMark : mark = '#' ∨ mark = '!')
      (hUnbroken : '\n' ∉ blanks ++ mark :: text) (hLater : Spread write entries lines) :
      Spread write entries ((blanks ++ mark :: text) :: lines)

/-- The text of a file with these lines. -/
def joined (lines : List Text) : Text :=
  lines.flatMap (· ++ ['\n'])

/-- A line that is an entry by itself, with this text. -/
structure Single (line text : Text) : Prop where
  unbroken : '\n' ∉ line
  ended : withoutReturn line = text
  trimmed : Text.trimStart text = text
  shown : isSkipped text = false
  closed : continues text = false

/-- A line that is one entry by itself and reads as this pair. -/
structure Holds (line : Text) (entry : Text × Text) : Prop where
  unbroken : '\n' ∉ line
  unreturned : '\r' ∉ line
  trimmed : Text.trimStart line = line
  shown : isSkipped line = false
  closed : continues line = false
  read : readEntry line = .ok entry

theorem withoutReturn_of_not_mem (h : '\r' ∉ line) : withoutReturn line = line := by
  rw [withoutReturn, if_neg]
  exact fun hLast => h (List.mem_of_getLast? hLast)

theorem mem_of_mem_withoutReturn (h : c ∈ withoutReturn line) : c ∈ line := by
  rw [withoutReturn] at h
  split at h
  · exact List.mem_of_mem_dropLast h
  · exact h

/-- A comment without its carriage return is a comment. -/
theorem exists_comment (hMark : mark ≠ '\r') (blanks text : Text) :
    ∃ rest, withoutReturn (blanks ++ mark :: text) = blanks ++ mark :: rest := by
  rw [withoutReturn]
  split
  · rename_i hLast
    cases text with
    | nil =>
        rw [List.getLast?_concat] at hLast
        exact absurd (Option.some.inj hLast) hMark
    | cons first text =>
        refine ⟨(first :: text).dropLast, ?_⟩
        rw [List.dropLast_append_of_ne_nil (List.cons_ne_nil _ _),
          List.dropLast_cons_of_ne_nil (List.cons_ne_nil _ _)]
  · exact ⟨text, rfl⟩

theorem isSkipped_blanks (h : ∀ c ∈ blanks, Text.isBlank c = true) :
    isSkipped (Text.trimStart (withoutReturn blanks)) = true := by
  have hNone : Text.trimStart (withoutReturn blanks) = [] :=
    List.dropWhile_eq_nil_iff.mpr fun c hMem => h c (mem_of_mem_withoutReturn hMem)
  rw [hNone, isSkipped]

theorem isSkipped_comment (hBlanks : ∀ c ∈ blanks, Text.isBlank c = true)
    (hMark : mark = '#' ∨ mark = '!') (text : Text) :
    isSkipped (Text.trimStart (withoutReturn (blanks ++ mark :: text))) = true := by
  have hShown : mark ≠ '\r' ∧ Text.isBlank mark = false := by
    rcases hMark with rfl | rfl <;> decide
  obtain ⟨rest, hRest⟩ := exists_comment hShown.1 blanks text
  have hTrimmed : Text.trimStart (blanks ++ mark :: rest) = mark :: rest := by
    rw [Text.trimStart, List.dropWhile_append, List.dropWhile_eq_nil_iff.mpr hBlanks,
      List.isEmpty_nil, if_pos rfl, List.dropWhile_cons_of_neg (by simp [hShown.2])]
  rw [hRest, hTrimmed, isSkipped]
  simpa using hMark

theorem Holds.single {entry : Text × Text} (h : Holds line entry) : Single line line :=
  ⟨h.unbroken, withoutReturn_of_not_mem h.unreturned, h.trimmed, h.shown, h.closed⟩

namespace Spread

variable {shown : Text × Text → Text}

/-- Where the entries are written without line breaks, no line has one. -/
theorem unbroken (h : Spread write entries lines)
    (hSingle : ∀ entry ∈ entries, Single (write entry) (shown entry)) :
    ∀ line ∈ lines, '\n' ∉ line := by
  induction h with
  | ended => simp
  | entry _ ih =>
      obtain ⟨hFirst, hLater⟩ := List.forall_mem_cons.mp hSingle
      exact List.forall_mem_cons.mpr ⟨hFirst.unbroken, ih hLater⟩
  | blank _ hUnbroken _ ih => exact List.forall_mem_cons.mpr ⟨hUnbroken, ih hSingle⟩
  | comment _ _ hUnbroken _ ih => exact List.forall_mem_cons.mpr ⟨hUnbroken, ih hSingle⟩

/-- The lines hold the entries and nothing else. -/
theorem entries_eq (h : Spread write entries lines)
    (hSingle : ∀ entry ∈ entries, Single (write entry) (shown entry)) (number : Nat) :
    (PropertyFile.entries number (lines.map withoutReturn)).map Prod.snd = entries.map shown := by
  induction h generalizing number with
  | ended => rw [List.map_nil, entries_nil, List.map_nil, List.map_nil]
  | entry _ ih =>
      obtain ⟨hFirst, hLater⟩ := List.forall_mem_cons.mp hSingle
      rw [List.map_cons, hFirst.ended,
        entries_closed (by rw [hFirst.trimmed, hFirst.shown]) (by rw [hFirst.trimmed, hFirst.closed]),
        hFirst.trimmed, List.map_cons, List.map_cons, ih hLater]
  | blank hBlanks _ _ ih =>
      rw [List.map_cons, entries_skipped (isSkipped_blanks hBlanks)]
      exact ih hSingle _
  | comment hBlanks hMark _ _ ih =>
      rw [List.map_cons, entries_skipped (isSkipped_comment hBlanks hMark _)]
      exact ih hSingle _

/-- So do those of the whole file. -/
theorem entries_joined (h : Spread write entries lines)
    (hSingle : ∀ entry ∈ entries, Single (write entry) (shown entry)) :
    (PropertyFile.entries 1 (PropertyFile.lines (joined lines))).map Prod.snd =
      entries.map shown := by
  rw [joined, lines_ended (h.unbroken hSingle)]
  exact h.entries_eq hSingle 1

/-- A file whose entries are read one by one gives their table. -/
theorem read_of_single (h : Spread write entries lines)
    (hSingle : ∀ entry ∈ entries, Single (write entry) (shown entry))
    (hRead : ∀ entry ∈ entries, readEntry (shown entry) = .ok entry) (path : Text) :
    read path (joined lines) = .ok (.ofList entries) := by
  apply readEntries_of_ok _ path .empty
  have hEntries := congrArg (List.map readEntry) (h.entries_joined hSingle)
  rw [List.map_map, List.map_map] at hEntries
  exact hEntries.trans (List.map_congr_left hRead)

/-- A file whose lines hold entries gives their table. -/
theorem read (h : Spread write entries lines)
    (hHolds : ∀ entry ∈ entries, Holds (write entry) entry) (path : Text) :
    read path (joined lines) = .ok (.ofList entries) :=
  h.read_of_single (fun entry hMem => (hHolds entry hMem).single)
    (fun entry hMem => (hHolds entry hMem).read) path

end Spread

end Placeholder.PropertyFile
