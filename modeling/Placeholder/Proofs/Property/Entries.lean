import Mathlib.Data.List.Infix
import Placeholder.Proofs.Property.Escapes
import Placeholder.Proofs.Text.Search
/-!
From the lines of a property file to its table. An entry begins in one line and takes in the lines in
which it goes on; its number is that of the line where it begins. The entries are read in order up to
the first one that cannot be read.
-/
namespace Placeholder.PropertyFile

variable {path content line entry : Text} {rest : List Text} {number : Nat}

/-- A line without the carriage return at its end. -/
def withoutReturn (line : Text) : Text :=
  if line.getLast? = some '\r' then line.dropLast else line

theorem lines_nil : lines [] = [] := rfl

/-- What comes in front of a line feed is a line. -/
theorem lines_cons (h : '\n' ∉ line) (rest : Text) :
    lines (line ++ '\n' :: rest) = withoutReturn line :: lines rest := by
  have hRest := Text.cutAt_ne_nil '\n' rest
  have hLast : (line :: rest.cutAt '\n').getLast? = (rest.cutAt '\n').getLast? :=
    List.getLast?_cons_of_ne_nil hRest
  rw [lines, lines, Text.cutAt_append h, List.dropLast_cons_of_ne_nil hRest, hLast, List.map_cons]
  cases (rest.cutAt '\n').getLast? with
  | none => rfl
  | some last => cases last <;> rfl

/-- What is left behind the last line feed is a line. -/
theorem lines_last (h : '\n' ∉ line) (hSome : line ≠ []) : lines line = [line] := by
  rw [lines, Text.cutAt_eq_singleton h]
  cases line with
  | nil => exact absurd rfl hSome
  | cons => rfl

/-- Where every line is ended, each of them is a line. -/
theorem lines_ended_append {written : List Text} (h : ∀ line ∈ written, '\n' ∉ line) (rest : Text) :
    lines (written.flatMap (· ++ ['\n']) ++ rest) = written.map withoutReturn ++ lines rest := by
  induction written with
  | nil => rfl
  | cons line written ih =>
      obtain ⟨hFirst, hLater⟩ := List.forall_mem_cons.mp h
      rw [List.flatMap_cons, List.append_assoc, List.append_assoc, List.singleton_append,
        lines_cons hFirst, ih hLater, List.map_cons, List.cons_append]

theorem lines_ended {written : List Text} (h : ∀ line ∈ written, '\n' ∉ line) :
    lines (written.flatMap (· ++ ['\n'])) = written.map withoutReturn := by
  simpa [lines_nil] using lines_ended_append h []

/-- A line that does not go on is an entry by itself. -/
theorem gather_of_closed (h : continues line = false) (rest : List Text) :
    gather line rest = (line, rest) := by
  cases rest <;> simp [gather, h]

/-- Behind an entry come the lines that it did not take in. -/
theorem gather_suffix (line : Text) (rest : List Text) : (gather line rest).2 <:+ rest := by
  induction rest generalizing line with
  | nil => exact List.suffix_refl _
  | cons next rest ih =>
      rw [gather]
      split
      · exact (ih _).trans (List.suffix_cons _ _)
      · exact List.suffix_refl _

theorem entries_nil (number : Nat) : entries number [] = [] := by rw [entries]

theorem entries_skipped (h : isSkipped (Text.trimStart line) = true) :
    entries number (line :: rest) = entries (number + 1) rest := by
  rw [entries, if_pos h]

theorem entries_closed (hShown : isSkipped (Text.trimStart line) = false)
    (hClosed : continues (Text.trimStart line) = false) :
    entries number (line :: rest) =
      (number, Text.trimStart line) :: entries (number + 1) rest := by
  rw [entries, hShown, gather_of_closed hClosed]
  simp

/-- The entry that begins in a line, with what it takes in from the lines behind. -/
structure Begins (lines : List Text) (number : Nat) (entry : Text) : Prop where
  counted : 0 < number
  line : ∃ line, lines[number - 1]? = some line ∧ isSkipped (Text.trimStart line) = false ∧
    entry = (gather (Text.trimStart line) (lines.drop number)).1

theorem rest_eq_drop {all : List Text} (hCounted : 0 < number)
    (h : line :: rest = all.drop (number - 1)) : rest = all.drop number := by
  have hTail := congrArg List.tail h
  rwa [List.tail_cons, List.tail_drop, Nat.sub_add_cancel hCounted] at hTail

theorem begins_of_mem_from {all lines : List Text} (hLines : lines = all.drop (number - 1))
    (hCounted : 0 < number) {found : Nat} (h : (found, entry) ∈ entries number lines) :
    Begins all found entry := by
  induction number, lines using entries.induct with
  | case1 number =>
      rw [entries_nil] at h
      cases h
  | case2 number line rest hSkipped ih =>
      rw [entries_skipped hSkipped] at h
      exact ih (rest_eq_drop hCounted hLines) (Nat.succ_pos _) h
  | case3 number line rest hShown ih =>
      have hRest := rest_eq_drop hCounted hLines
      rw [entries, if_neg hShown] at h
      rcases List.mem_cons.mp h with hHere | hLater
      · cases hHere
        refine ⟨hCounted, line, ?_, Bool.eq_false_iff.mpr hShown, by rw [← hRest]⟩
        rw [← List.head?_drop, ← hLines, List.head?_cons]
      · refine ih ?_ (by omega) hLater
        -- What an entry took in is what was dropped in front of the next one.
        calc (gather (Text.trimStart line) rest).2
            = rest.drop (rest.length - (gather (Text.trimStart line) rest).2.length) :=
              List.suffix_iff_eq_drop.mp (gather_suffix _ rest)
          _ = all.drop (number + (rest.length - (gather (Text.trimStart line) rest).2.length)) := by
              rw [← List.drop_drop, ← hRest]
          _ = _ := by
              congr 1
              omega

/-- An entry has the number of the line in which it begins. -/
theorem begins_of_mem {lines : List Text} (h : (number, entry) ∈ entries 1 lines) :
    Begins lines number entry :=
  begins_of_mem_from List.drop_zero.symm Nat.one_pos h

/-- An entry as it is read. -/
theorem readEntry_eq_ok_iff {key value : Text} :
    readEntry entry = .ok (key, value) ↔
      unescape (splitKey entry).1 = .ok key ∧ unescape (valueAfter (splitKey entry).2) = .ok value := by
  rw [readEntry]
  cases unescape (splitKey entry).1 with
  | error digits => simp [bind, Except.bind]
  | ok key =>
      cases unescape (valueAfter (splitKey entry).2) <;>
        simp [bind, Except.bind, pure, Except.pure]

/-- Entries that can be read are all put into the table. -/
theorem readEntries_of_ok {entries : List (Nat × Text)} {pairs : List (Text × Text)}
    (h : entries.map (fun entry => readEntry entry.2) = pairs.map .ok) (path : Text) (table : Table) :
    readEntries path table entries =
      .ok (pairs.foldl (fun table pair => table.insert pair.1 pair.2) table) := by
  induction entries generalizing pairs table with
  | nil =>
      obtain rfl := List.map_eq_nil_iff.mp h.symm
      rfl
  | cons entry entries ih =>
      cases pairs with
      | nil => cases h
      | cons pair pairs =>
          rw [List.map_cons, List.map_cons] at h
          obtain ⟨hFirst, hLater⟩ := List.cons.inj h
          rw [readEntries, hFirst, List.foldl_cons]
          exact ih hLater _

/-- The first entry that cannot be read is reported. -/
theorem readEntries_of_error {before after : List (Nat × Text)} {digits : Text}
    (hBefore : ∀ earlier ∈ before, ∃ pair, readEntry earlier.2 = .ok pair)
    (h : readEntry entry = .error digits) (path : Text) (table : Table) :
    readEntries path table (before ++ (number, entry) :: after) =
      .error (.malformedProperty path number digits) := by
  induction before generalizing table with
  | nil => rw [List.nil_append, readEntries, h]
  | cons earlier before ih =>
      obtain ⟨pair, hPair⟩ := hBefore earlier (List.mem_cons_self ..)
      rw [List.cons_append, readEntries, hPair]
      exact ih (fun later hMem => hBefore later (List.mem_cons_of_mem _ hMem)) _

/-- A table comes of entries that can all be read. -/
theorem exists_pairs_of_readEntries {entries : List (Nat × Text)} {table result : Table}
    (h : readEntries path table entries = .ok result) :
    ∃ pairs : List (Text × Text), entries.map (fun entry => readEntry entry.2) = pairs.map .ok := by
  induction entries generalizing table with
  | nil => exact ⟨[], rfl⟩
  | cons entry entries ih =>
      rw [readEntries] at h
      cases hRead : readEntry entry.2 with
      | error digits =>
          rw [hRead] at h
          cases h
      | ok pair =>
          rw [hRead] at h
          obtain ⟨pairs, hPairs⟩ := ih h
          exact ⟨pair :: pairs, by rw [List.map_cons, List.map_cons, hRead, hPairs]⟩

/-- A failure comes of the first entry that cannot be read. -/
theorem exists_unread_of_readEntries {entries : List (Nat × Text)} {table : Table} {failure : Failure}
    (h : readEntries path table entries = .error failure) :
    ∃ before number entry after digits, entries = before ++ (number, entry) :: after ∧
      (∀ earlier ∈ before, ∃ pair, readEntry earlier.2 = .ok pair) ∧
      readEntry entry = .error digits ∧ failure = .malformedProperty path number digits := by
  induction entries generalizing table with
  | nil => cases h
  | cons first entries ih =>
      rw [readEntries] at h
      cases hRead : readEntry first.2 with
      | error digits =>
          rw [hRead] at h
          cases h
          exact ⟨[], first.1, first.2, entries, digits, rfl, nofun, hRead, rfl⟩
      | ok pair =>
          rw [hRead] at h
          obtain ⟨before, number, entry, after, digits, rfl, hBefore, hEntry, rfl⟩ := ih h
          exact ⟨first :: before, number, entry, after, digits, rfl,
            List.forall_mem_cons.mpr ⟨⟨pair, hRead⟩, hBefore⟩, hEntry, rfl⟩

end Placeholder.PropertyFile
