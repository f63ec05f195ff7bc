import Placeholder.Proofs.Property.Layout
/-!
A line of an entry can be broken without a trace: a backslash is put at the place, and what follows it
goes on in the next line, behind spaces and tabs. The entries stay the same, and those behind the place
begin one line further down.
-/
namespace Placeholder.PropertyFile

variable {path line before front : Text} {above old new : List Text} {first number : Nat}

/-- A place in a property file: the lines above it, what stands in front of it in its own line, and
whatever comes behind it. -/
structure Place where
  above : List Text
  front : Text
  behind : Text

namespace Place

def content (place : Place) : Text :=
  joined place.above ++ (place.front ++ place.behind)

/-- The number of the line that the place is in. -/
def lineNumber (place : Place) : Nat :=
  place.above.length + 1

/-- The file with the line broken at the place. -/
def broken (place : Place) (ending gap : Text) : Text :=
  joined place.above ++ (place.front ++ '\\' :: (ending ++ (gap ++ place.behind)))

/-- Where a line can be broken. -/
structure Breakable (place : Place) : Prop where
  above : ∀ line ∈ place.above, '\n' ∉ line
  front : '\n' ∉ place.front
  shown : ∃ c ∈ place.front, Text.isBlank c = false
  /-- An even number of backslashes stands right in front of it. -/
  closed : continues place.front = false
  /-- It is in its line and not in the line's ending, and what follows in the line is not white space. -/
  within : ∃ back, (lines place.content)[place.above.length]? = some (place.front ++ back) ∧
    ∀ c, back.head? = some c → Text.isBlank c = false
  /-- An entry begins in its line, or in one above and goes on up to its line. -/
  inside : ∃ first entry, (first, entry) ∈ entries 1 (lines place.content) ∧ first ≤ place.lineNumber ∧
    ∀ line ∈ place.above.drop (first - 1), continues (withoutReturn line) = true

end Place

/-- What becomes of the number of a line when the line with number `broken` is broken. -/
def moved (broken number : Nat) : Nat :=
  if number ≤ broken then number else number + 1

theorem continues_nil : continues [] = false := rfl

theorem trimStart_ne_nil (h : ∃ c ∈ front, Text.isBlank c = false) : Text.trimStart front ≠ [] := by
  obtain ⟨c, hMem, hShown⟩ := h
  intro hNone
  rw [List.dropWhile_eq_nil_iff.mp hNone c hMem] at hShown
  cases hShown

theorem trimStart_append (h : ∃ c ∈ front, Text.isBlank c = false) (back : Text) :
    Text.trimStart (front ++ back) = Text.trimStart front ++ back := by
  have hSome : front.dropWhile Text.isBlank ≠ [] := trimStart_ne_nil h
  rw [Text.trimStart, List.dropWhile_append, if_neg (by simpa using hSome), Text.trimStart]

/-- Blanks at its front do not matter for whether a line goes on. -/
theorem continues_trimStart (line : Text) : continues (Text.trimStart line) = continues line := by
  have hBlanks : continues (line.takeWhile Text.isBlank) = false := by
    refine continues_of_not_mem fun hMem => ?_
    cases List.mem_takeWhile_imp hMem
  calc continues (Text.trimStart line)
      = continues (line.takeWhile Text.isBlank ++ Text.trimStart line) :=
        (continues_append hBlanks _).symm
    _ = continues line := by rw [Text.trimStart, List.takeWhile_append_dropWhile]

/-- Without the backslash behind which it goes on, a line is closed. -/
theorem continues_dropLast (h : continues line = true) : continues line.dropLast = false := by
  cases List.eq_nil_or_concat line with
  | inl hNil =>
      rw [hNil] at h
      cases h
  | inr hConcat =>
      obtain ⟨rest, c, rfl⟩ := hConcat
      simp only [continues, List.concat_eq_append, List.reverse_append, List.reverse_singleton,
        List.singleton_append, List.takeWhile_cons, List.dropLast_concat, decide_eq_true_eq,
        decide_eq_false_iff_not] at h ⊢
      split at h
      · rw [List.length_cons] at h
        omega
      · cases h

theorem gather_of_continues (h : continues line = true) (next : Text) (rest : List Text) :
    gather line (next :: rest) = gather (line.dropLast ++ Text.trimStart next) rest := by
  rw [gather, if_pos h]

/-- What the next line leaves open is left open behind it. -/
theorem continues_gathered (h : continues line = true) (next : Text) :
    continues (line.dropLast ++ Text.trimStart next) = continues next := by
  rw [continues_append (continues_dropLast h), continues_trimStart]

/-- Where all lines go on, the one behind them is taken in. -/
theorem gather_of_all_continue (h : continues line = true)
    (hAll : ∀ next ∈ above, continues next = true) :
    ∃ before, continues before = false ∧ ∀ next rest,
      gather line (above ++ next :: rest) = gather (before ++ Text.trimStart next) rest := by
  induction above generalizing line with
  | nil => exact ⟨line.dropLast, continues_dropLast h, gather_of_continues h⟩
  | cons first above ih =>
      obtain ⟨hFirst, hLater⟩ := List.forall_mem_cons.mp hAll
      obtain ⟨before, hClosed, hTaken⟩ := ih ((continues_gathered h first).trans hFirst) hLater
      refine ⟨before, hClosed, fun next rest => ?_⟩
      rw [List.cons_append, gather_of_continues h, hTaken]

/-- Where one of them does not, nothing behind them is taken in. -/
theorem gather_of_not_all_continue
    (h : ¬ (continues line = true ∧ ∀ next ∈ above, continues next = true)) (rest : List Text) :
    gather line (above ++ rest) = ((gather line above).1, (gather line above).2 ++ rest) := by
  induction above generalizing line with
  | nil =>
      have hClosed : continues line = false := by simpa using h
      rw [List.nil_append, gather_of_closed hClosed, gather_of_closed hClosed, List.nil_append]
  | cons first above ih =>
      cases hLine : continues line with
      | false => rw [gather_of_closed hLine, gather_of_closed hLine]
      | true =>
          rw [List.cons_append, gather_of_continues hLine, gather_of_continues hLine]
          refine ih fun hAll => h ⟨hLine, List.forall_mem_cons.mpr ⟨?_, hAll.2⟩⟩
          rw [← continues_gathered hLine first, hAll.1]

theorem drop_of_suffix {later all : List Text} (h : later <:+ all) (n : Nat) :
    later.drop n = all.drop (all.length - later.length + n) := by
  rw [← List.drop_drop, ← List.suffix_iff_eq_drop.mp h]

theorem le_of_mem_entries {entry : Text} {rest : List Text}
    (h : (first, entry) ∈ entries number rest) : number ≤ first := by
  induction number, rest using entries.induct with
  | case1 number =>
      rw [entries_nil] at h
      cases h
  | case2 number line rest hSkipped ih =>
      rw [entries_skipped hSkipped] at h
      exact Nat.le_of_succ_le (ih h)
  | case3 number line rest hShown ih =>
      rw [entries, if_neg hShown] at h
      rcases List.mem_cons.mp h with hHere | hLater
      · cases hHere
        exact Nat.le_refl _
      · exact Nat.le_trans (by omega) (ih hLater)

theorem drop_of_lt (h : number < first) (line : Text) (above : List Text) :
    (line :: above).drop (first - number) = above.drop (first - (number + 1)) := by
  rw [show first - number = first - (number + 1) + 1 by omega, List.drop_succ_cons]

/-- Lines behind the place, counted from one further down. -/
theorem entries_succ {place : Nat} (h : place < number) (rest : List Text) :
    entries (number + 1) rest = (entries number rest).map (Prod.map (moved place) id) := by
  induction number, rest using entries.induct with
  | case1 number => rw [entries_nil, entries_nil, List.map_nil]
  | case2 number line rest hSkipped ih =>
      rw [entries_skipped hSkipped, entries_skipped hSkipped]
      exact ih (Nat.lt_succ_of_lt h)
  | case3 number line rest hShown ih =>
      have hMoved : moved place number = number + 1 := if_neg (Nat.not_le_of_lt h)
      rw [entries, if_neg hShown, entries, if_neg hShown, List.map_cons, Prod.map_apply, hMoved, id,
        ← ih (by omega)]
      congr 2
      omega

/-- The lines from that of the place on, before and after it is broken. -/
inductive Broken (front : Text) : List Text → List Text → Prop
  | between {back gap : Text} {rest : List Text} (hGap : ∀ c ∈ gap, Text.isBlank c = true)
      (hBack : ∀ c, back.head? = some c → Text.isBlank c = false) :
      Broken front ((front ++ back) :: rest) ((front ++ ['\\']) :: (gap ++ back) :: rest)
  | last : Broken front [front] [front ++ ['\\']]

/-- Behind a closed text, two runs of lines give one entry and leave the same lines behind it. If any
are left, the second run has one more in front of them. -/
structure Alike (before next : Text) (rest : List Text) (next' : Text) (rest' : List Text) : Prop where
  skipped : isSkipped (Text.trimStart next') = isSkipped (Text.trimStart next)
  taken : gather (before ++ Text.trimStart next') rest' = gather (before ++ Text.trimStart next) rest
  counted : (gather (before ++ Text.trimStart next) rest).2 = [] ∨ rest'.length = rest.length + 1

theorem isSkipped_append (h : line ≠ []) (rest : Text) : isSkipped (line ++ rest) = isSkipped line := by
  cases line with
  | nil => exact absurd rfl h
  | cons => rfl

/-- However a line is broken, the entry is put together again. -/
theorem Broken.alike (h : Broken front old new) (hShown : ∃ c ∈ front, Text.isBlank c = false)
    (hFront : continues front = false) (hBefore : continues before = false) :
    ∃ next rest next' rest', old = next :: rest ∧ new = next' :: rest' ∧
      Alike before next rest next' rest' := by
  have hSome := trimStart_ne_nil hShown
  have hClosed : continues (before ++ Text.trimStart front) = false := by
    rw [continues_append hBefore, continues_trimStart, hFront]
  have hOpen : continues (before ++ (Text.trimStart front ++ ['\\'])) = true := by
    rw [← List.append_assoc, continues_append hClosed]
    rfl
  have hLast : (before ++ (Text.trimStart front ++ ['\\'])).dropLast =
      before ++ Text.trimStart front := by
    rw [← List.append_assoc, List.dropLast_concat]
  cases h with
  | @between back gap rest hGap hBack =>
      have hTrimmed : Text.trimStart (gap ++ back) = back := by
        rw [Text.trimStart, List.dropWhile_append, List.dropWhile_eq_nil_iff.mpr hGap,
          List.isEmpty_nil, if_pos rfl]
        cases back with
        | nil => rfl
        | cons c back => exact List.dropWhile_cons_of_neg (by simp [hBack c rfl])
      refine ⟨_, _, _, _, rfl, rfl, ?_, ?_, .inr rfl⟩
      · rw [trimStart_append hShown, trimStart_append hShown, isSkipped_append hSome,
          isSkipped_append hSome]
      · rw [trimStart_append hShown, trimStart_append hShown, gather_of_continues hOpen, hLast,
          hTrimmed, List.append_assoc]
  | last =>
      refine ⟨_, _, _, _, rfl, rfl, ?_, ?_, .inl ?_⟩
      · rw [trimStart_append hShown, isSkipped_append hSome]
      · rw [trimStart_append hShown, gather, gather, if_pos hOpen, hLast, hClosed]
        rfl
      · rw [gather]

/-- The entry that begins in the first of some lines and takes in the line behind them. -/
theorem entries_taken {next : Text} {rest : List Text}
    (hShown : isSkipped (Text.trimStart line) = false)
    (hTaken : gather (Text.trimStart line) (above ++ next :: rest) =
      gather (before ++ Text.trimStart next) rest) :
    entries number (line :: above ++ next :: rest) =
      (number, (gather (before ++ Text.trimStart next) rest).1) ::
        entries (number + (line :: above).length + 1 +
            (rest.length - (gather (before ++ Text.trimStart next) rest).2.length))
          (gather (before ++ Text.trimStart next) rest).2 := by
  have hLength := gather_length (before ++ Text.trimStart next) rest
  rw [List.cons_append, entries, hShown, hTaken]
  simp only [Bool.false_eq_true, if_false, List.length_append, List.length_cons]
  congr 2
  omega

/-- The entry that begins in the first of some lines and goes on in none behind them. -/
theorem entries_left (hShown : isSkipped (Text.trimStart line) = false)
    (hNotAll : ¬ (continues (Text.trimStart line) = true ∧ ∀ next ∈ above, continues next = true))
    (rest : List Text) :
    entries number (line :: above ++ rest) =
      (number, (gather (Text.trimStart line) above).1) ::
        entries (number + 1 + (above.length - (gather (Text.trimStart line) above).2.length))
          ((gather (Text.trimStart line) above).2 ++ rest) := by
  rw [List.cons_append, entries, hShown, gather_of_not_all_continue hNotAll]
  simp only [Bool.false_eq_true, if_false, List.length_append]
  congr 2
  omega

/-- The entries behind the one that is broken begin one line further down. -/
theorem Alike.entries_behind {next next' : Text} {rest rest' : List Text} {place : Nat}
    (h : Alike before next rest next' rest') :
    entries (place + 1 + (rest'.length - (gather (before ++ Text.trimStart next) rest).2.length))
        (gather (before ++ Text.trimStart next) rest).2 =
      (entries (place + 1 + (rest.length - (gather (before ++ Text.trimStart next) rest).2.length))
        (gather (before ++ Text.trimStart next) rest).2).map (Prod.map (moved place) id) := by
  have hLength := gather_length (before ++ Text.trimStart next) rest
  rcases h.counted with hNone | hMore
  · rw [hNone, entries_nil, entries_nil, List.map_nil]
  · rw [← entries_succ (by omega)]
    congr 1
    omega

/-- An entry begins in the line behind these, or begins in one of them and goes on through all that
follow. -/
def Inside (number : Nat) (above rest : List Text) : Prop :=
  ∃ first entry, (first, entry) ∈ entries number (above ++ rest) ∧ first ≤ number + above.length ∧
    ∀ line ∈ above.drop (first - number), continues line = true

namespace Inside

variable {rest : List Text}

/-- No entry begins in a line that is skipped. -/
theorem behind_skipped (hSkipped : isSkipped (Text.trimStart line) = true)
    (h : Inside number (line :: above) rest) : Inside (number + 1) above rest := by
  obtain ⟨first, entry, hMem, hFirst, hOn⟩ := h
  rw [List.cons_append, entries_skipped hSkipped] at hMem
  have hBelow := le_of_mem_entries hMem
  rw [List.length_cons] at hFirst
  rw [drop_of_lt hBelow] at hOn
  exact ⟨first, entry, hMem, by omega, hOn⟩

/-- An entry that does not go on up to the lines in question leaves them to another one. -/
theorem behind_left (hShown : isSkipped (Text.trimStart line) = false)
    (hNotAll : ¬ (continues (Text.trimStart line) = true ∧ ∀ next ∈ above, continues next = true))
    (h : Inside number (line :: above) rest) :
    Inside (number + 1 + (above.length - (gather (Text.trimStart line) above).2.length))
      (gather (Text.trimStart line) above).2 rest := by
  have hLeft := gather_length (Text.trimStart line) above
  obtain ⟨first, entry, hMem, hFirst, hOn⟩ := h
  rw [entries_left hShown hNotAll] at hMem
  rcases List.mem_cons.mp hMem with hHere | hLater
  · -- The entry would have to go on in all of the lines.
    cases hHere
    refine absurd ?_ hNotAll
    rw [Nat.sub_self, List.drop_zero] at hOn
    rw [continues_trimStart]
    exact List.forall_mem_cons.mp hOn
  · have hBelow := le_of_mem_entries hLater
    rw [List.length_cons] at hFirst
    refine ⟨first, entry, hLater, by omega, ?_⟩
    -- The lines that are left are the last of those above the place.
    rw [drop_of_suffix (gather_suffix (Text.trimStart line) above)]
    rw [drop_of_lt (by omega)] at hOn
    have hIndex : above.length - (gather (Text.trimStart line) above).2.length + (first -
        (number + 1 + (above.length - (gather (Text.trimStart line) above).2.length))) =
          first - (number + 1) := by
      omega
    rwa [hIndex]

end Inside

theorem entries_broken (hBroken : Broken front old new) (hShown : ∃ c ∈ front, Text.isBlank c = false)
    (hFront : continues front = false) (hInside : Inside number above old) :
    entries number (above ++ new) =
      (entries number (above ++ old)).map (Prod.map (moved (number + above.length)) id) := by
  induction number, above using entries.induct with
  | case1 number =>
      obtain ⟨next, rest, next', rest', rfl, rfl, hAlike⟩ := hBroken.alike hShown hFront continues_nil
      obtain ⟨first, entry, hMem, hFirst, _⟩ := hInside
      have hNext : isSkipped (Text.trimStart next) = false := by
        refine Bool.eq_false_iff.mpr fun hSkipped => ?_
        rw [List.nil_append, entries_skipped hSkipped] at hMem
        have hBelow := le_of_mem_entries hMem
        rw [List.length_nil] at hFirst
        omega
      have hTaken : gather (Text.trimStart next') rest' = gather (Text.trimStart next) rest :=
        hAlike.taken
      have hHead : moved number number = number := if_pos (Nat.le_refl _)
      rw [List.nil_append, List.nil_append, List.length_nil, Nat.add_zero, entries, entries,
        hAlike.skipped, hNext, hTaken]
      simp only [Bool.false_eq_true, if_false, List.map_cons, Prod.map_apply, hHead, id]
      exact congrArg ((number, _) :: ·) hAlike.entries_behind
  | case2 number line above hSkipped ih =>
      rw [List.cons_append, List.cons_append, entries_skipped hSkipped, entries_skipped hSkipped,
        ih (hInside.behind_skipped hSkipped), List.length_cons, Nat.add_right_comm, Nat.add_assoc]
  | case3 number line above hNotSkipped ih =>
      have hLine := Bool.eq_false_iff.mpr hNotSkipped
      have hHead : moved (number + (line :: above).length) number = number :=
        if_pos (Nat.le_add_right _ _)
      by_cases hAll : continues (Text.trimStart line) = true ∧ ∀ next ∈ above, continues next = true
      · obtain ⟨before, hBefore, hTaken⟩ := gather_of_all_continue hAll.1 hAll.2
        obtain ⟨next, rest, next', rest', rfl, rfl, hAlike⟩ := hBroken.alike hShown hFront hBefore
        rw [entries_taken hLine (hTaken next rest), entries_taken hLine (hTaken next' rest'),
          hAlike.taken, hAlike.entries_behind, List.map_cons, Prod.map_apply, hHead, id]
      · have hLeft := gather_length (Text.trimStart line) above
        have hPlace : number + 1 + (above.length - (gather (Text.trimStart line) above).2.length) +
            (gather (Text.trimStart line) above).2.length = number + (line :: above).length := by
          rw [List.length_cons]
          omega
        rw [entries_left hLine hAll, entries_left hLine hAll, List.map_cons, Prod.map_apply, hHead, id,
          ih (hInside.behind_left hLine hAll), hPlace]

/-- Whether a line ends in a carriage return is seen at its end. -/
theorem withoutReturn_append {piece : Text} (h : piece ≠ []) (front : Text) :
    withoutReturn (front ++ piece) = front ++ withoutReturn piece := by
  rw [withoutReturn, withoutReturn, List.getLast?_append_of_ne_nil _ h, List.dropLast_append_of_ne_nil h]
  split <;> rfl

/-- A place that is in a line and not in its ending leaves the ending to what follows. -/
theorem withoutReturn_of_append {piece back : Text}
    (h : withoutReturn (front ++ piece) = front ++ back) : withoutReturn piece = back := by
  by_cases hPiece : piece = []
  · have hLength := congrArg List.length h
    rw [hPiece, List.append_nil, withoutReturn, List.length_append] at hLength
    have hBack : back = [] := by
      rw [← List.length_eq_zero_iff]
      split at hLength
      · rw [List.length_dropLast] at hLength
        omega
      · omega
    rw [hPiece, hBack]
    rfl
  · rw [withoutReturn_append hPiece] at h
    exact List.append_cancel_left h

/-- The line of a place and those behind it, before and after it is broken. -/
theorem broken_lines {back behind gap : Text} (hFront : '\n' ∉ front) (hShown : front ≠ [])
    (hLine : (lines (front ++ behind))[0]? = some (front ++ back))
    (hBack : ∀ c, back.head? = some c → Text.isBlank c = false) (hGap : ∀ c ∈ gap, c = ' ' ∨ c = '\t') :
    Broken front (lines (front ++ behind)) ((front ++ ['\\']) :: lines (gap ++ behind)) := by
  have hBlanks : ∀ c ∈ gap, Text.isBlank c = true := by
    intro c hMem
    rcases hGap c hMem with rfl | rfl <;> rfl
  have hLineFeed : '\n' ∉ gap := fun hMem => by simpa using hGap _ hMem
  have hReturn : '\r' ∉ gap := fun hMem => by simpa using hGap _ hMem
  by_cases hEnded : '\n' ∈ behind
  · obtain ⟨piece, later, rfl, hPiece⟩ := List.eq_append_cons_of_mem hEnded
    have hOld : '\n' ∉ front ++ piece := by simp [hFront, hPiece]
    have hNew : '\n' ∉ gap ++ piece := by simp [hLineFeed, hPiece]
    rw [← List.append_assoc, lines_cons hOld] at hLine
    have hSame : withoutReturn (front ++ piece) = front ++ back := Option.some.inj hLine
    have hGapped : withoutReturn (gap ++ piece) = gap ++ back := by
      rw [← withoutReturn_of_append hSame]
      by_cases hNone : piece = []
      · rw [hNone, List.append_nil, withoutReturn_of_not_mem hReturn]
        exact (List.append_nil _).symm
      · exact withoutReturn_append hNone gap
    rw [← List.append_assoc, ← List.append_assoc, lines_cons hOld, lines_cons hNew, hSame, hGapped]
    exact .between hBlanks hBack
  · have hOld : '\n' ∉ front ++ behind := by simp [hFront, hEnded]
    have hNew : '\n' ∉ gap ++ behind := by simp [hLineFeed, hEnded]
    rw [lines_last hOld (by simp [hShown])] at hLine ⊢
    obtain rfl := List.append_cancel_left (Option.some.inj hLine)
    by_cases hNone : gap ++ behind = []
    · obtain ⟨rfl, rfl⟩ := List.append_eq_nil_iff.mp hNone
      rw [List.append_nil]
      exact .last
    · rw [lines_last hNew hNone]
      exact .between hBlanks hBack

/-- What comes of reading a file after a line of it was broken. -/
structure Unnoticed (path content broken : Text) (number : Nat) : Prop where
  /-- Each entry is still there, at its own line or, behind that line, at the next one. -/
  entries : entries 1 (lines broken) = (entries 1 (lines content)).map (Prod.map (moved number) id)
  /-- A table that was read is read again. -/
  accepted : ∀ table, read path content = .ok table → read path broken = .ok table
  /-- A file that was refused is refused for the same entry and what is wrong with it. -/
  refused : ∀ failure, read path content = .error failure →
    ∃ before line entry after digits,
      PropertyFile.entries 1 (lines content) = before ++ (line, entry) :: after ∧
      failure = .malformedProperty path line digits ∧
      read path broken = .error (.malformedProperty path (moved number line) digits)

theorem unnoticed_of_entries {content broken : Text}
    (h : entries 1 (lines broken) = (entries 1 (lines content)).map (Prod.map (moved number) id))
    (path : Text) : Unnoticed path content broken number where
  entries := h
  accepted table hRead := by
    obtain ⟨pairs, hPairs⟩ := exists_pairs_of_readEntries hRead
    have hMoved : (entries 1 (lines broken)).map (fun entry => readEntry entry.2) = pairs.map .ok := by
      rw [h, List.map_map, ← hPairs]
      rfl
    rw [read, readEntries_of_ok hMoved, ← readEntries_of_ok hPairs]
    exact hRead
  refused failure hRead := by
    obtain ⟨before, line, entry, after, digits, hSplit, hBefore, hEntry, rfl⟩ :=
      exists_unread_of_readEntries hRead
    refine ⟨before, line, entry, after, digits, hSplit, rfl, ?_⟩
    have hMoved : ∀ earlier ∈ before.map (Prod.map (moved number) id),
        ∃ pair, readEntry earlier.2 = .ok pair :=
      List.forall_mem_map.mpr hBefore
    rw [read, h, hSplit, List.map_append, List.map_cons]
    exact readEntries_of_error hMoved hEntry path .empty

namespace Place

variable {place : Place} {ending gap : Text}

/-- The front of the line becomes a line by itself. -/
theorem lines_broken (h : place.Breakable) (hEnding : ending = ['\n'] ∨ ending = ['\r', '\n']) :
    lines (place.broken ending gap) =
      place.above.map withoutReturn ++ (place.front ++ ['\\']) :: lines (gap ++ place.behind) := by
  rw [broken, joined, lines_ended_append h.above]
  obtain ⟨returned, rfl, hReturned, hKept⟩ : ∃ returned, ending = returned ++ ['\n'] ∧
      '\n' ∉ returned ∧ withoutReturn ('\\' :: returned) = ['\\'] := by
    rcases hEnding with rfl | rfl
    · exact ⟨[], rfl, by decide, rfl⟩
    · exact ⟨['\r'], rfl, by decide, rfl⟩
  have hLine : '\n' ∉ place.front ++ '\\' :: returned := by simp [h.front, hReturned]
  have hCut := lines_cons hLine (gap ++ place.behind)
  rw [withoutReturn_append (List.cons_ne_nil _ _), hKept, List.append_assoc] at hCut
  rw [← hCut, List.append_assoc]
  rfl

/-- A line can be broken at any place inside an entry. -/
theorem breaks_unnoticed (h : place.Breakable) (hEnding : ending = ['\n'] ∨ ending = ['\r', '\n'])
    (hGap : ∀ c ∈ gap, c = ' ' ∨ c = '\t') (path : Text) :
    Unnoticed path place.content (place.broken ending gap) place.lineNumber := by
  have hContent : lines place.content =
      place.above.map withoutReturn ++ lines (place.front ++ place.behind) :=
    lines_ended_append h.above _
  obtain ⟨back, hLine, hBack⟩ := h.within
  obtain ⟨first, entry, hMem, hFirst, hOn⟩ := h.inside
  have hSome : place.front ≠ [] := by
    obtain ⟨c, hC, _⟩ := h.shown
    exact List.ne_nil_of_mem hC
  rw [hContent] at hLine hMem
  rw [List.getElem?_append_right (by simp), List.length_map, Nat.sub_self] at hLine
  have hBroken := broken_lines h.front hSome hLine hBack hGap
  have hInside : Inside 1 (place.above.map withoutReturn) (lines (place.front ++ place.behind)) := by
    refine ⟨first, entry, hMem, ?_, ?_⟩
    · rw [lineNumber] at hFirst
      rw [List.length_map]
      omega
    · rw [← List.map_drop]
      exact List.forall_mem_map.mpr hOn
  refine unnoticed_of_entries ?_ path
  rw [lines_broken h hEnding, hContent, entries_broken hBroken h.shown h.closed hInside,
    List.length_map, lineNumber, Nat.add_comm]

/-- A value that goes on in a second line, broken there between the digits of a name. -/
theorem breaks_unnoticed_between_digits :
    let place : Place := ⟨["! note".toList, "k=\\".toList], "  \\u00".toList, "e9\r\nn=1".toList⟩
    let broken := place.broken ['\r', '\n'] ['\t', ' ']
    place.Breakable ∧ (∀ c ∈ ['\t', ' '], c = ' ' ∨ c = '\t') ∧
      Unnoticed ['f'] place.content broken place.lineNumber := by
  intro place broken
  have hBreakable : place.Breakable := by
    refine ⟨by decide, by decide, ⟨'\\', by decide, rfl⟩, rfl, ⟨['e', '9'], rfl, ?_⟩, ?_⟩
    · rintro c ⟨⟩
      rfl
    · refine ⟨2, "k=\\u00e9".toList, ?_, by decide, ?_⟩
      · with_unfolding_all decide
      · decide
  have hGap : ∀ c ∈ ['\t', ' '], c = ' ' ∨ c = '\t' := by simp
  exact ⟨hBreakable, hGap, breaks_unnoticed hBreakable (.inr rfl) hGap ['f']⟩

end Place

end Placeholder.PropertyFile
