import Placeholder.Proofs.Reading.Course
/-!
Looking ahead on any feed. The reader has a course, a text and how that text stops; a window of it is
looked at from a mark. What a look finds is told by the characters in the window and by the failure,
if there is one, that cuts the window off.
-/
namespace Placeholder.Lookahead

/-- The reader was marked in front of `text`, which stops like this, and has given `taken` of its
characters since. Attempts to read on behind the end of the text count as well. -/
structure Amid (l : Lookahead) (text : Text) (stop : Option Failure) (taken : Nat) : Prop where
  course : l.reader.Course (text.drop taken) stop
  marked : l.reader.mark? = some ⟨l.limit - taken, (text.take taken).reverse⟩
  inText : taken ≤ text.length
  counted : taken ≤ l.position
  inLimit : l.position ≤ l.limit
  exact : l.position = taken ∨ taken = text.length ∧ stop = none

/-- The failure that keeps a window of this many characters from being seen as a whole. -/
def cutOff (limit : Nat) (text : Text) (stop : Option Failure) : Option Failure :=
  if text.length < limit then stop else none

/-- The failure that is met before so many characters of a window are seen. -/
def shortOf (cut : Option Failure) (window : Text) (length : Nat) : Option Failure :=
  if window.length < length then cut else none

variable {l : Lookahead} {text : Text} {stop : Option Failure} {taken : Nat}

theorem amid_mark (h : l.reader.Course text stop) (limit : Nat) :
    (l.mark limit).Amid text stop 0 := by
  refine ⟨h.marked _, ?_, Nat.zero_le _, Nat.le_refl _, Nat.zero_le _, Or.inl rfl⟩
  rw [mark, TextReader.mark, Nat.sub_zero, List.take_zero, List.reverse_nil]

theorem Amid.le_limit (h : l.Amid text stop taken) : taken ≤ l.limit :=
  Nat.le_trans h.counted h.inLimit

theorem Amid.le_window (h : l.Amid text stop taken) : taken ≤ (text.take l.limit).length := by
  have hText := h.inText
  have hLimit := h.le_limit
  rw [List.length_take]
  omega

/-- The next character that a window shows is the next one of the text. -/
theorem shown_of_drop {limit : Nat} {c : Char} {rest : Text}
    (hNext : (text.take limit).drop taken = c :: rest) :
    text.drop taken = c :: text.drop (taken + 1) ∧ text.take (taken + 1) = text.take taken ++ [c] ∧
      (text.take limit).drop (taken + 1) = rest ∧ taken < limit ∧ taken < text.length := by
  have hLength := congrArg List.length hNext
  simp only [List.length_drop, List.length_take, List.length_cons] at hLength
  have hShown : (text.take limit)[taken]? = some c := by
    rw [← List.head?_drop, hNext, List.head?_cons]
  have hGet : text[taken]? = some c := by
    rwa [List.getElem?_take_of_lt (by omega)] at hShown
  refine ⟨?_, ?_, ?_, by omega, by omega⟩
  · obtain ⟨hLess, rfl⟩ := List.getElem?_eq_some_iff.mp hGet
    exact List.drop_eq_getElem_cons hLess
  · rw [List.take_add_one, hGet, Option.toList_some]
  · rw [← List.drop_drop, hNext, List.drop_one, List.tail_cons]

/-- A character that the window shows is read and kept for the way back. -/
theorem Amid.read_cons {c : Char} {rest : Text} (h : l.Amid text stop taken)
    (hNext : (text.take l.limit).drop taken = c :: rest) :
    ∃ after : Lookahead, l.read = (.ok (some c), after) ∧ after.Amid text stop (taken + 1) ∧
      after.limit = l.limit := by
  obtain ⟨hDrop, hTake, _, hLess, hInText⟩ := shown_of_drop hNext
  have hPosition : l.position = taken := by
    rcases h.exact with hEq | hEnd <;> omega
  have hCourse := h.course
  rw [hDrop] at hCourse
  obtain ⟨reader, hRead, hAfter, hMark⟩ := hCourse.read_cons
  refine ⟨⟨reader, l.position + 1, l.limit⟩, ?_, ⟨hAfter, ?_, hInText, ?_, ?_, ?_⟩, rfl⟩
  · rw [read, if_neg (by omega), hRead]
  · show reader.mark? = _
    obtain ⟨allowance, hAllowance⟩ : ∃ n, l.limit - taken = n + 1 := ⟨l.limit - taken - 1, by omega⟩
    rw [hMark, h.marked, hAllowance, TextReader.markAfter, hTake, List.reverse_append]
    have hLeft : allowance = l.limit - (taken + 1) := by omega
    rw [hLeft]
    rfl
  · show taken + 1 ≤ l.position + 1
    omega
  · show l.position + 1 ≤ l.limit
    omega
  · exact Or.inl (by rw [hPosition])

/-- Behind the last character of the window there is nothing, and nothing changes; or the failure is
met that cuts the window off. -/
theorem Amid.read_nil (h : l.Amid text stop taken)
    (hNext : (text.take l.limit).drop taken = []) :
    match cutOff l.limit text stop with
    | some failure => ∃ after, l.read = (.error failure, after)
    | none => ∃ after : Lookahead, l.read = (.ok none, after) ∧ after.Amid text stop taken ∧
        after.limit = l.limit := by
  have hShort := List.drop_eq_nil_iff.mp hNext
  rw [List.length_take] at hShort
  have hText := h.inText
  have hCounted := h.counted
  by_cases hUsed : l.limit ≤ l.position
  · have hWhole : cutOff l.limit text stop = none := by
      rcases h.exact with hEq | ⟨_, rfl⟩
      · rw [cutOff, if_neg (by omega)]
      · rw [cutOff, ite_self]
    rw [hWhole]
    exact ⟨l, by rw [read, if_pos hUsed], h, rfl⟩
  · have hEnd : taken = text.length := by omega
    have hCourse := h.course
    rw [hEnd, List.drop_length] at hCourse
    rw [cutOff, if_pos (by omega)]
    cases stop with
    | some failure =>
        obtain ⟨reader, hRead⟩ := hCourse.read_failed
        exact ⟨_, by rw [read, if_neg hUsed, hRead]⟩
    | none =>
        obtain ⟨reader, hRead, hAfter, hMark⟩ := hCourse.read_ended
        refine ⟨⟨reader, l.position + 1, l.limit⟩, ?_, ⟨?_, ?_, ?_, ?_, ?_, Or.inr ⟨hEnd, rfl⟩⟩, rfl⟩
        · rw [read, if_neg hUsed, hRead]
        · rwa [hEnd, List.drop_length]
        · exact hMark.trans h.marked
        · exact hText
        · show taken ≤ l.position + 1
          omega
        · show l.position + 1 ≤ l.limit
          omega

/-- What filling a window further can do: it shows more of the text, or meets the failure that cuts
the window off. -/
def Fills (text : Text) (stop : Option Failure) (limit taken length : Nat)
    (filled : Except Failure Text × Lookahead) : Prop :=
  match shortOf (cutOff limit text stop) (text.take limit) length with
  | some failure => ∃ after, filled = (.error failure, after)
  | none => ∃ (after : Lookahead) (shown : Nat), filled = (.ok (text.take shown), after) ∧
      after.Amid text stop shown ∧ after.limit = limit ∧
      shown = min (max taken length) (min limit text.length)

theorem Amid.fillBy (h : l.Amid text stop taken) (n : Nat) :
    Fills text stop l.limit taken (taken + n) (l.fillBy n (text.take taken)) := by
  induction n generalizing l taken with
  | zero =>
      have hLe := h.le_window
      rw [Fills, shortOf, if_neg (by omega)]
      refine ⟨l, taken, rfl, h, rfl, ?_⟩
      rw [List.length_take] at hLe
      omega
  | succ n ih =>
      rw [Lookahead.fillBy]
      cases hNext : (text.take l.limit).drop taken with
      | nil =>
          have hReads := h.read_nil hNext
          have hShort := List.drop_eq_nil_iff.mp hNext
          rw [Fills, shortOf, if_pos (by omega)]
          cases hCut : cutOff l.limit text stop with
          | some failure =>
              simp only [hCut] at hReads ⊢
              obtain ⟨after, hRead⟩ := hReads
              exact ⟨after, by rw [hRead]⟩
          | none =>
              simp only [hCut] at hReads ⊢
              obtain ⟨after, hRead, hAmid, hLimit⟩ := hReads
              have hLe := h.le_window
              rw [List.length_take] at hShort hLe
              exact ⟨after, taken, by rw [hRead], hAmid, hLimit, by omega⟩
      | cons c rest =>
          obtain ⟨next, hRead, hAmid, hLimit⟩ := h.read_cons hNext
          have hFills := ih hAmid
          have hCount : taken + 1 + n = taken + (n + 1) := by omega
          rw [(shown_of_drop hNext).2.1, hLimit, hCount] at hFills
          rw [hRead]
          simp only [Fills] at hFills ⊢
          split at hFills
          · exact hFills
          · obtain ⟨after, shown, hFill, hAfter, hSame, hShown⟩ := hFills
            exact ⟨after, shown, hFill, hAfter, hSame, by omega⟩

/-- Filling shows more of the text, as far as the window goes. -/
theorem Amid.fill (h : l.Amid text stop taken) (length : Nat) :
    Fills text stop l.limit taken length (l.fill (text.take taken) length) := by
  have hFills := h.fillBy (length - taken)
  have hLe := h.le_window
  have hTaken : (text.take taken).length = taken := by
    rw [List.length_take, Nat.min_eq_left h.inText]
  rw [Lookahead.fill, hTaken]
  by_cases hMore : taken ≤ length
  · rwa [Nat.add_sub_cancel' hMore] at hFills
  · have hNone : length - taken = 0 := by omega
    rw [hNone] at hFills ⊢
    simp only [Fills, shortOf] at hFills ⊢
    rw [if_neg (by omega)] at hFills ⊢
    obtain ⟨after, shown, hFill, hAfter, hSame, hShown⟩ := hFills
    exact ⟨after, shown, hFill, hAfter, hSame, by omega⟩

theorem Amid.skip (h : l.Amid text stop taken) (n : Nat)
    (hFits : taken + n ≤ (text.take l.limit).length) :
    ∃ after : Lookahead, l.skip n = (.ok (), after) ∧ after.Amid text stop (taken + n) := by
  induction n generalizing l taken with
  | zero => exact ⟨l, rfl, h⟩
  | succ n ih =>
      cases hNext : (text.take l.limit).drop taken with
      | nil =>
          have hShort := List.drop_eq_nil_iff.mp hNext
          omega
      | cons c rest =>
          obtain ⟨next, hRead, hAmid, hLimit⟩ := h.read_cons hNext
          obtain ⟨after, hSkip, hAfter⟩ := ih hAmid (by rw [hLimit]; omega)
          refine ⟨after, ?_, by rwa [Nat.add_right_comm] at hAfter⟩
          rw [Lookahead.skip, hRead]
          exact hSkip

/-- Going back and stepping over the first `n` characters leaves the rest of the text to come. -/
theorem Amid.consume (h : l.Amid text stop taken) (n : Nat)
    (hFits : n ≤ (text.take l.limit).length) :
    ∃ after : Lookahead, l.consume n = (.ok (), after) ∧
      after.reader.Course (text.drop n) stop := by
  obtain ⟨reader, hReset, hCourse, hMark⟩ := h.course.reset h.marked
  have hLimit := h.le_limit
  have hBack : (⟨reader, 0, l.limit⟩ : Lookahead).Amid text stop 0 := by
    refine ⟨?_, ?_, Nat.zero_le _, Nat.le_refl _, Nat.zero_le _, Or.inl rfl⟩
    · rwa [List.reverse_reverse, List.take_append_drop] at hCourse
    · show reader.mark? = _
      have hWhole : l.limit - taken + taken = l.limit := by omega
      rw [hMark, List.length_reverse, List.length_take, Nat.min_eq_left h.inText, hWhole]
      simp
  obtain ⟨after, hSkip, hAmid⟩ := hBack.skip n (by simpa using hFits)
  refine ⟨after, ?_, by simpa using hAmid.course⟩
  simp only [Lookahead.consume, Lookahead.reset, hReset, hSkip]

end Placeholder.Lookahead
