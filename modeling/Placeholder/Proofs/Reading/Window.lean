import Placeholder.Proofs.Reading.TextToCome
import Placeholder.Reading.Lookahead
/-!
A marked reader as a window on a text. The window holds the first `limit` characters after the mark;
reading takes them one by one and then shows an end, whether the text ends there or not. Going back
and stepping over some of them leaves the reader right behind those.
-/
namespace Placeholder.Lookahead

/-- The reader was marked in front of `text` and has given `taken` of its characters since. Attempts
to read on behind the end of the text count as well. -/
structure At (l : Lookahead) (text : Text) (taken : Nat) : Prop where
  gives : l.reader.Gives (text.drop taken)
  marked : l.reader.mark? = some ⟨l.limit - taken, (text.take taken).reverse⟩
  inText : taken ≤ text.length
  counted : taken ≤ l.position
  inLimit : l.position ≤ l.limit
  exact : l.position = taken ∨ taken = text.length

/-- What of a text the window shows. -/
def window (l : Lookahead) (text : Text) : Text := text.take l.limit

theorem at_mark {l : Lookahead} {text : Text} (h : l.reader.Gives text) (limit : Nat) :
    (l.mark limit).At text 0 := by
  refine ⟨h.mark limit, ?_, Nat.zero_le _, Nat.le_refl _, Nat.zero_le _, Or.inl rfl⟩
  rw [mark, TextReader.mark, Nat.sub_zero, List.take_zero, List.reverse_nil]

theorem At.le_window {l : Lookahead} {text : Text} {taken : Nat} (h : l.At text taken) :
    taken ≤ (l.window text).length := by
  have hText := h.inText
  have hCounted := h.counted
  have hLimit := h.inLimit
  rw [window, List.length_take]
  omega

theorem At.le_limit {l : Lookahead} {text : Text} {taken : Nat} (h : l.At text taken) :
    taken ≤ l.limit :=
  Nat.le_trans h.counted h.inLimit

/-- What was given so far is the beginning of the text. -/
theorem At.window_take {l : Lookahead} {text : Text} {taken : Nat} (h : l.At text taken) :
    (l.window text).take taken = text.take taken := by
  rw [window, List.take_take, Nat.min_eq_left h.le_limit]

/-- A character that the window shows is read and kept for the way back. -/
theorem At.read_cons {l : Lookahead} {text : Text} {taken : Nat} {c : Char} {rest : Text}
    (h : l.At text taken) (hNext : (l.window text).drop taken = c :: rest) :
    ∃ after : Lookahead, l.read = (.ok (some c), after) ∧ after.At text (taken + 1) ∧
      after.limit = l.limit := by
  have hLength := congrArg List.length hNext
  simp only [window, List.length_drop, List.length_take, List.length_cons] at hLength
  have hPosition : l.position = taken := by
    rcases h.exact with hEq | hEnd
    · exact hEq
    · omega
  have hDrop : ∃ more, text.drop taken = c :: more := by
    rw [window, List.drop_take] at hNext
    cases hText : text.drop taken with
    | nil => rw [hText, List.take_nil] at hNext; cases hNext
    | cons d more =>
        rw [hText, List.take_cons (by omega)] at hNext
        exact ⟨more, by rw [(List.cons.inj hNext).1]⟩
  obtain ⟨more, hMore⟩ := hDrop
  have hGives := h.gives
  rw [hMore] at hGives
  obtain ⟨reader, hRead, hAfter, hMark⟩ := TextReader.read_cons hGives
  have hTail : text.drop (taken + 1) = more := by
    rw [← List.drop_drop, hMore, List.drop_one, List.tail_cons]
  have hTake : text.take (taken + 1) = text.take taken ++ [c] := by
    have hGet : text[taken]? = some c := by
      rw [← List.head?_drop, hMore, List.head?_cons]
    rw [List.take_add_one, hGet, Option.toList_some]
  refine ⟨⟨reader, l.position + 1, l.limit⟩, ?_, ⟨?_, ?_, ?_, ?_, ?_, ?_⟩, rfl⟩
  · rw [read, if_neg (by omega), hRead]
  · rwa [hTail]
  · show reader.mark? = _
    obtain ⟨allowance, hAllowance⟩ : ∃ n, l.limit - taken = n + 1 := ⟨l.limit - taken - 1, by omega⟩
    rw [hMark, h.marked, hAllowance, TextReader.markAfter, hTake, List.reverse_append]
    have hLeft : allowance = l.limit - (taken + 1) := by omega
    rw [hLeft]
    rfl
  · omega
  · show taken + 1 ≤ l.position + 1
    omega
  · show l.position + 1 ≤ l.limit
    omega
  · exact Or.inl (by rw [hPosition])

/-- Behind the last character of the window there is nothing, and nothing changes. -/
theorem At.read_nil {l : Lookahead} {text : Text} {taken : Nat} (h : l.At text taken)
    (hNext : (l.window text).drop taken = []) :
    ∃ after : Lookahead, l.read = (.ok none, after) ∧ after.At text taken ∧
      after.limit = l.limit := by
  by_cases hUsed : l.limit ≤ l.position
  · exact ⟨l, by rw [read, if_pos hUsed], h, rfl⟩
  · have hShort := List.drop_eq_nil_iff.mp hNext
    rw [window, List.length_take] at hShort
    have hText := h.inText
    have hCounted := h.counted
    have hEnd : taken = text.length := by omega
    have hGives := h.gives
    rw [hEnd, List.drop_length] at hGives
    obtain ⟨reader, hRead, hAfter, hMark⟩ := TextReader.read_nil hGives
    refine ⟨⟨reader, l.position + 1, l.limit⟩, ?_, ⟨?_, ?_, ?_, ?_, ?_, Or.inr hEnd⟩, rfl⟩
    · rw [read, if_neg hUsed, hRead]
    · rwa [hEnd, List.drop_length]
    · exact hMark.trans h.marked
    · exact hText
    · show taken ≤ l.position + 1
      omega
    · show l.position + 1 ≤ l.limit
      omega

theorem At.fillBy {l : Lookahead} {text : Text} {taken : Nat} (h : l.At text taken) (n : Nat)
    (seen : Text) :
    ∃ after : Lookahead, l.fillBy n seen = (.ok (seen ++ ((l.window text).drop taken).take n), after) ∧
      after.At text (min (taken + n) (l.window text).length) ∧ after.limit = l.limit := by
  induction n generalizing l taken seen with
  | zero =>
      refine ⟨l, by simp [Lookahead.fillBy], ?_, rfl⟩
      rwa [Nat.add_zero, Nat.min_eq_left h.le_window]
  | succ n ih =>
      cases hNext : (l.window text).drop taken with
      | nil =>
          obtain ⟨after, hRead, hAt, hLimit⟩ := h.read_nil hNext
          have hShort := List.drop_eq_nil_iff.mp hNext
          have hEnd : min (taken + (n + 1)) (l.window text).length = taken := by
            have hLe := h.le_window
            omega
          refine ⟨after, ?_, by rwa [hEnd], hLimit⟩
          rw [Lookahead.fillBy, hRead]
          simp
      | cons c rest =>
          obtain ⟨next, hRead, hAt, hLimit⟩ := h.read_cons hNext
          have hWindow : next.window text = l.window text := by rw [window, window, hLimit]
          have hRest : (next.window text).drop (taken + 1) = rest := by
            rw [hWindow, ← List.drop_drop, hNext, List.drop_one, List.tail_cons]
          obtain ⟨after, hFill, hAfter, hLimit'⟩ := ih hAt (seen ++ [c])
          refine ⟨after, ?_, ?_, hLimit'.trans hLimit⟩
          · rw [Lookahead.fillBy, hRead]
            simp only [hFill, hRest, List.take_succ_cons, List.append_assoc, List.singleton_append]
          · rw [hWindow] at hAfter
            rwa [Nat.add_right_comm] at hAfter

/-- Filling shows more of the text, as far as the window goes. -/
theorem At.fill {l : Lookahead} {text : Text} {taken : Nat} (h : l.At text taken) (n : Nat) :
    ∃ (after : Lookahead) (shown : Nat),
      l.fill (text.take taken) n = (.ok (text.take shown), after) ∧ after.At text shown ∧
      after.limit = l.limit ∧ shown = min (max taken n) (min l.limit text.length) := by
  have hLe := h.le_window
  obtain ⟨after, hFill, hAt, hLimit⟩ := h.fillBy (n - taken) (text.take taken)
  have hShown : min (taken + (n - taken)) (l.window text).length =
      min (max taken n) (min l.limit text.length) := by
    rw [window, List.length_take]
    omega
  refine ⟨after, _, ?_, hAt, hLimit, hShown⟩
  rw [Lookahead.fill, List.length_take, Nat.min_eq_left h.inText, hFill, ← h.window_take,
    ← List.take_add, hAt.window_take.symm, window, window, hLimit, ← List.take_eq_take_min]

theorem At.skip {l : Lookahead} {text : Text} {taken : Nat} (h : l.At text taken) (n : Nat)
    (hFits : taken + n ≤ (l.window text).length) :
    ∃ after : Lookahead, l.skip n = (.ok (), after) ∧ after.At text (taken + n) := by
  induction n generalizing l taken with
  | zero => exact ⟨l, rfl, h⟩
  | succ n ih =>
      cases hNext : (l.window text).drop taken with
      | nil =>
          have hShort := List.drop_eq_nil_iff.mp hNext
          omega
      | cons c rest =>
          obtain ⟨next, hRead, hAt, hLimit⟩ := h.read_cons hNext
          have hWindow : next.window text = l.window text := by rw [window, window, hLimit]
          obtain ⟨after, hSkip, hAfter⟩ := ih hAt (by rw [hWindow]; omega)
          refine ⟨after, ?_, by rwa [Nat.add_right_comm] at hAfter⟩
          rw [Lookahead.skip, hRead]
          exact hSkip

/-- Going back leads to the front of the text. -/
theorem At.reset {l : Lookahead} {text : Text} {taken : Nat} (h : l.At text taken) :
    ∃ after : Lookahead, l.reset = (.ok (), after) ∧ after.At text 0 ∧ after.limit = l.limit := by
  obtain ⟨reader, hReset, hGives, hMark⟩ := TextReader.reset_marked h.gives h.marked
  have hCounted := h.counted
  have hLimit := h.inLimit
  refine ⟨⟨reader, 0, l.limit⟩, by rw [Lookahead.reset, hReset], ?_, rfl⟩
  refine ⟨?_, ?_, Nat.zero_le _, Nat.le_refl _, Nat.zero_le _, Or.inl rfl⟩
  · rwa [List.reverse_reverse, List.take_append_drop] at hGives
  · show reader.mark? = _
    have hWhole : l.limit - taken + taken = l.limit := by omega
    rw [hMark, List.length_reverse, List.length_take, Nat.min_eq_left h.inText, hWhole]
    simp

/-- Going back and stepping over the first `n` characters leaves the rest of the text to come. -/
theorem At.consume {l : Lookahead} {text : Text} {taken : Nat} (h : l.At text taken) (n : Nat)
    (hFits : n ≤ (l.window text).length) :
    ∃ after : Lookahead, l.consume n = (.ok (), after) ∧ after.reader.Gives (text.drop n) := by
  obtain ⟨back, hReset, hBack, hLimit⟩ := h.reset
  have hWindow : back.window text = l.window text := by rw [window, window, hLimit]
  obtain ⟨after, hSkip, hAt⟩ := hBack.skip n (by rwa [hWindow, Nat.zero_add])
  refine ⟨after, ?_, by simpa using hAt.gives⟩
  simp only [Lookahead.consume, hReset, hSkip]

end Placeholder.Lookahead
