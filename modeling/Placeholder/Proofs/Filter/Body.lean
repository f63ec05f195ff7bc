import Placeholder.Filter.Sight
import Placeholder.Proofs.Reading.Window
import Placeholder.Proofs.Text.Search
/-!
How the body of a placeholder is followed to its closing token. The characters come one at a time,
some from the window and some from the input, and each time the end of what was seen is compared
with the token; that finds the first closing token of the text.
-/
namespace Placeholder.Sight

/-- Follows a body through a text. Answers the body up to its closing token, the latest character
first. -/
def track (multiLine : Bool) (closing : Text) : Text → Text → Option Text
  | _, [] => none
  | seen, c :: rest =>
    match judge multiLine closing seen c with
    | .broken => none
    | .closed => some (c :: seen)
    | .further => track multiLine closing (c :: seen) rest

variable {multiLine : Bool} {closing : Text}

/-- A body that was read backwards, up to its closing token. -/
theorem reverse_drop_body (expression closing : Text) :
    ((expression ++ closing).reverse.drop closing.length).reverse = expression := by
  rw [List.reverse_append, ← closing.length_reverse, List.drop_left, List.reverse_reverse]

/-- The characters in the window come first, then those behind them. -/
theorem track_append (seen front back : Text) :
    track multiLine closing seen (front ++ back) =
      match followWindow multiLine closing seen front with
      | none => none
      | some (.inl body) => some body
      | some (.inr further) => track multiLine closing further back := by
  induction front generalizing seen with
  | nil => rfl
  | cons c front ih =>
      rw [List.cons_append, track, followWindow]
      cases judge multiLine closing seen c with
      | broken => rfl
      | closed => rfl
      | further => exact ih (c :: seen)

theorem followInput_eq {l : Lookahead} {text : Text} {taken : Nat} (h : l.At text taken) (n : Nat)
    (seen : Text) (hEnough : ((l.window text).drop taken).length ≤ n) :
    ∃ (after : Lookahead) (shown : Nat),
      followInput multiLine closing n seen l =
        (.ok (track multiLine closing seen ((l.window text).drop taken)), after) ∧
      after.At text shown ∧ after.limit = l.limit := by
  induction n generalizing l taken seen with
  | zero =>
      have hNil := List.length_eq_zero_iff.mp (Nat.le_zero.mp hEnough)
      exact ⟨l, taken, by rw [hNil]; rfl, h, rfl⟩
  | succ n ih =>
      cases hNext : (l.window text).drop taken with
      | nil =>
          obtain ⟨after, hRead, hAt, hLimit⟩ := h.read_nil hNext
          exact ⟨after, taken, by simp only [followInput, hRead, track], hAt, hLimit⟩
      | cons c rest =>
          obtain ⟨next, hRead, hAt, hLimit⟩ := h.read_cons hNext
          have hWindow : next.window text = l.window text := by
            rw [Lookahead.window, Lookahead.window, hLimit]
          have hRest : (next.window text).drop (taken + 1) = rest := by
            rw [hWindow, ← List.drop_drop, hNext, List.drop_one, List.tail_cons]
          cases hJudge : judge multiLine closing seen c with
          | broken =>
              exact ⟨next, taken + 1, by simp only [followInput, hRead, track, hJudge], hAt, hLimit⟩
          | closed =>
              exact ⟨next, taken + 1, by simp only [followInput, hRead, track, hJudge], hAt, hLimit⟩
          | further =>
              rw [hNext, List.length_cons] at hEnough
              obtain ⟨after, shown, hFollow, hAfter, hLimit'⟩ :=
                ih hAt (c :: seen) (by rw [hRest]; omega)
              refine ⟨after, shown, ?_, hAfter, hLimit'.trans hLimit⟩
              rw [hRest] at hFollow
              simp only [followInput, hRead, track, hJudge, hFollow]

/-- Following the rest of a window whose front was read already. -/
theorem followBody_eq (multiLine : Bool) (closing : Text) {l : Lookahead} {text : Text}
    {taken : Nat} (h : l.At text taken) (from_ : Nat) (hFrom : from_ ≤ taken) :
    ∃ (after : Lookahead) (shown : Nat),
      followBody multiLine closing ((text.take taken).drop from_) l =
        (.ok (track multiLine closing [] ((l.window text).drop from_)), after) ∧
      after.At text shown ∧ after.limit = l.limit := by
  have hSplit : (l.window text).drop from_ =
      ((l.window text).take taken).drop from_ ++ (l.window text).drop taken := by
    have hFront : from_ ≤ ((l.window text).take taken).length := by
      rw [List.length_take, Nat.min_eq_left h.le_window]
      exact hFrom
    rw [← List.drop_append_of_le_length hFront, List.take_append_drop]
  rw [← h.window_take, hSplit, track_append, followBody]
  cases followWindow multiLine closing [] (((l.window text).take taken).drop from_) with
  | none => exact ⟨l, taken, rfl, h, rfl⟩
  | some found =>
      cases found with
      | inl body => exact ⟨l, taken, rfl, h, rfl⟩
      | inr seen =>
          refine followInput_eq h _ seen ?_
          -- The allowance that is left covers the window, unless the text itself has ended.
          have hInText := h.inText
          have hCounted := h.counted
          rw [Lookahead.window, List.length_drop, List.length_take]
          rcases h.exact with hEq | hEnd <;> omega

/-- An occurrence of a token that is not in what was seen ends behind the next character. -/
theorem exists_of_append_eq {token seen before after rest : Text} {c : Char}
    (hSeen : ∀ b a, seen.reverse ≠ b ++ token ++ a)
    (h : seen.reverse ++ c :: rest = before ++ token ++ after) :
    ∃ more, before ++ token = seen.reverse ++ c :: more ∧ rest = more ++ after := by
  rcases List.append_eq_append_iff.mp h with ⟨more, hFront, hBack⟩ | ⟨more, hFront, _⟩
  · cases more with
    | nil => exact absurd (by simpa using hFront.symm) (hSeen before [])
    | cons d more =>
        obtain ⟨rfl, hRest⟩ := List.cons.inj hBack
        exact ⟨more, hFront, hRest⟩
  · exact absurd hFront (hSeen before more)

theorem not_broken_iff {c : Char} :
    (c = '\n' && !multiLine) = false ↔ multiLine = true ∨ c ≠ '\n' := by
  cases multiLine <;> simp

/-- Following a body finds the first closing token, provided that no line ends on the way. -/
theorem track_eq_breakOn (hClosing : closing ≠ []) (text seen : Text)
    (hSeen : ∀ b a, seen.reverse ≠ b ++ closing ++ a)
    (hLine : multiLine = true ∨ '\n' ∉ seen) :
    track multiLine closing seen text =
      (Text.breakOn closing (seen.reverse ++ text)).bind fun cut =>
        if multiLine || !(cut.1 ++ closing).contains '\n' then some (cut.1 ++ closing).reverse
        else none := by
  induction text generalizing seen with
  | nil =>
      rw [List.append_nil, Text.breakOn_eq_none_of_forall_ne hSeen]
      rfl
  | cons c rest ih =>
      rw [track, judge]
      by_cases hBroken : (c = '\n' && !multiLine) = true
      · rw [if_pos hBroken]
        simp only [Bool.and_eq_true, decide_eq_true_eq, Bool.not_eq_true'] at hBroken
        obtain ⟨rfl, hSingle⟩ := hBroken
        cases hCut : Text.breakOn closing (seen.reverse ++ '\n' :: rest) with
        | none => rfl
        | some cut =>
            obtain ⟨more, hFront, _⟩ :=
              exists_of_append_eq hSeen (Text.eq_append_of_breakOn hCut)
            simp only [Option.bind_some, hFront, hSingle]
            simp
      · rw [if_neg hBroken]
        have hLine' : multiLine = true ∨ '\n' ∉ c :: seen := by
          rcases not_broken_iff.mp (Bool.not_eq_true _ ▸ hBroken) with hMulti | hChar
          · exact Or.inl hMulti
          · exact hLine.imp id fun hIn hMem =>
              (List.mem_cons.mp hMem).elim (fun hEq => hChar hEq.symm) hIn
        by_cases hClosed : closing.reverse.isPrefixOf (c :: seen) = true
        · rw [if_pos hClosed]
          obtain ⟨back, hBack⟩ := List.isPrefixOf_iff_prefix.mp hClosed
          have hWhole : seen.reverse ++ [c] = back.reverse ++ closing := by
            rw [← List.reverse_cons, ← hBack, List.reverse_append, List.reverse_reverse]
          have hText : seen.reverse ++ c :: rest = back.reverse ++ closing ++ rest := by
            rw [← hWhole, List.append_assoc, List.singleton_append]
          have hCut : Text.breakOn closing (seen.reverse ++ c :: rest) =
              some (back.reverse, rest) := by
            refine Text.breakOn_eq_some_of_first hClosing hText fun b a hSplit => ?_
            obtain ⟨more, hFront, _⟩ := exists_of_append_eq hSeen hSplit
            have hLength := congrArg List.length hFront
            have hWholeLength := congrArg List.length hWhole
            simp only [List.length_append, List.length_cons, List.length_nil] at hLength hWholeLength
            omega
          have hUnbroken : (multiLine || !(back.reverse ++ closing).contains '\n') = true := by
            rw [← hWhole]
            rcases hLine' with hMulti | hNone
            · simp [hMulti]
            · simp only [List.mem_cons, not_or] at hNone
              simp [hNone.1, hNone.2]
          rw [hCut, Option.bind_some, if_pos hUnbroken, ← hWhole, ← List.reverse_cons,
            List.reverse_reverse]
        · rw [if_neg hClosed]
          have hSeen' : ∀ b a, (c :: seen).reverse ≠ b ++ closing ++ a := by
            intro b a hSplit
            rw [List.reverse_cons] at hSplit
            obtain ⟨more, hFront, hRest⟩ := exists_of_append_eq hSeen hSplit
            obtain ⟨rfl, rfl⟩ := List.append_eq_nil_iff.mp hRest.symm
            refine hClosed (List.isPrefixOf_iff_prefix.mpr ⟨b.reverse, ?_⟩)
            rw [← List.reverse_append, hFront, List.reverse_append, List.reverse_reverse]
            rfl
          have hShift : seen.reverse ++ c :: rest = (c :: seen).reverse ++ rest := by simp
          rw [hShift]
          exact ih (c :: seen) hSeen' hLine'

end Placeholder.Sight
