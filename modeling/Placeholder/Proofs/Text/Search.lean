import Placeholder.Text
/-!
The first occurrence of a token. `breakOn` finds an occurrence when there is one, and none stands
further left; in a window cut from the text it finds the same one, provided that it fits. A text is cut
into pieces at every occurrence of a separator.
-/
namespace Placeholder.Text

theorem isPrefixOf?_eq_none_iff {token text : Text} :
    token.isPrefixOf? text = none ↔ ¬ token <+: text := by
  rw [Option.eq_none_iff_forall_ne_some]
  constructor
  · rintro h ⟨after, rfl⟩
    exact h after (isPrefixOf?_append token after)
  · intro h after hSome
    exact h ⟨after, (eq_append_of_isPrefixOf? hSome).symm⟩

/-- No occurrence stands further left than the one that `breakOn` finds. -/
theorem length_le_of_breakOn {token text before after b a : Text}
    (h : breakOn token text = some (before, after)) (hSplit : text = b ++ token ++ a) :
    before.length ≤ b.length := by
  induction text generalizing before b with
  | nil => cases h
  | cons c rest ih =>
      simp only [breakOn] at h
      split at h
      · cases h
        exact Nat.zero_le _
      · rename_i hNone
        obtain ⟨cut, hCut, hEq⟩ := Option.map_eq_some_iff.mp h
        cases hEq
        cases b with
        | nil => exact absurd ⟨a, by simpa using hSplit.symm⟩ (isPrefixOf?_eq_none_iff.mp hNone)
        | cons d b =>
            have hRest : rest = b ++ token ++ a := by simpa using (List.cons.inj hSplit).2
            exact Nat.succ_le_succ (ih hCut hRest)

theorem ne_append_of_breakOn_none {token text : Text} (h : breakOn token text = none)
    (hToken : token ≠ []) (b a : Text) : text ≠ b ++ token ++ a := by
  induction text generalizing b with
  | nil => simp [hToken]
  | cons c rest ih =>
      simp only [breakOn] at h
      split at h
      · cases h
      · rename_i hNone
        have hRest := ih (Option.map_eq_none_iff.mp h)
        intro hSplit
        cases b with
        | nil => exact isPrefixOf?_eq_none_iff.mp hNone ⟨a, by simpa using hSplit.symm⟩
        | cons d b => exact hRest b (by simpa using (List.cons.inj hSplit).2)

/-- A token is found exactly where it stands somewhere in the text. -/
theorem occursIn_iff {token text : Text} (hToken : token ≠ []) :
    occursIn token text = true ↔ token <:+: text := by
  rw [occursIn]
  constructor
  · intro hFound
    obtain ⟨cut, hCut⟩ := Option.isSome_iff_exists.mp hFound
    exact ⟨cut.1, cut.2, (eq_append_of_breakOn hCut).symm⟩
  · rintro ⟨before, after, hText⟩
    cases hCut : breakOn token text with
    | some cut => rfl
    | none => exact absurd hText.symm (ne_append_of_breakOn_none hCut hToken before after)

/-- An occurrence left of which there is none is the one that `breakOn` finds. -/
theorem breakOn_eq_some_of_first {token text before after : Text} (hToken : token ≠ [])
    (h : text = before ++ token ++ after)
    (hFirst : ∀ b a, text = b ++ token ++ a → before.length ≤ b.length) :
    breakOn token text = some (before, after) := by
  cases hCut : breakOn token text with
  | none => exact absurd h (ne_append_of_breakOn_none hCut hToken before after)
  | some cut =>
      obtain ⟨b, a⟩ := cut
      have hSplit := eq_append_of_breakOn hCut
      have hLength : b.length = before.length :=
        Nat.le_antisymm (length_le_of_breakOn hCut h) (hFirst b a hSplit)
      rw [hSplit, List.append_assoc, List.append_assoc] at h
      obtain ⟨rfl, hRest⟩ := List.append_inj h hLength
      rw [List.append_cancel_left hRest]

/-- A token is found behind a text that does not contain its first character. -/
theorem breakOn_behind {c : Char} {before : Text} (h : c ∉ before) (token after : Text) :
    breakOn (c :: token) (before ++ c :: token ++ after) = some (before, after) := by
  refine breakOn_eq_some_of_first (List.cons_ne_nil _ _) rfl fun b a hSplit => ?_
  refine Nat.le_of_not_lt fun hShorter => ?_
  have hPrefix : b ++ [c] <+: before := by
    have hFront : b ++ [c] <+: before ++ c :: token ++ after := ⟨token ++ a, by simp [hSplit]⟩
    have hBefore : before <+: before ++ c :: token ++ after :=
      ⟨c :: token ++ after, (List.append_assoc ..).symm⟩
    refine List.prefix_of_prefix_length_le hFront hBefore ?_
    rw [List.length_append]
    exact hShorter
  exact h (hPrefix.subset (by simp))

/-- A single character is found behind a text that does not contain it. -/
theorem breakOn_singleton {c : Char} {before : Text} (h : c ∉ before) (after : Text) :
    breakOn [c] (before ++ [c] ++ after) = some (before, after) :=
  breakOn_behind h [] after

/-- Cutting around a single character cuts around the first one. -/
theorem breakOn_singleton_eq_some_iff {c : Char} {text before after : Text} :
    breakOn [c] text = some (before, after) ↔ c ∉ before ∧ text = before ++ c :: after := by
  constructor
  · intro h
    have hText : text = before ++ c :: after := by simpa using eq_append_of_breakOn h
    refine ⟨fun hMem => ?_, hText⟩
    obtain ⟨front, back, rfl⟩ := List.append_of_mem hMem
    have hShorter := length_le_of_breakOn (b := front) (a := back ++ c :: after) h (by simp [hText])
    rw [List.length_append, List.length_cons] at hShorter
    omega
  · rintro ⟨hFirst, rfl⟩
    simpa using breakOn_singleton hFirst after

theorem breakOn_singleton_eq_none_iff {c : Char} {text : Text} :
    breakOn [c] text = none ↔ c ∉ text := by
  constructor
  · intro h hMem
    obtain ⟨before, after, rfl⟩ := List.append_of_mem hMem
    exact ne_append_of_breakOn_none h (List.cons_ne_nil _ _) before after (by simp)
  · intro h
    cases hCut : breakOn [c] text with
    | none => rfl
    | some cut => exact absurd (by simp [eq_append_of_breakOn hCut]) h

theorem breakOn_eq_none_of_forall_ne {token text : Text}
    (h : ∀ b a, text ≠ b ++ token ++ a) : breakOn token text = none := by
  cases hCut : breakOn token text with
  | none => rfl
  | some cut => exact absurd (eq_append_of_breakOn hCut) (h cut.1 cut.2)

/-- The first occurrence in a window of `n` characters is the first one in the text if that one lies
inside, and otherwise there is none. -/
theorem breakOn_take {token text : Text} (hToken : token ≠ []) (n : Nat) :
    breakOn token (text.take n) = (breakOn token text).bind fun cut =>
      if cut.1.length + token.length ≤ n then
        some (cut.1, cut.2.take (n - (cut.1.length + token.length)))
      else none := by
  cases hCut : breakOn token text with
  | none =>
      refine breakOn_eq_none_of_forall_ne fun b a hSplit => ?_
      refine ne_append_of_breakOn_none hCut hToken b (a ++ text.drop n) ?_
      rw [← List.append_assoc, ← hSplit, List.take_append_drop]
  | some cut =>
      obtain ⟨before, after⟩ := cut
      have hText := eq_append_of_breakOn hCut
      -- An occurrence in the window is one in the text, so none stands left of the first.
      have hFirst : ∀ b a, text.take n = b ++ token ++ a → before.length ≤ b.length := by
        intro b a hSplit
        refine length_le_of_breakOn (a := a ++ text.drop n) hCut ?_
        rw [← List.append_assoc, ← hSplit, List.take_append_drop]
      show _ = if _ then _ else _
      split
      · rename_i hFits
        refine breakOn_eq_some_of_first hToken ?_ hFirst
        rw [hText, List.take_append, List.take_of_length_le (by simpa using hFits),
          List.length_append]
      · rename_i hCutOff
        refine breakOn_eq_none_of_forall_ne fun b a hSplit => ?_
        have hLeft := hFirst b a hSplit
        have hLength := congrArg List.length hSplit
        simp only [List.length_take, List.length_append] at hLength hCutOff
        omega

theorem cutAt_ne_nil (separator : Char) (text : Text) : text.cutAt separator ≠ [] := by
  cases text with
  | nil => exact List.cons_ne_nil _ _
  | cons c rest =>
      rw [Text.cutAt]
      split
      · exact List.cons_ne_nil _ _
      · split <;> exact List.cons_ne_nil _ _

/-- A text with its first separator is cut there. -/
theorem cutAt_append {separator : Char} {piece : Text} (h : separator ∉ piece) (rest : Text) :
    (piece ++ separator :: rest).cutAt separator = piece :: rest.cutAt separator := by
  induction piece with
  | nil => simp [cutAt]
  | cons c piece ih =>
      obtain ⟨hFirst, hLater⟩ := not_or.mp (mt List.mem_cons.mpr h)
      rw [List.cons_append, cutAt, if_neg (Ne.symm hFirst), ih hLater]

/-- Without a separator it is one piece. -/
theorem cutAt_eq_singleton {separator : Char} {piece : Text} (h : separator ∉ piece) :
    piece.cutAt separator = [piece] := by
  induction piece with
  | nil => rfl
  | cons c piece ih =>
      obtain ⟨hFirst, hLater⟩ := not_or.mp (mt List.mem_cons.mpr h)
      rw [cutAt, if_neg (Ne.symm hFirst), ih hLater]

end Placeholder.Text
