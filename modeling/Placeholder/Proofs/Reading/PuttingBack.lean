import Placeholder.Proofs.Reading.Remainder
import Placeholder.Reading.Lookahead
/-!
Looking ahead and going back, on any feed. What was read since the mark is kept, so going back and
stepping over the front of it cannot fail and leaves exactly the rest to come. Looking itself fails
only where reading does.
-/
namespace Placeholder

theorem Feed.Fails.suffix {feed after : Feed} {failure : IoFailure} (h : feed.Fails failure after) :
    after.failures <:+ feed.failures := by
  obtain ⟨_, hHere | ⟨_, hNone, _⟩⟩ := h
  · exact hHere ▸ List.suffix_cons failure after.failures
  · rw [hNone]
    exact List.nil_suffix

/-- The failure is one that requests on this feed meet. -/
theorem Feed.Fails.met {feed after : Feed} {failure : IoFailure} (h : feed.Fails failure after) :
    failure ∈ feed.failures ∨ feed.ending = .broken failure := by
  obtain ⟨_, hHere | ⟨_, _, hBroken⟩⟩ := h
  · exact .inl (hHere ▸ List.mem_cons_self ..)
  · exact .inr hBroken

namespace TextReader

/-- Reading on takes the characters `front` and leaves `after`. -/
structure Passed (r : TextReader) (front : Text) (after : TextReader) : Prop where
  text : r.toCome = front ++ after.toCome
  wellFormed : after.WellFormed ↔ r.WellFormed
  ending : after.feed.ending = r.feed.ending
  failures : after.feed.failures <:+ r.feed.failures

theorem Passed.refl (r : TextReader) : r.Passed [] r := ⟨rfl, Iff.rfl, rfl, List.suffix_refl _⟩

theorem Passed.trans {r s t : TextReader} {front more : Text} (h : r.Passed front s)
    (h' : s.Passed more t) : r.Passed (front ++ more) t where
  text := by rw [h.text, h'.text, List.append_assoc]
  wellFormed := h'.wellFormed.trans h.wellFormed
  ending := h'.ending.trans h.ending
  failures := h'.failures.trans h.failures

/-- The failures that reading can meet. -/
inductive MayFail (r : TextReader) : Failure → Prop
  | request {failure : IoFailure}
      (hMet : failure ∈ r.feed.failures ∨ r.feed.ending = .broken failure) : MayFail r (.io failure)
  | illFormed {offset : Nat} (hIllFormed : ¬ r.WellFormed) : MayFail r (.invalidUtf8 offset)

/-- What can be met further on can be met from here. -/
theorem MayFail.of_passed {r after : TextReader} {front : Text} {failure : Failure}
    (h : after.MayFail failure) (hPassed : r.Passed front after) : r.MayFail failure := by
  cases h with
  | request hMet =>
      rw [hPassed.ending] at hMet
      exact .request (hMet.imp hPassed.failures.mem id)
  | illFormed hIllFormed => exact .illFormed ((not_congr hPassed.wellFormed).mp hIllFormed)

theorem MayFail.ne_invalidMark {r : TextReader} {failure : Failure} (h : r.MayFail failure) :
    failure ≠ .invalidMark := by
  cases h with
  | request _ => exact Failure.noConfusion
  | illFormed _ => exact Failure.noConfusion

/-- The character that a read gives, if it gives one. -/
def given : Except Failure (Option Char) → Text
  | .ok c => c.toList
  | .error _ => []

/-- A character that was put back is read again, and nothing else happens. -/
theorem read_replay {r : TextReader} {c : Char} {rest : Text} (h : r.replay = c :: rest) :
    r.read = (.ok (some c), { r with replay := rest, mark? := markAfter r.mark? c }) := by
  simp only [read, h, note_eq]

end TextReader

namespace Lookahead

/-- The mark was set on `start`, and `seen` was read since. All of it can be put back. -/
structure Since (l : Lookahead) (start : TextReader) (limit : Nat) (seen : Text) : Prop where
  passed : start.Passed seen l.reader
  marked : l.reader.mark? = some ⟨limit - seen.length, seen.reverse⟩
  counted : seen.length ≤ l.position
  inLimit : l.position ≤ limit
  limit : l.limit = limit

theorem since_mark (l : Lookahead) (limit : Nat) : (l.mark limit).Since l.reader limit [] where
  passed := ⟨rfl, Iff.rfl, rfl, List.suffix_refl _⟩
  marked := rfl
  counted := Nat.le_refl 0
  inLimit := Nat.zero_le limit
  limit := rfl

variable {l : Lookahead} {start : TextReader} {limit : Nat} {seen : Text}

theorem Since.length_le (h : l.Since start limit seen) : seen.length ≤ limit :=
  Nat.le_trans h.counted h.inLimit

/-- What looking further from the mark can do: it answers something that is right for all that was
seen by then, or it meets a failure of the reader. -/
inductive Looks {α : Type} (start : TextReader) (limit : Nat) (seen : Text)
    (Right : α → Text → Prop) : Except Failure α × Lookahead → Prop
  | answered {answer : α} {after : Lookahead} {now : Text} (hGrows : seen <+: now)
      (hSince : after.Since start limit now) (hRight : Right answer now) :
      Looks start limit seen Right (.ok answer, after)
  | failed {failure : Failure} {after : Lookahead} {now : Text} (hGrows : seen <+: now)
      (hSince : after.Since start limit now) (hFails : start.MayFail failure) :
      Looks start limit seen Right (.error failure, after)

/-- A look that starts with another one has seen what that one saw. -/
theorem Looks.of_grown {α : Type} {Right : α → Text → Prop} {further : Text}
    {look : Except Failure α × Lookahead} (hGrows : seen <+: further)
    (h : Looks start limit further Right look) : Looks start limit seen Right look := by
  cases h with
  | answered hFurther hSince hRight => exact .answered (hGrows.trans hFurther) hSince hRight
  | failed hFurther hSince hFails => exact .failed (hGrows.trans hFurther) hSince hFails

theorem Looks.imp {α : Type} {Right Right' : α → Text → Prop}
    {look : Except Failure α × Lookahead} (h : Looks start limit seen Right look)
    (hImp : ∀ answer now, seen <+: now → Right answer now → Right' answer now) :
    Looks start limit seen Right' look := by
  cases h with
  | answered hGrows hSince hRight => exact .answered hGrows hSince (hImp _ _ hGrows hRight)
  | failed hGrows hSince hFails => exact .failed hGrows hSince hFails

/-- An attempt that nothing comes of still counts. -/
theorem Since.attempt (h : l.Since start limit seen) (hBefore : l.position < l.limit)
    {after : TextReader} (hSame : l.reader.Stays after)
    (hSuffix : after.feed.failures <:+ l.reader.feed.failures) :
    Since { l with reader := after, position := l.position + 1 } start limit seen where
  passed := by
    rw [← List.append_nil seen]
    exact h.passed.trans ⟨hSame.text.symm, hSame.wellFormed, hSame.ending, hSuffix⟩
  marked := hSame.mark.trans h.marked
  counted := Nat.le_succ_of_le h.counted
  inLimit := h.limit ▸ hBefore
  limit := h.limit

/-- A character that is read can be put back with the others. -/
theorem Since.grow (h : l.Since start limit seen) (hBefore : l.position < l.limit)
    {c : Char} {after : TextReader} (hPassed : l.reader.Passed [c] after)
    (hMark : after.mark? = TextReader.markAfter l.reader.mark? c) :
    Since { l with reader := after, position := l.position + 1 } start limit (seen ++ [c]) where
  passed := h.passed.trans hPassed
  marked := by
    have hLess : seen.length < limit := Nat.lt_of_le_of_lt h.counted (h.limit ▸ hBefore)
    obtain ⟨n, hRoom⟩ : ∃ n, limit - seen.length = n + 1 := ⟨limit - seen.length - 1, by omega⟩
    have hLeft : limit - (seen ++ [c]).length = n := by
      rw [List.length_append, List.length_singleton]
      omega
    rw [hMark, h.marked, hRoom, hLeft, List.reverse_append]
    rfl
  counted := by
    rw [List.length_append, List.length_singleton]
    exact Nat.succ_le_succ h.counted
  inLimit := h.limit ▸ hBefore
  limit := h.limit

/-- Whatever comes of an attempt, what it gives can be put back with what was seen before. -/
theorem Since.attempted (h : l.Since start limit seen) (hBefore : l.position < l.limit)
    {result : Except Failure (Option Char)} {after : TextReader}
    (hRead : l.reader.read = (result, after)) :
    Since { l with reader := after, position := l.position + 1 } start limit
      (seen ++ TextReader.given result) := by
  have hReading := l.reader.reading
  rw [hRead] at hReading
  cases hReading with
  | char hText hMark hGoesOn hSame =>
      exact h.grow hBefore
        ⟨hText, hGoesOn.wellFormed, hGoesOn.ending, hSame ▸ List.suffix_refl _⟩ hMark
  | ended _ _ hStays hSame =>
      rw [TextReader.given, Option.toList_none, List.append_nil]
      exact h.attempt hBefore hStays (hSame ▸ List.suffix_refl _)
  | illFormed _ _ hStays hSame =>
      rw [TextReader.given, List.append_nil]
      exact h.attempt hBefore hStays (hSame ▸ List.suffix_refl _)
  | failed hStays hFails =>
      rw [TextReader.given, List.append_nil]
      exact h.attempt hBefore hStays hFails.suffix

/-- What a read from the mark answers. Before the end of the window, an end is the end of the
text. -/
def ReadsOn (l : Lookahead) (seen : Text) (answer : Option Char) (now : Text) : Prop :=
  now = seen ++ answer.toList ∧ (answer = none → l.position < l.limit → l.reader.toCome = [])

theorem Since.read (h : l.Since start limit seen) :
    Looks start limit seen (l.ReadsOn seen) l.read := by
  rw [Lookahead.read]
  by_cases hUsed : l.limit ≤ l.position
  · rw [if_pos hUsed]
    refine .answered (List.prefix_refl _) h ⟨(List.append_nil seen).symm, ?_⟩
    intro _ hBefore
    omega
  · rw [if_neg hUsed]
    have hReading := l.reader.reading
    cases hRead : l.reader.read with
    | mk result after =>
        have hSince := h.attempted (Nat.lt_of_not_le hUsed) hRead
        have hGrows := List.prefix_append seen (TextReader.given result)
        rw [hRead] at hReading
        cases hReading with
        | char => exact .answered hGrows hSince ⟨rfl, fun hNone => by cases hNone⟩
        | ended hText => exact .answered hGrows hSince ⟨rfl, fun _ _ => hText⟩
        | illFormed _ hIllFormed =>
            exact .failed hGrows hSince (.illFormed ((not_congr h.passed.wellFormed).mp hIllFormed))
        | failed _ hFails =>
            exact .failed hGrows hSince (.of_passed (.request hFails.met) h.passed)

/-- What filling answers: all that was seen. Before the end of the window, the window only stays as
it was if the text is at its end. -/
def FillsOn (l : Lookahead) (seen : Text) (missing : Nat) (window now : Text) : Prop :=
  window = now ∧ (now = seen → 0 < missing → l.position < l.limit → l.reader.toCome = [])

theorem Since.fillBy (h : l.Since start limit seen) (missing : Nat) :
    Looks start limit seen (l.FillsOn seen missing) (l.fillBy missing seen) := by
  induction missing generalizing l seen with
  | zero =>
      exact .answered (List.prefix_refl _) h ⟨rfl, fun _ hNone => absurd hNone (Nat.lt_irrefl 0)⟩
  | succ n ih =>
      have hReads := h.read
      rw [Lookahead.fillBy]
      cases hRead : l.read with
      | mk result after =>
          rw [hRead] at hReads
          cases hReads with
          | failed hGrows hSince hFails => exact .failed hGrows hSince hFails
          | answered hGrows hSince hRight =>
              rename_i answer now
              obtain ⟨rfl, hEnd⟩ := hRight
              cases answer with
              | none =>
                  refine .answered hGrows hSince ⟨(List.append_nil _).symm, ?_⟩
                  exact fun _ _ => hEnd rfl
              | some c =>
                  apply Looks.of_grown hGrows
                  apply (ih hSince).imp
                  intro window now hMore hFills
                  refine ⟨hFills.1, fun hSame => ?_⟩
                  have hLonger := hMore.length_le
                  rw [hSame, List.length_append] at hLonger
                  exact absurd hLonger (by simp)

/-- Filling a window that holds all that was seen. -/
theorem Since.fill (h : l.Since start limit seen) (length : Nat) :
    Looks start limit seen (l.FillsOn seen (length - seen.length)) (l.fill seen length) :=
  h.fillBy (length - seen.length)

/-- The characters that stepping over `count` of them passes. -/
def passing (l : Lookahead) : Nat → Text
  | 0 => []
  | n + 1 =>
    match l.read with
    | (.ok (some c), l) => c :: l.passing n
    | (_, l) => l.passing n

/-- Stepping over characters that were put back takes just these and cannot fail. -/
theorem skip_replay {l : Lookahead} {front back : Text} (hReplay : l.reader.replay = front ++ back)
    (hRoom : l.position + front.length ≤ l.limit) :
    l.passing front.length = front ∧ ∃ after : Lookahead,
      l.skip front.length = (.ok (), after) ∧ l.reader.Passed front after.reader := by
  induction front generalizing l with
  | nil => exact ⟨rfl, l, rfl, TextReader.Passed.refl _⟩
  | cons c front ih =>
      rw [List.length_cons] at hRoom
      have hRead := TextReader.read_replay hReplay
      have hOne : l.reader.Passed [c] l.reader.read.2 := by
        rw [hRead]
        refine ⟨?_, Iff.rfl, rfl, List.suffix_refl _⟩
        rw [TextReader.toCome, hReplay, List.cons_append]
        rfl
      have hStep : l.read = (.ok (some c), ⟨l.reader.read.2, l.position + 1, l.limit⟩) := by
        rw [Lookahead.read, if_neg (by omega), hRead]
      obtain ⟨hPassing, after, hSkip, hPassed⟩ :=
        ih (l := ⟨l.reader.read.2, l.position + 1, l.limit⟩) (by rw [hRead]; rfl)
          (by simp only; omega)
      rw [List.length_cons, passing, Lookahead.skip, hStep]
      exact ⟨congrArg (c :: ·) hPassing, after, hSkip, hOne.trans hPassed⟩

/-- Going back to the mark cannot fail. All that was seen is put back. -/
theorem Since.reset (h : l.Since start limit seen) :
    ∃ back : Lookahead, l.reset = (.ok (), back) ∧ back.Since start limit [] ∧
      back.reader.replay = seen ++ l.reader.replay ∧ back.position = 0 := by
  have hLength := h.length_le
  rw [Lookahead.reset, TextReader.reset, h.marked]
  refine ⟨_, rfl, ⟨⟨?_, h.passed.wellFormed, h.passed.ending, h.passed.failures⟩, ?_, ?_, ?_, h.limit⟩,
    ?_, rfl⟩
  · rw [h.passed.text, List.nil_append, TextReader.toCome, ← List.append_assoc]
    simp only [List.reverse_reverse]
    rfl
  · simp only [List.length_reverse, List.length_nil, List.reverse_nil, Nat.sub_zero,
      Nat.sub_add_cancel hLength]
  · exact Nat.le_refl 0
  · exact Nat.zero_le limit
  · simp only [List.reverse_reverse]

/-- Going back to the mark and stepping over the front of what was seen cannot fail. What follows is
still to come. -/
theorem Since.consume (h : l.Since start limit seen) {front back : Text}
    (hSeen : seen = front ++ back) :
    l.reset.2.passing front.length = front ∧ ∃ after : Lookahead,
      l.consume front.length = (.ok (), after) ∧ start.Passed front after.reader := by
  have hLength := h.length_le
  rw [hSeen, List.length_append] at hLength
  obtain ⟨back', hReset, hBack, hReplay, hPosition⟩ := h.reset
  rw [hSeen, List.append_assoc] at hReplay
  obtain ⟨hPassing, after, hSkip, hPassed⟩ :=
    skip_replay hReplay (by rw [hPosition, hBack.limit]; omega)
  rw [Lookahead.consume, hReset]
  exact ⟨hPassing, after, hSkip, hBack.passed.trans hPassed⟩

end Lookahead

end Placeholder
