import Placeholder.Proofs.Reading.PuttingBack
import Placeholder.Proofs.Reading.TextToCome
/-!
The course of a reader, on any feed: the characters that reading gives, one after the other, and then
the end of the input or a first failure. Every reader has one. Marks make no difference to it, and
what is put back comes first.
-/
namespace Placeholder

namespace TextReader

/-- What reading on gives: these characters, and then the end or this failure. -/
inductive Course : TextReader → Text → Option Failure → Prop
  | char {r after : TextReader} {c : Char} {rest : Text} {stop : Option Failure}
      (hRead : r.read = (.ok (some c), after)) (hLater : Course after rest stop) :
      Course r (c :: rest) stop
  | ended {r after : TextReader} (hRead : r.read = (.ok none, after)) : Course r [] none
  | failed {r after : TextReader} {failure : Failure} (hRead : r.read = (.error failure, after)) :
      Course r [] (some failure)

theorem exists_course (r : TextReader) : ∃ text stop, r.Course text stop := by
  induction hLeft : r.toCome generalizing r with
  | nil =>
      have hReading := r.reading
      cases hRead : r.read with
      | mk result after =>
          cases result with
          | error failure => exact ⟨[], some failure, .failed hRead⟩
          | ok char =>
              cases char with
              | none => exact ⟨[], none, .ended hRead⟩
              | some c =>
                  rw [hRead] at hReading
                  cases hReading with
                  | char hText => cases hLeft.symm.trans hText
  | cons _ left ih =>
      have hReading := r.reading
      cases hRead : r.read with
      | mk result after =>
          cases result with
          | error failure => exact ⟨[], some failure, .failed hRead⟩
          | ok char =>
              cases char with
              | none => exact ⟨[], none, .ended hRead⟩
              | some c =>
                  rw [hRead] at hReading
                  cases hReading with
                  | char hText =>
                      have hRest := (List.cons.inj (hLeft.symm.trans hText)).2
                      obtain ⟨text, stop, hCourse⟩ := ih after hRest.symm
                      exact ⟨c :: text, stop, .char hRead hCourse⟩

variable {r : TextReader} {text : Text} {stop : Option Failure}

/-- Well-formed bytes on which nothing fails are read to their end. -/
theorem Gives.course (h : r.Gives text) : r.Course text none := by
  induction text generalizing r with
  | nil =>
      obtain ⟨after, hRead, _⟩ := read_nil h
      exact .ended hRead
  | cons c rest ih =>
      obtain ⟨after, hRead, hAfter, _⟩ := read_cons h
      exact .char hRead (ih hAfter)

/-- The reader with another mark, or none. -/
def marked (r : TextReader) (mark? : Option Mark) : TextReader := { r with mark? := mark? }

theorem decodeBuffered_marked (r : TextReader) (mark? : Option Mark) (width : Nat) :
    (r.marked mark?).decodeBuffered width =
      ((r.decodeBuffered width).1, (r.decodeBuffered width).2.marked mark?) := by
  simp only [decodeBuffered, marked]
  cases Utf8.decode? (r.buffer.take width) <;> rfl

theorem decodeLed_marked (r : TextReader) (mark? : Option Mark) (lead : UInt8) :
    (r.marked mark?).decodeLed lead = ((r.decodeLed lead).1, (r.decodeLed lead).2.marked mark?) := by
  have hFill : (r.marked mark?).fill (Utf8.width lead) =
      ((r.fill (Utf8.width lead)).1, (r.fill (Utf8.width lead)).2.marked mark?) := rfl
  rw [decodeLed, decodeLed, hFill]
  split
  · rfl
  · cases r.fill (Utf8.width lead) with
    | mk result filled =>
        cases result with
        | error failure => rfl
        | ok enough =>
            cases enough with
            | false => rfl
            | true => exact filled.decodeBuffered_marked mark? (Utf8.width lead)

theorem decodeNext_marked (r : TextReader) (mark? : Option Mark) :
    (r.marked mark?).decodeNext = (r.decodeNext.1, r.decodeNext.2.marked mark?) := by
  have hFill : (r.marked mark?).fill 1 = ((r.fill 1).1, (r.fill 1).2.marked mark?) := rfl
  rw [decodeNext, decodeNext, hFill]
  cases r.fill 1 with
  | mk result filled =>
      cases result with
      | error failure => rfl
      | ok enough =>
          cases enough with
          | false => rfl
          | true =>
              have hSame : (filled.marked mark?).buffer = filled.buffer := rfl
              cases hBuffer : filled.buffer with
              | nil => simp only [hSame, hBuffer]
              | cons lead rest =>
                  simp only [hSame, hBuffer]
                  exact filled.decodeLed_marked mark? lead

/-- Marks make no difference to what is read. -/
theorem read_marked (r : TextReader) (mark? : Option Mark) :
    ∃ mark', (r.marked mark?).read = (r.read.1, r.read.2.marked mark') := by
  cases hReplay : r.replay with
  | cons c rest =>
      refine ⟨markAfter mark? c, ?_⟩
      simp only [read, marked, hReplay, note_eq]
  | nil =>
      simp only [read]
      have hDecode := r.decodeNext_marked mark?
      simp only [marked, hReplay] at hDecode ⊢
      rw [hDecode]
      cases r.decodeNext with
      | mk result after =>
          cases result with
          | error failure => exact ⟨mark?, rfl⟩
          | ok char =>
              cases char with
              | none => exact ⟨mark?, rfl⟩
              | some c =>
                  refine ⟨markAfter mark? c, ?_⟩
                  simp only [note_eq]

theorem Course.marked (h : r.Course text stop) (mark? : Option Mark) :
    (r.marked mark?).Course text stop := by
  induction h generalizing mark? with
  | char hRead hLater ih =>
      rename_i r after c rest stop
      obtain ⟨mark', hMarked⟩ := r.read_marked mark?
      rw [hRead] at hMarked
      exact .char hMarked (ih mark')
  | ended hRead =>
      rename_i r after
      obtain ⟨mark', hMarked⟩ := r.read_marked mark?
      rw [hRead] at hMarked
      exact .ended hMarked
  | failed hRead =>
      rename_i r after failure
      obtain ⟨mark', hMarked⟩ := r.read_marked mark?
      rw [hRead] at hMarked
      exact .failed hMarked

/-- What is put back comes first. -/
theorem Course.behind (h : r.Course text stop) (front : Text) :
    ({ r with replay := front ++ r.replay } : TextReader).Course (front ++ text) stop := by
  induction front generalizing r with
  | nil => exact h
  | cons c front ih =>
      have hRead : read { r with replay := c :: front ++ r.replay } =
          (.ok (some c), { r with replay := front ++ r.replay, mark? := markAfter r.mark? c }) := by
        simp only [read, List.cons_append, note_eq]
      exact .char hRead ((ih h).marked (markAfter r.mark? c))

theorem fillFrom_short {needed : Nat} {ending : Ending} {deliveries rest : List Delivery}
    {buffer filled : Bytes}
    (h : fillFrom needed ending deliveries buffer = (.ok false, rest, filled)) :
    fillFrom needed ending rest filled = (.ok false, rest, filled) := by
  induction deliveries generalizing buffer with
  | nil =>
      have hSame := h
      simp only [fillFrom] at h
      split at h
      · cases h
      · cases ending with
        | closed =>
            cases h
            exact hSame
        | broken failure => cases h
  | cons delivery deliveries ih =>
      simp only [fillFrom] at h
      split at h
      · cases h
      · cases delivery with
        | bytes first more => exact ih h
        | interrupted => exact ih h
        | failed failure => cases h

theorem fill_short {r after : TextReader} {needed : Nat} (h : r.fill needed = (.ok false, after)) :
    after.fill needed = (.ok false, after) := by
  simp only [fill, Prod.mk.injEq] at h
  obtain ⟨hResult, rfl⟩ := h
  have hAgain := fillFrom_short (Prod.ext hResult rfl)
  simp only [fill, hAgain]

theorem decodeLed_ne_none {r after : TextReader} {lead : UInt8} :
    r.decodeLed lead ≠ (.ok none, after) := by
  intro h
  rw [decodeLed] at h
  split at h
  · cases h
  · split at h
    · cases h
    · cases h
    · rw [decodeBuffered] at h
      split at h <;> cases h

theorem fill_of_decodeNext {r after : TextReader} (h : r.decodeNext = (.ok none, after)) :
    r.fill 1 = (.ok false, after) := by
  have hFilled := r.filled 1
  rw [decodeNext] at h
  cases hFill : r.fill 1 with
  | mk result filled =>
      rw [hFill] at h hFilled
      cases result with
      | error failure => cases h
      | ok enough =>
          cases enough with
          | false =>
              cases h
              rfl
          | true =>
              cases hFilled with
              | enough _ _ hLong =>
                  cases hBuffer : filled.buffer with
                  | nil => simp [hBuffer] at hLong
                  | cons lead rest =>
                      simp only [hBuffer] at h
                      exact absurd h decodeLed_ne_none

/-- An input that has ended ends again. -/
theorem read_again {r after : TextReader} (h : r.read = (.ok none, after)) :
    after.read = (.ok none, after) := by
  cases hReplay : r.replay with
  | cons c rest =>
      rw [read_replay hReplay] at h
      cases h
  | nil =>
      simp only [read, hReplay] at h
      have hDecode : r.decodeNext = (.ok none, after) := by
        split at h
        · cases h
        · exact h
      have hFill := fill_of_decodeNext hDecode
      have hAfter : after.replay = [] := by
        simp only [fill, Prod.mk.injEq] at hFill
        rw [← hFill.2]
        exact hReplay
      simp only [read, hAfter, decodeNext, fill_short hFill]

theorem Course.read_cons {c : Char} (h : r.Course (c :: text) stop) :
    ∃ after : TextReader, r.read = (.ok (some c), after) ∧ after.Course text stop ∧
      after.mark? = markAfter r.mark? c := by
  cases h with
  | char hRead hLater =>
      rename_i after
      have hReading := r.reading
      rw [hRead] at hReading
      cases hReading with
      | char _ hMark => exact ⟨after, hRead, hLater, hMark⟩

theorem Course.read_ended (h : r.Course [] none) :
    ∃ after : TextReader, r.read = (.ok none, after) ∧ after.Course [] none ∧
      after.mark? = r.mark? := by
  cases h with
  | ended hRead =>
      rename_i after
      have hReading := r.reading
      rw [hRead] at hReading
      cases hReading with
      | ended _ _ hStays => exact ⟨after, hRead, .ended (read_again hRead), hStays.mark⟩

theorem Course.read_failed {failure : Failure} (h : r.Course [] (some failure)) :
    ∃ after : TextReader, r.read = (.error failure, after) := by
  cases h with
  | failed hRead => exact ⟨_, hRead⟩

theorem Course.reset (h : r.Course text stop) {allowance : Nat} {taken : Text}
    (hMark : r.mark? = some ⟨allowance, taken⟩) :
    ∃ after : TextReader, r.reset = (.ok (), after) ∧ after.Course (taken.reverse ++ text) stop ∧
      after.mark? = some ⟨allowance + taken.length, []⟩ := by
  refine ⟨_, by rw [TextReader.reset, hMark], ?_, rfl⟩
  exact (h.behind taken.reverse).marked _

end TextReader

end Placeholder
