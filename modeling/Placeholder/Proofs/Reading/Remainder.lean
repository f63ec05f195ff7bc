import Placeholder.Proofs.Text.Spelling
import Placeholder.Reading.TextReader
/-!
What a reader still has to give, on any feed. The bytes to come need not be well-formed, and
requests for them may be interrupted or fail. `reading` says once what a read can do: it takes the
first character of the text to come, or it leaves that text as it is and says that it has ended, that
no character can follow, or that a request failed.
-/
namespace Placeholder

/-- The failure that a request meets. -/
def Delivery.failure? : Delivery → Option IoFailure
  | failed failure => some failure
  | _ => none

/-- No request fails, and in the end the feed closes. Requests may be interrupted. -/
structure Feed.Calm (feed : Feed) : Prop where
  closed : feed.ending = .closed
  unfailing : ∀ failure, .failed failure ∉ feed.deliveries

namespace Feed

/-- The failures on the way, in order. -/
def failures (feed : Feed) : List IoFailure :=
  feed.deliveries.filterMap Delivery.failure?

theorem mem_failures_iff {feed : Feed} {failure : IoFailure} :
    failure ∈ feed.failures ↔ .failed failure ∈ feed.deliveries := by
  rw [failures, List.mem_filterMap]
  constructor
  · rintro ⟨delivery, hMem, hFails⟩
    cases delivery with
    | failed met => exact Option.some.inj hFails ▸ hMem
    | _ => cases hFails
  · exact fun hMem => ⟨_, hMem, rfl⟩

/-- A request fails and leaves `after`. A failure on the way is met once; only a feed that is broken
at its end fails with the same failure again. -/
def Fails (feed : Feed) (failure : IoFailure) (after : Feed) : Prop :=
  after.ending = feed.ending ∧
    (feed.failures = failure :: after.failures ∨
      feed.failures = [] ∧ after.failures = [] ∧ feed.ending = .broken failure)

theorem Fails.of_same {feed next after : Feed} {failure : IoFailure} (h : next.Fails failure after)
    (hEnding : next.ending = feed.ending) (hSame : next.failures = feed.failures) :
    feed.Fails failure after := by
  rw [Fails, hEnding, hSame] at h
  exact h

theorem calm_iff {feed : Feed} : feed.Calm ↔ feed.ending = .closed ∧ feed.failures = [] := by
  have hNone : feed.failures = [] ↔ ∀ failure, .failed failure ∉ feed.deliveries := by
    simp only [List.eq_nil_iff_forall_not_mem, mem_failures_iff]
  rw [hNone]
  exact ⟨fun h => ⟨h.closed, h.unfailing⟩, fun h => ⟨h.1, h.2⟩⟩

theorem Calm.not_fails {feed after : Feed} {failure : IoFailure} (h : feed.Calm) :
    ¬ feed.Fails failure after := by
  obtain ⟨hClosed, hNone⟩ := calm_iff.mp h
  rintro ⟨_, hHere | ⟨_, _, hBroken⟩⟩
  · cases hNone.symm.trans hHere
  · cases hClosed.symm.trans hBroken

theorem Calm.of_same {feed after : Feed} (h : feed.Calm) (hEnding : after.ending = feed.ending)
    (hSame : after.failures = feed.failures) : after.Calm := by
  obtain ⟨hClosed, hNone⟩ := calm_iff.mp h
  exact calm_iff.mpr ⟨hEnding.trans hClosed, hSame.trans hNone⟩

end Feed

namespace TextReader

/-- The bytes that are not decoded yet. -/
def coming (r : TextReader) : Bytes :=
  r.buffer ++ r.feed.content

/-- The characters that the reader still gives, if requests that fail are repeated. -/
def toCome (r : TextReader) : Text :=
  r.replay ++ Utf8.leading r.coming

/-- Where in the whole input no further character is found. -/
def endOffset (r : TextReader) : Nat :=
  r.offset + (Utf8.encodeText (Utf8.leading r.coming)).length

/-- All bytes to come are characters. -/
def WellFormed (r : TextReader) : Prop :=
  Utf8.encodeText (Utf8.leading r.coming) = r.coming

theorem holds_iff {needed : Nat} {buffer : Bytes} :
    holds needed buffer = true ↔ needed ≤ buffer.length := by
  rw [holds, decide_eq_true_iff, List.length_take]
  omega

/-- Nothing but where the bytes are has changed. -/
structure Kept (r after : TextReader) : Prop where
  coming : after.coming = r.coming
  replay : after.replay = r.replay
  mark : after.mark? = r.mark?
  offset : after.offset = r.offset
  ending : after.feed.ending = r.feed.ending

theorem Kept.refl (r : TextReader) : r.Kept r := ⟨rfl, rfl, rfl, rfl, rfl⟩

theorem Kept.trans {r s t : TextReader} (h : r.Kept s) (h' : s.Kept t) : r.Kept t :=
  ⟨h'.coming.trans h.coming, h'.replay.trans h.replay, h'.mark.trans h.mark,
    h'.offset.trans h.offset, h'.ending.trans h.ending⟩

/-- What making the buffer hold `needed` bytes can do. That there are too few is answered only where
no request could fail any more. -/
inductive Filled (r : TextReader) (needed : Nat) : Except Failure Bool × TextReader → Prop
  | enough {after : TextReader} (hKept : r.Kept after)
      (hSame : after.feed.failures = r.feed.failures) (hLong : needed ≤ after.buffer.length) :
      Filled r needed (.ok true, after)
  | short {after : TextReader} (hKept : r.Kept after)
      (hSame : after.feed.failures = r.feed.failures) (hShort : r.coming.length < needed)
      (hCalm : r.feed.Calm) : Filled r needed (.ok false, after)
  | failed {failure : IoFailure} {after : TextReader} (hKept : r.Kept after)
      (hFails : r.feed.Fails failure after.feed)
      (hEnd : r.feed.failures = [] → r.coming.length < needed) :
      Filled r needed (.error (.io failure), after)

/-- Taking a delivery that holds no failure makes no difference. -/
theorem Filled.of_kept {r next : TextReader} {needed : Nat}
    {outcome : Except Failure Bool × TextReader} (h : next.Filled needed outcome) (hKept : r.Kept next)
    (hSame : next.feed.failures = r.feed.failures) : r.Filled needed outcome := by
  cases h with
  | enough hNext hNextSame hLong =>
      exact .enough (hKept.trans hNext) (hNextSame.trans hSame) hLong
  | short hNext hNextSame hShort hCalm =>
      exact .short (hKept.trans hNext) (hNextSame.trans hSame) (hKept.coming ▸ hShort)
        (hCalm.of_same hKept.ending.symm hSame.symm)
  | failed hNext hFails hEnd =>
      refine .failed (hKept.trans hNext) (hFails.of_same hKept.ending hSame) fun hNone => ?_
      exact hKept.coming ▸ hEnd (hSame.trans hNone)

theorem filled (r : TextReader) (needed : Nat) : r.Filled needed (r.fill needed) := by
  obtain ⟨⟨deliveries, ending⟩, buffer, offset, replay, mark?⟩ := r
  induction deliveries generalizing buffer with
  | nil =>
      simp only [fill, fillFrom]
      by_cases hHolds : needed ≤ buffer.length
      · rw [if_pos (holds_iff.mpr hHolds)]
        exact .enough (Kept.refl _) rfl hHolds
      · rw [if_neg fun hTrue => hHolds (holds_iff.mp hTrue)]
        have hShort : (coming ⟨⟨[], ending⟩, buffer, offset, replay, mark?⟩).length < needed := by
          simp only [coming, Feed.content, List.flatMap_nil, List.append_nil]
          omega
        cases ending with
        | closed => exact .short (Kept.refl _) rfl hShort (Feed.calm_iff.mpr ⟨rfl, rfl⟩)
        | broken failure =>
            exact .failed (Kept.refl _) ⟨rfl, .inr ⟨rfl, rfl, rfl⟩⟩ fun _ => hShort
  | cons delivery rest ih =>
      simp only [fill, fillFrom]
      by_cases hHolds : needed ≤ buffer.length
      · rw [if_pos (holds_iff.mpr hHolds)]
        exact .enough (Kept.refl _) rfl hHolds
      · rw [if_neg fun hTrue => hHolds (holds_iff.mp hTrue)]
        cases delivery with
        | bytes first more =>
            refine (ih (buffer ++ first :: more)).of_kept ⟨?_, rfl, rfl, rfl, rfl⟩ rfl
            simp [coming, Feed.content, Delivery.content]
        | interrupted => exact (ih buffer).of_kept ⟨rfl, rfl, rfl, rfl, rfl⟩ rfl
        | failed failure =>
            refine .failed ⟨rfl, rfl, rfl, rfl, rfl⟩ ⟨rfl, .inl rfl⟩ fun hNone => ?_
            exact absurd hNone (List.cons_ne_nil failure _)

/-- What decoding one character can do. -/
inductive Decoded (r : TextReader) : Except Failure (Option Char) × TextReader → Prop
  | char {c : Char} {after : TextReader} (hComing : r.coming = Utf8.encode c ++ after.coming)
      (hOffset : after.offset = r.offset + (Utf8.encode c).length)
      (hReplay : after.replay = r.replay) (hMark : after.mark? = r.mark?)
      (hEnding : after.feed.ending = r.feed.ending)
      (hSame : after.feed.failures = r.feed.failures) : Decoded r (.ok (some c), after)
  | ended {after : TextReader} (hNothing : r.coming = []) (hKept : r.Kept after)
      (hSame : after.feed.failures = r.feed.failures) (hCalm : r.feed.Calm) :
      Decoded r (.ok none, after)
  | illFormed {after : TextReader} (hSome : r.coming ≠ []) (hNone : Utf8.first? r.coming = none)
      (hKept : r.Kept after) (hSame : after.feed.failures = r.feed.failures) :
      Decoded r (.error (.invalidUtf8 r.offset), after)
  | failed {failure : IoFailure} {after : TextReader} (hKept : r.Kept after)
      (hFails : r.feed.Fails failure after.feed)
      (hEnd : r.feed.failures = [] → Utf8.first? r.coming = none) :
      Decoded r (.error (.io failure), after)

theorem Decoded.of_kept {r next : TextReader} {outcome : Except Failure (Option Char) × TextReader}
    (h : next.Decoded outcome) (hKept : r.Kept next)
    (hSame : next.feed.failures = r.feed.failures) : r.Decoded outcome := by
  cases h with
  | char hComing hOffset hReplay hMark hEnding hNextSame =>
      exact .char (hKept.coming ▸ hComing) (hKept.offset ▸ hOffset) (hReplay.trans hKept.replay)
        (hMark.trans hKept.mark) (hEnding.trans hKept.ending) (hNextSame.trans hSame)
  | ended hNothing hNext hNextSame hCalm =>
      exact .ended (hKept.coming ▸ hNothing) (hKept.trans hNext) (hNextSame.trans hSame)
        (hCalm.of_same hKept.ending.symm hSame.symm)
  | illFormed hSome hNone hNext hNextSame =>
      rw [hKept.offset]
      exact .illFormed (hKept.coming ▸ hSome) (hKept.coming ▸ hNone) (hKept.trans hNext)
        (hNextSame.trans hSame)
  | failed hNext hFails hEnd =>
      refine .failed (hKept.trans hNext) (hFails.of_same hKept.ending hSame) fun hNone => ?_
      exact hKept.coming ▸ hEnd (hSame.trans hNone)

theorem first?_coming {r : TextReader} {lead : UInt8} {rest : Bytes} (h : r.coming = lead :: rest) :
    Utf8.first? r.coming =
      if (r.coming.take (Utf8.width lead)).length = Utf8.width lead then
        (Utf8.decode? (r.coming.take (Utf8.width lead))).map fun c => (c, Utf8.width lead)
      else none := by
  rw [h]
  rfl

/-- A sequence that is all in the buffer is decoded, or no character stands there. -/
theorem decoded_buffered {r : TextReader} {lead : UInt8} {rest : Bytes}
    (h : r.coming = lead :: rest) (hWhole : Utf8.width lead ≤ r.buffer.length) :
    r.Decoded (r.decodeBuffered (Utf8.width lead)) := by
  have hTake : r.coming.take (Utf8.width lead) = r.buffer.take (Utf8.width lead) := by
    rw [coming, List.take_append_of_le_length hWhole]
  have hFirst := first?_coming h
  rw [hTake, List.length_take, Nat.min_eq_left hWhole, if_pos rfl] at hFirst
  rw [decodeBuffered]
  cases hDecode : Utf8.decode? (r.buffer.take (Utf8.width lead)) with
  | none =>
      refine .illFormed (h ▸ List.cons_ne_nil _ _) ?_ (Kept.refl r) rfl
      rw [hFirst, hDecode, Option.map_none]
  | some c =>
      rw [hDecode, Option.map_some] at hFirst
      obtain ⟨⟨later, hLater⟩, hLength⟩ := Utf8.first?_eq_some_iff.mp hFirst
      rw [hLength]
      refine .char ?_ rfl rfl rfl rfl rfl
      show r.coming = _ ++ (r.buffer.drop _ ++ r.feed.content)
      rw [← List.drop_append_of_le_length (hLength ▸ hWhole), ← coming, ← hLater, List.drop_left]

/-- With the first byte in the buffer, the rest of its sequence is fetched. -/
theorem decoded_led {r : TextReader} {lead : UInt8} {buffered : Bytes}
    (hBuffer : r.buffer = lead :: buffered) : r.Decoded (r.decodeLed lead) := by
  have hComing : r.coming = lead :: (buffered ++ r.feed.content) := by
    rw [coming, hBuffer, List.cons_append]
  have hSome : r.coming ≠ [] := hComing ▸ List.cons_ne_nil _ _
  rw [decodeLed]
  by_cases hWidth : Utf8.width lead = 0
  · rw [if_pos hWidth]
    refine .illFormed hSome ?_ (Kept.refl r) rfl
    rw [first?_coming hComing, hWidth]
    rfl
  · rw [if_neg hWidth]
    have hNothing : r.coming.length < Utf8.width lead → Utf8.first? r.coming = none := by
      intro hShort
      rw [first?_coming hComing, if_neg (by rw [List.length_take]; omega)]
    have hFilled := r.filled (Utf8.width lead)
    cases hFill : r.fill (Utf8.width lead) with
    | mk result all =>
        rw [hFill] at hFilled
        cases hFilled with
        | failed hKept hFails hEnd =>
            exact .failed hKept hFails fun hNone => hNothing (hEnd hNone)
        | short hKept hSame hShort =>
            simp only [hKept.offset]
            exact .illFormed hSome (hNothing hShort) hKept hSame
        | enough hKept hSame hWhole =>
            exact (decoded_buffered (hKept.coming.trans hComing) hWhole).of_kept hKept hSame

theorem decoded (r : TextReader) : r.Decoded r.decodeNext := by
  have hFilled := r.filled 1
  rw [decodeNext]
  cases hFill : r.fill 1 with
  | mk result one =>
      rw [hFill] at hFilled
      cases hFilled with
      | failed hKept hFails hEnd =>
          refine .failed hKept hFails fun hNone => ?_
          rw [List.length_eq_zero_iff.mp (Nat.lt_one_iff.mp (hEnd hNone))]
          rfl
      | short hKept hSame hShort hCalm =>
          exact .ended (List.length_eq_zero_iff.mp (Nat.lt_one_iff.mp hShort)) hKept hSame hCalm
      | enough hKept hSame hLong =>
          cases hBuffer : one.buffer with
          | nil => simp [hBuffer] at hLong
          | cons lead buffered =>
              simp only [hBuffer]
              exact (decoded_led hBuffer).of_kept hKept hSame

/-- Reading on changes neither where the input ends nor how. -/
structure Continues (r after : TextReader) : Prop where
  endOffset : after.endOffset = r.endOffset
  wellFormed : after.WellFormed ↔ r.WellFormed
  ending : after.feed.ending = r.feed.ending

/-- The mark after one more character was read. -/
def markAfter (mark? : Option Mark) (c : Char) : Option Mark :=
  match mark? with
  | some ⟨n + 1, taken⟩ => some ⟨n, c :: taken⟩
  | _ => none

theorem note_eq (r : TextReader) (c : Char) :
    r.note c = { r with mark? := markAfter r.mark? c } := by
  obtain ⟨feed, buffer, offset, replay, mark?⟩ := r
  cases mark? with
  | none => rfl
  | some mark =>
      obtain ⟨allowance, taken⟩ := mark
      cases allowance with
      | zero => rfl
      | succ n => rfl

/-- Nothing that matters to the caller has changed. -/
structure Stays (r after : TextReader) : Prop extends r.Continues after where
  text : after.toCome = r.toCome
  mark : after.mark? = r.mark?

theorem Kept.stays {r after : TextReader} (h : r.Kept after) : r.Stays after where
  endOffset := by rw [endOffset, endOffset, h.coming, h.offset]
  wellFormed := by rw [WellFormed, WellFormed, h.coming]
  ending := h.ending
  text := by rw [toCome, toCome, h.replay, h.coming]
  mark := h.mark

/-- What a read can do. The end is told only when every failure on the way has been. -/
inductive Reading (r : TextReader) : Except Failure (Option Char) × TextReader → Prop
  | char {c : Char} {after : TextReader} (hText : r.toCome = c :: after.toCome)
      (hMark : after.mark? = markAfter r.mark? c) (hGoesOn : r.Continues after)
      (hSame : after.feed.failures = r.feed.failures) : Reading r (.ok (some c), after)
  | ended {after : TextReader} (hText : r.toCome = []) (hWellFormed : r.WellFormed)
      (hStays : r.Stays after) (hSame : after.feed.failures = r.feed.failures)
      (hCalm : r.feed.Calm) : Reading r (.ok none, after)
  | illFormed {after : TextReader} (hText : r.toCome = []) (hIllFormed : ¬ r.WellFormed)
      (hStays : r.Stays after) (hSame : after.feed.failures = r.feed.failures) :
      Reading r (.error (.invalidUtf8 r.endOffset), after)
  | failed {failure : IoFailure} {after : TextReader} (hStays : r.Stays after)
      (hFails : r.feed.Fails failure after.feed) (hEnd : r.feed.failures = [] → r.toCome = []) :
      Reading r (.error (.io failure), after)

theorem reading (r : TextReader) : r.Reading r.read := by
  rw [read]
  cases hReplay : r.replay with
  | cons c rest =>
      simp only [note_eq]
      refine .char ?_ rfl ⟨rfl, Iff.rfl, rfl⟩ rfl
      rw [toCome, hReplay, List.cons_append]
      rfl
  | nil =>
      have hDecoded := r.decoded
      simp only []
      cases hDecode : r.decodeNext with
      | mk result after =>
          rw [hDecode] at hDecoded
          cases hDecoded with
          | char hComing hOffset hSameReplay hMark hEnding hSame =>
              rename_i c
              simp only [note_eq]
              refine .char ?_ (congrArg (markAfter · c) hMark) ⟨?_, ?_, hEnding⟩ hSame
              · rw [toCome, hReplay, hComing, Utf8.leading_encode, toCome]
                show [] ++ c :: _ = c :: (after.replay ++ _)
                rw [hSameReplay, hReplay]
                rfl
              · show after.offset + (Utf8.encodeText (Utf8.leading after.coming)).length = _
                rw [endOffset, hComing, Utf8.leading_encode, Utf8.encodeText_cons,
                  List.length_append, hOffset, Nat.add_assoc]
              · show Utf8.encodeText (Utf8.leading after.coming) = after.coming ↔ _
                rw [WellFormed, hComing, Utf8.leading_encode, Utf8.encodeText_cons,
                  List.append_cancel_left_eq]
          | ended hNothing hKept hSame hCalm =>
              refine .ended ?_ ?_ hKept.stays hSame hCalm
              · rw [toCome, hReplay, hNothing, Utf8.leading_nil, List.append_nil]
              · rw [WellFormed, hNothing, Utf8.leading_nil, Utf8.encodeText_nil]
          | illFormed hSome hNone hKept hSame =>
              have hLeading := Utf8.leading_of_none hNone
              have hOffset : r.offset = r.endOffset := by
                rw [endOffset, hLeading, Utf8.encodeText_nil, List.length_nil, Nat.add_zero]
              rw [hOffset]
              refine .illFormed ?_ ?_ hKept.stays hSame
              · rw [toCome, hReplay, hLeading, List.append_nil]
              · rw [WellFormed, hLeading, Utf8.encodeText_nil]
                exact fun hNil => hSome hNil.symm
          | failed hKept hFails hEnd =>
              refine .failed hKept.stays hFails fun hNone => ?_
              rw [toCome, hReplay, Utf8.leading_of_none (hEnd hNone), List.append_nil]

theorem toCome_length_le (r : TextReader) : r.toCome.length ≤ r.size := by
  have hText := Utf8.length_le_encodeText (Utf8.leading r.coming)
  have hBytes := (Utf8.isPrefix_encodeText_leading r.coming).length_le
  rw [toCome, List.length_append, size]
  rw [coming, List.length_append] at hBytes
  rw [coming] at hText ⊢
  omega

theorem eq_of_readOnto {r after : TextReader} {n : Nat} {seen text : Text}
    (h : r.readOnto n seen = ((text, none), after)) (hEnough : r.toCome.length < n) :
    text = seen.reverse ++ r.toCome := by
  induction n generalizing r seen with
  | zero => exact absurd hEnough (Nat.not_lt_zero _)
  | succ n ih =>
      have hReading := r.reading
      rw [readOnto] at h
      cases hRead : r.read with
      | mk result next =>
          rw [hRead] at hReading h
          cases hReading with
          | char hText =>
              rw [hText, List.length_cons] at hEnough
              rw [ih h (Nat.lt_of_succ_lt_succ hEnough), hText, List.reverse_cons,
                List.append_assoc, List.singleton_append]
          | ended hText =>
              cases h
              rw [hText, List.append_nil]
          | illFormed => cases h
          | failed => cases h

/-- Reading that comes to the end without a failure gave the text to come. -/
theorem eq_of_readAll {r : TextReader} {text : Text} (h : r.readAll.1 = (text, none)) :
    text = r.toCome := by
  have hRead : r.readOnto (r.size + 1) [] = ((text, none), r.readAll.2) := Prod.ext h rfl
  exact eq_of_readOnto hRead (Nat.lt_succ_of_le r.toCome_length_le)

end TextReader

end Placeholder
