import Placeholder.Proofs.Reading.Course
/-!
What a feed begins with. Bytes that are handed out before a request can fail are read as the characters
they spell, however the feed goes on behind them.
-/
namespace Placeholder

namespace TextReader

variable {r : TextReader} {text : Text}

theorem fillFrom_of_holds {needed : Nat} {buffer : Bytes} (ending : Ending)
    (deliveries : List Delivery) (h : needed ≤ buffer.length) :
    fillFrom needed ending deliveries buffer = (.ok true, deliveries, buffer) := by
  cases deliveries <;> simp only [fillFrom, if_pos (holds_iff.mpr h)]

/-- Deliveries that do not fail are taken until the bytes are enough. -/
theorem fillFrom_unfailing {needed : Nat} (ending : Ending) {front : List Delivery}
    (back : List Delivery) {buffer : Bytes} (hUnfailing : ∀ failure, .failed failure ∉ front)
    (hEnough : needed ≤ (buffer ++ front.flatMap Delivery.content).length) :
    ∃ left filled, fillFrom needed ending (front ++ back) buffer = (.ok true, left ++ back, filled) ∧
      (∀ failure, .failed failure ∉ left) ∧
      filled ++ left.flatMap Delivery.content = buffer ++ front.flatMap Delivery.content ∧
      needed ≤ filled.length := by
  by_cases hHere : needed ≤ buffer.length
  · exact ⟨front, buffer, fillFrom_of_holds ending _ hHere, hUnfailing, rfl, hHere⟩
  · induction front generalizing buffer with
    | nil =>
        rw [List.flatMap_nil, List.append_nil] at hEnough
        exact absurd hEnough hHere
    | cons delivery front ih =>
        simp only [List.mem_cons, not_or] at hUnfailing
        have hRest : ∀ failure, .failed failure ∉ front := fun failure => (hUnfailing failure).2
        have hMore : ∀ more : Bytes, delivery.content = more →
            ∃ left filled, fillFrom needed ending (front ++ back) (buffer ++ more) =
                (.ok true, left ++ back, filled) ∧
              (∀ failure, .failed failure ∉ left) ∧
              filled ++ left.flatMap Delivery.content =
                buffer ++ (delivery :: front).flatMap Delivery.content ∧
              needed ≤ filled.length := by
          rintro more rfl
          rw [List.flatMap_cons, ← List.append_assoc] at hEnough ⊢
          by_cases hNow : needed ≤ (buffer ++ delivery.content).length
          · exact ⟨front, _, fillFrom_of_holds ending _ hNow, hRest, rfl, hNow⟩
          · exact ih hRest hEnough hNow
        rw [List.cons_append]
        simp only [fillFrom, if_neg fun hTrue => hHere (holds_iff.mp hTrue)]
        cases delivery with
        | bytes first more => exact hMore (first :: more) rfl
        | interrupted => simpa using hMore [] rfl
        | failed failure => exact absurd rfl (hUnfailing failure).1

/-- These bytes are handed out before a request can fail. -/
def Secures (r : TextReader) (bytes : Bytes) : Prop :=
  r.replay = [] ∧ ∃ front back, r.feed.deliveries = front ++ back ∧
    (∀ failure, .failed failure ∉ front) ∧ r.buffer ++ front.flatMap Delivery.content = bytes

/-- What is secured can be fetched. -/
theorem Secures.fill {bytes : Bytes} (h : r.Secures bytes) (needed : Nat)
    (hEnough : needed ≤ bytes.length) :
    ∃ after : TextReader, r.fill needed = (.ok true, after) ∧ after.Secures bytes ∧
      needed ≤ after.buffer.length := by
  obtain ⟨hReplay, front, back, hDeliveries, hUnfailing, rfl⟩ := h
  obtain ⟨left, filled, hFill, hLeft, hSame, hLong⟩ :=
    fillFrom_unfailing r.feed.ending back hUnfailing hEnough
  rw [TextReader.fill, hDeliveries, hFill]
  exact ⟨_, rfl, ⟨hReplay, left, back, rfl, hLeft, hSame⟩, hLong⟩

/-- A character whose bytes are secured is read. -/
theorem Secures.read {c : Char} {bytes : Bytes} (h : r.Secures (Utf8.encode c ++ bytes)) :
    ∃ after : TextReader, r.read = (.ok (some c), after) ∧ after.Secures bytes := by
  obtain ⟨lead, rest, hEncode, hWidth⟩ := Utf8.encode_eq_lead_cons c
  have hPos : 1 ≤ (Utf8.encode c ++ bytes).length := by
    rw [hEncode, List.cons_append, List.length_cons]
    omega
  obtain ⟨one, hOne, hSecures, hSome⟩ := h.fill 1 hPos
  obtain ⟨whole, hWhole, hAll, hLong⟩ := hSecures.fill (Utf8.width lead) (by
    rw [hWidth, List.length_append]
    omega)
  obtain ⟨hReplay, front, back, hDeliveries, hUnfailing, hBytes⟩ := hAll
  have hTake : whole.buffer.take (Utf8.width lead) = Utf8.encode c := by
    rw [hWidth] at hLong ⊢
    rw [← List.take_append_of_le_length hLong, hBytes, List.take_left]
  have hDrop : whole.buffer.drop (Utf8.width lead) ++ front.flatMap Delivery.content = bytes := by
    rw [hWidth] at hLong ⊢
    rw [← List.drop_append_of_le_length hLong, hBytes, List.drop_left]
  have hLead : ∃ buffered, one.buffer = lead :: buffered := by
    obtain ⟨_, _, _, _, _, hFront⟩ := hSecures
    cases hBuffer : one.buffer with
    | nil => simp [hBuffer] at hSome
    | cons first buffered =>
        rw [hBuffer, hEncode, List.cons_append, List.cons_append] at hFront
        exact ⟨buffered, by rw [(List.cons.inj hFront).1]⟩
  obtain ⟨buffered, hBuffer⟩ := hLead
  have hSequence : Utf8.width lead ≠ 0 := by
    rw [hWidth, hEncode]
    exact Nat.succ_ne_zero _
  have hDecode : r.decodeNext = (.ok (some c), { whole with
      buffer := whole.buffer.drop (Utf8.width lead), offset := whole.offset + Utf8.width lead }) := by
    simp only [decodeNext, hOne, hBuffer, decodeLed, if_neg hSequence, hWhole, decodeBuffered, hTake,
      Utf8.decode?_encode]
  refine ⟨_, by simp only [TextReader.read, h.1, hDecode, note_eq]; rfl, ?_⟩
  exact ⟨hReplay, front, back, hDeliveries, hUnfailing, hDrop⟩

theorem Secures.course {tail : Bytes} (h : r.Secures (Utf8.encodeText text ++ tail)) :
    ∃ rest stop, r.Course (text ++ rest) stop := by
  induction text generalizing r with
  | nil => exact r.exists_course
  | cons c text ih =>
      rw [Utf8.encodeText_cons, List.append_assoc] at h
      obtain ⟨after, hRead, hAfter⟩ := h.read
      obtain ⟨rest, stop, hCourse⟩ := ih hAfter
      exact ⟨rest, stop, .char hRead hCourse⟩

end TextReader

/-- The feed hands out the bytes of this text before a request for them can fail. -/
def Feed.Begins (feed : Feed) (text : Text) : Prop :=
  ∃ front back, feed.deliveries = front ++ back ∧ (∀ failure, .failed failure ∉ front) ∧
    Utf8.encodeText text <+: front.flatMap Delivery.content

/-- However a feed goes on, the text that it begins with is read first. -/
theorem Feed.Begins.course {feed : Feed} {text : Text} (h : feed.Begins text) :
    ∃ rest stop, (TextReader.ofFeed feed).Course (text ++ rest) stop := by
  obtain ⟨front, back, hDeliveries, hUnfailing, tail, hBytes⟩ := h
  exact TextReader.Secures.course ⟨rfl, front, back, hDeliveries, hUnfailing, hBytes.symm⟩

end Placeholder
