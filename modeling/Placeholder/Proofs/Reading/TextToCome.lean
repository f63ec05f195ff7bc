import Placeholder.Proofs.Reading.Remainder
/-!
A reader of well-formed bytes as a place in a text. On a feed on which nothing fails, what a reader
still gives is one text, however the bytes are delivered: `read` takes its first character, and
`reset` puts back exactly the characters that were taken since the mark.
-/
namespace Placeholder

namespace Feed

/-- Handing bytes out in requests loses none. -/
theorem flatMap_content_cut (size : Nat) (bytes : Bytes) :
    (cut size bytes).flatMap Delivery.content = bytes := by
  induction bytes using cut.induct size with
  | case1 =>
      rw [cut]
      rfl
  | case2 first rest ih =>
      rw [cut, List.flatMap_cons, ih, Delivery.content, List.cons_append, List.take_append_drop]

theorem calm_ofBytes (bytes : Bytes) : (ofBytes bytes).Calm :=
  ⟨rfl, failed_not_mem_cut requestSize bytes⟩

theorem content_ofBytes (bytes : Bytes) : (ofBytes bytes).content = bytes :=
  flatMap_content_cut requestSize bytes

end Feed

namespace TextReader

/-- The reader gives exactly this text and then ends. -/
structure Gives (r : TextReader) (text : Text) : Prop where
  calm : r.feed.Calm
  spelled : ∃ tail, text = r.replay ++ tail ∧ r.buffer ++ r.feed.content = Utf8.encodeText tail

theorem gives_ofFeed {feed : Feed} {text : Text} (hCalm : feed.Calm)
    (hContent : feed.content = Utf8.encodeText text) : (ofFeed feed).Gives text :=
  ⟨hCalm, text, rfl, hContent⟩

/-- A text in memory is read back. -/
theorem gives_text (text : Text) : (ofFeed (.ofBytes (Utf8.encodeText text))).Gives text :=
  gives_ofFeed (Feed.calm_ofBytes _) (Feed.content_ofBytes _)

theorem Gives.mark {r : TextReader} {text : Text} (h : r.Gives text) (limit : Nat) :
    (r.mark limit).Gives text :=
  ⟨h.calm, h.spelled⟩

/-- The text to come is all there is. -/
theorem gives_iff {r : TextReader} {text : Text} :
    r.Gives text ↔ r.feed.Calm ∧ r.toCome = text ∧ r.WellFormed := by
  constructor
  · rintro ⟨hCalm, tail, rfl, hBytes⟩
    have hLeading : Utf8.leading r.coming = tail := by
      rw [coming, hBytes, ← List.append_nil (Utf8.encodeText tail), Utf8.leading_encodeText,
        Utf8.leading_nil, List.append_nil]
    refine ⟨hCalm, by rw [toCome, hLeading], ?_⟩
    rw [WellFormed, hLeading]
    exact hBytes.symm
  · rintro ⟨hCalm, rfl, hWellFormed⟩
    exact ⟨hCalm, Utf8.leading r.coming, rfl, hWellFormed.symm⟩

theorem read_nil {r : TextReader} (h : r.Gives []) :
    ∃ after : TextReader, r.read = (.ok none, after) ∧ after.Gives [] ∧ after.mark? = r.mark? := by
  obtain ⟨hCalm, hText, hWellFormed⟩ := gives_iff.mp h
  have hReading := r.reading
  cases hRead : r.read with
  | mk result after =>
      rw [hRead] at hReading
      cases hReading with
      | char hFront => cases hText.symm.trans hFront
      | ended _ _ hStays hSame =>
          refine ⟨after, rfl, gives_iff.mpr ⟨?_, ?_, ?_⟩, hStays.mark⟩
          · exact hCalm.of_same hStays.ending hSame
          · exact hStays.text.trans hText
          · exact hStays.wellFormed.mpr hWellFormed
      | illFormed _ hIllFormed => exact absurd hWellFormed hIllFormed
      | failed _ hFails => exact absurd hFails hCalm.not_fails

theorem read_cons {r : TextReader} {c : Char} {rest : Text} (h : r.Gives (c :: rest)) :
    ∃ after : TextReader, r.read = (.ok (some c), after) ∧ after.Gives rest ∧
      after.mark? = markAfter r.mark? c := by
  obtain ⟨hCalm, hText, hWellFormed⟩ := gives_iff.mp h
  have hReading := r.reading
  cases hRead : r.read with
  | mk result after =>
      rw [hRead] at hReading
      cases hReading with
      | char hFront hMark hGoesOn hSame =>
          obtain ⟨rfl, hRest⟩ := List.cons.inj (hText.symm.trans hFront)
          refine ⟨after, rfl, gives_iff.mpr ⟨?_, hRest.symm, ?_⟩, hMark⟩
          · exact hCalm.of_same hGoesOn.ending hSame
          · exact hGoesOn.wellFormed.mpr hWellFormed
      | ended hNone => cases hText.symm.trans hNone
      | illFormed hNone => cases hText.symm.trans hNone
      | failed _ hFails => exact absurd hFails hCalm.not_fails

/-- Going back to a mark puts the characters taken since then in front again. -/
theorem reset_marked {r : TextReader} {allowance : Nat} {taken text : Text} (h : r.Gives text)
    (hMark : r.mark? = some ⟨allowance, taken⟩) :
    ∃ after : TextReader, r.reset = (.ok (), after) ∧ after.Gives (taken.reverse ++ text) ∧
      after.mark? = some ⟨allowance + taken.length, []⟩ := by
  obtain ⟨hCalm, tail, rfl, hBytes⟩ := h
  refine ⟨_, by rw [reset, hMark], ?_, rfl⟩
  exact ⟨hCalm, tail, by rw [List.append_assoc], hBytes⟩

end TextReader

end Placeholder
