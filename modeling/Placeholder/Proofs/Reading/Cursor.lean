import Mathlib.Data.List.Basic
import Placeholder.Proofs.Reading.Remainder
/-!
A reader as a cursor over a fixed text. The text is what the bytes of the feed spell, whatever the
deliveries they come in; a mark is a place in it. The cursor knows nothing of buffers, of characters
put back or of requests. A read that fails because a request failed is the only thing it does not
foresee. Such a read leaves it where it is, and no failure on the way is missing when the end is told.
-/
namespace Placeholder

/-- What can be done with a reader. -/
inductive Action where
  | read
  | mark (limit : Nat)
  | reset
deriving DecidableEq

/-- What an action answers. Setting a mark answers nothing, and so does going back to it. -/
abbrev Answer := Except Failure (Option Char)

namespace TextReader

def act (r : TextReader) : Action → Answer × TextReader
  | .read => r.read
  | .mark limit => (.ok none, r.mark limit)
  | .reset => (r.reset.1.map fun _ => none, r.reset.2)

/-- What the actions answer, one after the other. -/
def answers (r : TextReader) : List Action → List Answer
  | [] => []
  | action :: actions => (r.act action).1 :: (r.act action).2.answers actions

end TextReader

/-- A place in a text, counted in characters, with the place and the limit of the mark. -/
structure Cursor where
  place : Nat
  mark? : Option (Nat × Nat)

namespace Cursor

variable {bytes : Bytes}

/-- The front of a text, without a mark. -/
def front : Cursor := ⟨0, none⟩

/-- What an action answers and where it leads, in the text that the bytes spell. A read behind its
last character says whether the bytes end there, or where they stop being well-formed. Going back is
possible while no more than `limit` characters lie between the mark and the cursor. -/
def act (spelling : Utf8.Spelling bytes) (cursor : Cursor) : Action → Answer × Cursor
  | .read =>
    match spelling.text[cursor.place]? with
    | some c => (.ok (some c), { cursor with place := cursor.place + 1 })
    | none =>
      if Utf8.encodeText spelling.text = bytes then (.ok none, cursor)
      else (.error (.invalidUtf8 (Utf8.encodeText spelling.text).length), cursor)
  | .mark limit => (.ok none, { cursor with mark? := some (cursor.place, limit) })
  | .reset =>
    match cursor.mark? with
    | none => (.error .invalidMark, cursor)
    | some (place, limit) =>
      if cursor.place ≤ place + limit then (.ok none, { cursor with place := place })
      else (.error .invalidMark, cursor)

/-- Whether the answers are those of the cursor, except that a read may tell of a failed request
instead, and then nothing has changed. The failures on the way are told each once and in order, and
all of them before the end is told. Behind them that of a broken end is told, but only where no
character is left, and then no end is. -/
def Admits (spelling : Utf8.Spelling bytes) (ending : Ending) :
    List IoFailure → Cursor → List Action → List Answer → Prop
  | _, _, [], [] => True
  | failures, cursor, action :: actions, answer :: answers =>
    (answer = (cursor.act spelling action).1 ∧
        (action = .read → answer = .ok none → failures = [] ∧ ending = .closed) ∧
        Admits spelling ending failures (cursor.act spelling action).2 actions answers) ∨
      ∃ failure later, action = .read ∧ answer = .error (.io failure) ∧
        (failures = failure :: later ∨ failures = [] ∧ later = [] ∧ ending = .broken failure ∧
          spelling.text.length ≤ cursor.place) ∧
        Admits spelling ending later cursor actions answers
  | _, _, _, _ => False

end Cursor

namespace TextReader

variable {bytes : Bytes} {spelling : Utf8.Spelling bytes} {cursor : Cursor}

/-- The characters kept since the mark are those between it and the cursor. A mark that is lost, or
was never set, allows no way back. -/
inductive MarkedAt (text : Text) (cursor : Cursor) : Option Mark → Prop
  | set {place allowance : Nat} {taken : Text}
      (hMark : cursor.mark? = some (place, allowance + taken.length))
      (hPlace : cursor.place = place + taken.length)
      (hTaken : text.drop place = taken.reverse ++ text.drop cursor.place) :
      MarkedAt text cursor (some ⟨allowance, taken⟩)
  | unset (hLost : ∀ place limit, cursor.mark? = some (place, limit) →
      place + limit < cursor.place) : MarkedAt text cursor none

/-- The reader stands where the cursor does. -/
structure StandsAt (r : TextReader) (spelling : Utf8.Spelling bytes) (cursor : Cursor) : Prop where
  text : r.toCome = spelling.text.drop cursor.place
  endOffset : r.endOffset = (Utf8.encodeText spelling.text).length
  wellFormed : r.WellFormed ↔ Utf8.encodeText spelling.text = bytes
  mark : MarkedAt spelling.text cursor r.mark?

theorem standsAt_ofFeed (feed : Feed) (spelling : Utf8.Spelling feed.content) :
    (ofFeed feed).StandsAt spelling .front where
  text := spelling.text_eq_leading.symm
  endOffset := by
    rw [spelling.text_eq_leading]
    exact Nat.zero_add _
  wellFormed := by
    rw [spelling.text_eq_leading]
    rfl
  mark := .unset fun _ _ hMark => nomatch hMark

theorem StandsAt.of_stays {r after : TextReader} (h : r.StandsAt spelling cursor)
    (hStays : r.Stays after) : after.StandsAt spelling cursor where
  text := hStays.text.trans h.text
  endOffset := hStays.endOffset.trans h.endOffset
  wellFormed := hStays.wellFormed.trans h.wellFormed
  mark := hStays.mark ▸ h.mark

/-- One more character is kept, or the mark is lost because there is no room for it. -/
theorem MarkedAt.after {text : Text} {mark? : Option Mark} {c : Char}
    (h : MarkedAt text cursor mark?)
    (hNext : text.drop cursor.place = c :: text.drop (cursor.place + 1)) :
    MarkedAt text { cursor with place := cursor.place + 1 } (markAfter mark? c) := by
  cases h with
  | unset hLost =>
      refine .unset fun place limit hMark => ?_
      have hBefore := hLost place limit hMark
      show place + limit < cursor.place + 1
      omega
  | set hMark hPlace hTaken =>
      rename_i place allowance taken
      cases allowance with
      | zero =>
          refine .unset fun other limit hOther => ?_
          obtain ⟨rfl, rfl⟩ := Prod.mk.inj (Option.some.inj (hMark.symm.trans hOther))
          show place + (0 + taken.length) < cursor.place + 1
          omega
      | succ left =>
          have hLimit : cursor.mark? = some (place, left + (c :: taken).length) := by
            rw [hMark, List.length_cons, Nat.add_assoc, Nat.add_comm 1]
          refine .set hLimit ?_ ?_
          · rw [hPlace, List.length_cons, Nat.add_assoc]
          · rw [hTaken, hNext, List.reverse_cons, List.append_assoc]
            rfl

/-- A read does what the cursor does, unless a request fails; then it leaves everything in place. -/
theorem StandsAt.read {r : TextReader} (h : r.StandsAt spelling cursor) :
    (r.read.1 = (cursor.act spelling .read).1 ∧ (r.read.1 = .ok none → r.feed.Calm) ∧
        r.read.2.feed.failures = r.feed.failures ∧ r.read.2.feed.ending = r.feed.ending ∧
        r.read.2.StandsAt spelling (cursor.act spelling .read).2) ∨
      ∃ failure, r.read.1 = .error (.io failure) ∧ r.feed.Fails failure r.read.2.feed ∧
        (r.feed.failures = [] → spelling.text.length ≤ cursor.place) ∧
        r.read.2.StandsAt spelling cursor := by
  have hReading := r.reading
  cases hRead : r.read with
  | mk result after =>
      rw [hRead] at hReading
      cases hReading with
      | failed hStays hFails hEnd =>
          refine .inr ⟨_, rfl, hFails, fun hNone => ?_, h.of_stays hStays⟩
          exact List.drop_eq_nil_iff.mp (h.text.symm.trans (hEnd hNone))
      | ended hText hWellFormed hStays hSame hCalm =>
          have hNone : spelling.text[cursor.place]? = none := by
            rw [← List.head?_drop, ← h.text, hText, List.head?_nil]
          have hAct : cursor.act spelling .read = (.ok none, cursor) := by
            rw [Cursor.act, hNone]
            exact if_pos (h.wellFormed.mp hWellFormed)
          rw [hAct]
          exact .inl ⟨rfl, fun _ => hCalm, hSame, hStays.ending, h.of_stays hStays⟩
      | illFormed hText hIllFormed hStays hSame =>
          have hNone : spelling.text[cursor.place]? = none := by
            rw [← List.head?_drop, ← h.text, hText, List.head?_nil]
          have hAct : cursor.act spelling .read = (.error (.invalidUtf8 r.endOffset), cursor) := by
            rw [Cursor.act, hNone, h.endOffset]
            exact if_neg fun hWhole => hIllFormed (h.wellFormed.mpr hWhole)
          rw [hAct]
          exact .inl ⟨rfl, nofun, hSame, hStays.ending, h.of_stays hStays⟩
      | char hText hMark hGoesOn hSame =>
          rename_i c
          have hFront := h.text.symm.trans hText
          have hSome : spelling.text[cursor.place]? = some c := by
            rw [← List.head?_drop, hFront, List.head?_cons]
          have hRest : spelling.text.drop (cursor.place + 1) = after.toCome := by
            rw [← List.drop_drop, hFront, List.drop_one, List.tail_cons]
          rw [Cursor.act, hSome]
          refine .inl ⟨rfl, nofun, hSame, hGoesOn.ending, hRest.symm, ?_, ?_, ?_⟩
          · exact hGoesOn.endOffset.trans h.endOffset
          · exact hGoesOn.wellFormed.trans h.wellFormed
          · rw [hMark]
            exact h.mark.after (by rw [hFront, hRest])

theorem StandsAt.marked {r : TextReader} (h : r.StandsAt spelling cursor) (limit : Nat) :
    (r.mark limit).StandsAt spelling { cursor with mark? := some (cursor.place, limit) } where
  text := h.text
  endOffset := h.endOffset
  wellFormed := h.wellFormed
  mark := .set rfl rfl rfl

/-- Going back works exactly when the cursor can, and leads to the same place. -/
theorem StandsAt.reset {r : TextReader} (h : r.StandsAt spelling cursor) :
    (r.act .reset).1 = (cursor.act spelling .reset).1 ∧ (r.act .reset).2.feed = r.feed ∧
      (r.act .reset).2.StandsAt spelling (cursor.act spelling .reset).2 := by
  have hMarked := h.mark
  cases hMark : r.mark? with
  | none =>
      rw [hMark] at hMarked
      cases hMarked with
      | unset hLost =>
          have hReset : r.act .reset = (.error .invalidMark, r) := by
            simp only [act, TextReader.reset, hMark]
            rfl
          have hCursor : cursor.act spelling .reset = (.error .invalidMark, cursor) := by
            rw [Cursor.act]
            cases hPlace : cursor.mark? with
            | none => rfl
            | some mark =>
                have hFar := hLost mark.1 mark.2 hPlace
                exact if_neg (by omega)
          rw [hReset, hCursor]
          exact ⟨rfl, rfl, h⟩
  | some mark =>
      rw [hMark] at hMarked
      cases hMarked with
      | set hPlaceMark hPlace hTaken =>
          rename_i place allowance taken
          have hReset : r.act .reset = (.ok none, { r with
              replay := taken.reverse ++ r.replay
              mark? := some ⟨allowance + taken.length, []⟩ }) := by
            simp only [act, TextReader.reset, hMark]
            rfl
          have hCursor :
              cursor.act spelling .reset = (.ok none, { cursor with place := place }) := by
            rw [Cursor.act, hPlaceMark]
            exact if_pos (by omega)
          rw [hReset, hCursor]
          refine ⟨rfl, rfl, ?_, h.endOffset, h.wellFormed, .set hPlaceMark rfl rfl⟩
          show (taken.reverse ++ r.replay) ++ _ = spelling.text.drop place
          rw [hTaken, ← h.text, toCome, List.append_assoc]
          rfl

/-- A reader that stands where a cursor does answers as the cursor does. -/
theorem StandsAt.admits {r : TextReader} (h : r.StandsAt spelling cursor) (actions : List Action) :
    Cursor.Admits spelling r.feed.ending r.feed.failures cursor actions (r.answers actions) := by
  induction actions generalizing r cursor with
  | nil => exact trivial
  | cons action actions ih =>
      rw [answers, Cursor.Admits]
      cases action with
      | read =>
          rcases h.read with ⟨hSame, hLast, hFailures, hEnding, hStands⟩ |
            ⟨failure, hFailed, hFails, hLast, hStands⟩
          · have hLater := ih hStands
            rw [hFailures, hEnding] at hLater
            refine .inl ⟨hSame, fun _ hEnd => ?_, hLater⟩
            exact (Feed.calm_iff.mp (hLast hEnd)).symm
          · have hLater := ih hStands
            obtain ⟨hEnding, hWhere⟩ := hFails
            rw [hEnding] at hLater
            refine .inr ⟨failure, _, rfl, hFailed, ?_, hLater⟩
            apply hWhere.imp_right
            intro ⟨hNone, hNoneAfter, hBroken⟩
            exact ⟨hNone, hNoneAfter, hBroken, hLast hNone⟩
      | mark limit => exact .inl ⟨rfl, nofun, ih (h.marked limit)⟩
      | reset =>
          obtain ⟨hSame, hFeed, hStands⟩ := h.reset
          have hLater := ih hStands
          rw [hFeed] at hLater
          exact .inl ⟨hSame, nofun, hLater⟩

/-- Whatever the deliveries of a feed, the interrupted and failed requests among them and the order
of reads, marks and ways back, a reader answers as a cursor over the text that all bytes of the feed
spell. A read tells of a failed request instead only when the feed has such a failure. Those on the way
are told in order, each once, and none of them is left when a read says that the text has ended. -/
theorem cursor_admits_answers (feed : Feed) (spelling : Utf8.Spelling feed.content)
    (actions : List Action) :
    Cursor.Admits spelling feed.ending feed.failures .front actions
      ((ofFeed feed).answers actions) :=
  (standsAt_ofFeed feed spelling).admits actions

/-- A character of two bytes with an interrupted and a failed request between them. The first read tells
of the failure; the character is there all the same, and once more after the way back. Reading on to
the end without a word of the failure is not admitted. -/
theorem cursor_admits_answers_failed_request :
    let failure : IoFailure := .ofKind .other
    let feed : Feed := ⟨[.bytes 0xC3 [], .interrupted, .failed failure, .bytes 0xA9 []], .closed⟩
    let actions : List Action := [.mark 1, .read, .read, .reset, .read, .read]
    (ofFeed feed).answers actions = [.ok none, .error (.io failure), .ok (some '\u00e9'), .ok none,
        .ok (some '\u00e9'), .ok none] ∧
      ∃ spelling : Utf8.Spelling feed.content, spelling.text = ['\u00e9'] ∧
        Cursor.Admits spelling feed.ending feed.failures .front actions
          ((ofFeed feed).answers actions) ∧
        ¬ Cursor.Admits spelling feed.ending feed.failures .front [.read, .read]
          [.ok (some '\u00e9'), .ok none] := by
  intro failure feed actions
  have hContent : feed.content = Utf8.encode '\u00e9' ++ [] := by decide
  let spelling : Utf8.Spelling feed.content :=
    ⟨Utf8.leading feed.content, Utf8.isPrefix_encodeText_leading _, fun _ => Utf8.prefix_leading⟩
  have hText : spelling.text = ['\u00e9'] := by
    show Utf8.leading feed.content = _
    rw [hContent, Utf8.leading_encode, Utf8.leading_nil]
  refine ⟨by decide +kernel, spelling, hText, cursor_admits_answers feed spelling actions, ?_⟩
  rintro (⟨_, _, hEnd⟩ | ⟨_, _, _, hAnswer, _⟩)
  · rcases hEnd with ⟨_, hTold, _⟩ | ⟨_, _, _, hAnswer, _⟩
    · cases (hTold rfl rfl).1
    · cases hAnswer
  · cases hAnswer

end TextReader

end Placeholder
