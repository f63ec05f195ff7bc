import Mathlib.Data.List.DropRight
import Placeholder.Proofs.Reading.Window
/-!
What the position of a lookahead counts. It counts the characters handed out since the latest mark or
way back, and together with them every attempt that came back short, up to the limit. So it tells how
many characters there were as long as the text has not run out inside the window. Behind that it moves
on with every attempt, until it looks as if the window were used up.
-/
namespace Placeholder.Lookahead

/-- What can be done with a lookahead. -/
inductive Operation where
  | read
  | readInto (buffer : Text)
  | mark (limit : Nat)
  | reset

/-- What an operation shows. -/
inductive Outcome where
  | char (result : Except Failure (Option Char))
  | filled (buffer : Text) (result : Except Failure Nat)
  | marked
  | back (result : Except Failure Unit)
deriving DecidableEq

namespace Outcome

/-- The characters that were handed out; in a buffer they are the first ones. -/
def given : Outcome → Text
  | char (.ok (some c)) => [c]
  | filled buffer (.ok count) => buffer.take count
  | _ => []

/-- Whether there were fewer characters than were asked for. -/
def isShort : Outcome → Bool
  | char (.ok none) => true
  | filled buffer (.ok count) => count < buffer.length
  | _ => false

/-- Whether the window is still the same. -/
def goesOn : Outcome → Bool
  | char _ => true
  | filled _ _ => true
  | marked => false
  | back _ => false

/-- Whether it went wrong. -/
def hasFailed : Outcome → Bool
  | char result => !result.isOk
  | filled _ result => !result.isOk
  | marked => false
  | back result => !result.isOk

end Outcome

def perform (l : Lookahead) : Operation → Outcome × Lookahead
  | .read => (.char l.read.1, l.read.2)
  | .readInto buffer => (.filled (l.readInto buffer).1.1 (l.readInto buffer).1.2, (l.readInto buffer).2)
  | .mark limit => (.marked, l.mark limit)
  | .reset => (.back l.reset.1, l.reset.2)

/-- Operations, one after the other. -/
def run (l : Lookahead) : List Operation → List Outcome × Lookahead
  | [] => ([], l)
  | operation :: later =>
    let rest := (l.perform operation).2.run later
    ((l.perform operation).1 :: rest.1, rest.2)

/-- What was shown since the latest mark or way back. -/
def recent (outcomes : List Outcome) : List Outcome :=
  outcomes.rtakeWhile Outcome.goesOn

/-- The characters handed out since the latest mark or way back. -/
def given (outcomes : List Outcome) : Text :=
  (recent outcomes).flatMap Outcome.given

/-- How often since then there were fewer characters than were asked for. -/
def shortfalls (outcomes : List Outcome) : Nat :=
  (recent outcomes).countP Outcome.isShort

variable {l after : Lookahead} {text : Text} {taken : Nat} {outcomes : List Outcome}
  {outcome : Outcome}

theorem given_concat (h : outcome.goesOn = true) :
    given (outcomes ++ [outcome]) = given outcomes ++ outcome.given := by
  rw [given, recent, List.rtakeWhile_concat_pos _ _ _ h, List.flatMap_append, List.flatMap_singleton]
  rfl

theorem shortfalls_concat (h : outcome.goesOn = true) :
    shortfalls (outcomes ++ [outcome]) = shortfalls outcomes + outcome.isShort.toNat := by
  rw [shortfalls, recent, List.rtakeWhile_concat_pos _ _ _ h, List.countP_append,
    List.countP_singleton]
  cases outcome.isShort <;> rfl

theorem recent_concat (h : outcome.goesOn = false) : recent (outcomes ++ [outcome]) = [] :=
  List.rtakeWhile_concat_neg _ _ _ (by rw [h]; exact Bool.false_ne_true)

/-- Every attempt moves the position on, up to the limit. -/
theorem position_read (h : l.position ≤ l.limit) :
    l.read.2.position = min l.limit (l.position + 1) ∧ l.read.2.limit = l.limit := by
  rw [read]
  split
  · refine ⟨?_, rfl⟩
    show l.position = _
    omega
  · refine ⟨?_, rfl⟩
    show l.position + 1 = _
    omega

/-- Filling a buffer takes an attempt for each character, and one more if they are not enough. -/
theorem position_readInto {buffer filled : Text} {count : Nat} (h : l.position ≤ l.limit)
    (hFill : l.readInto buffer = ((filled, .ok count), after)) :
    after.position = min l.limit (l.position + count + (decide (count < buffer.length)).toNat) ∧
      after.limit = l.limit ∧ filled.length = buffer.length ∧ count ≤ buffer.length := by
  induction buffer generalizing l filled count with
  | nil =>
      cases hFill
      exact ⟨by simp [h], rfl, rfl, Nat.le_refl 0⟩
  | cons place rest ih =>
      obtain ⟨hPosition, hLimit⟩ := position_read h
      rw [readInto] at hFill
      cases hRead : l.read with
      | mk result next =>
          rw [hRead] at hFill hPosition hLimit
          rcases result with failure | _ | c
          · cases hFill
          · cases hFill
            exact ⟨by simpa using hPosition, hLimit, rfl, Nat.zero_le _⟩
          · cases hRest : next.readInto rest with
            | mk shown last =>
                obtain ⟨later, result⟩ := shown
                simp only [hRest] at hFill
                cases result with
                | error failure => cases hFill
                | ok more =>
                    cases hFill
                    have hNext : next.position ≤ next.limit := by
                      rw [hPosition, hLimit]
                      exact Nat.min_le_left _ _
                    obtain ⟨hLast, hSame, hLength, hFits⟩ := ih hNext hRest
                    refine ⟨?_, hSame.trans hLimit, by simp [hLength], by simpa using hFits⟩
                    rw [hLast, hPosition, hLimit]
                    simp only [List.length_cons, Nat.add_lt_add_iff_right]
                    omega

/-- Filling a buffer on a text: it gets what the window still shows, as far as there is room. -/
theorem At.readInto (h : l.At text taken) (buffer : Text) :
    let shown := ((l.window text).drop taken).take buffer.length
    ∃ after : Lookahead,
      l.readInto buffer = ((shown ++ buffer.drop shown.length, .ok shown.length), after) ∧
        after.At text (taken + shown.length) ∧ after.limit = l.limit := by
  induction buffer generalizing l taken with
  | nil => exact ⟨l, rfl, h, rfl⟩
  | cons place rest ih =>
      rw [Lookahead.readInto]
      cases hNext : (l.window text).drop taken with
      | nil =>
          obtain ⟨after, hRead, hAt, hLimit⟩ := h.read_nil hNext
          rw [hRead]
          exact ⟨after, rfl, hAt, hLimit⟩
      | cons c more =>
          obtain ⟨next, hRead, hAt, hLimit⟩ := h.read_cons hNext
          have hWindow : next.window text = l.window text := by rw [window, window, hLimit]
          have hMore : (next.window text).drop (taken + 1) = more := by
            rw [hWindow, ← List.drop_drop, hNext, List.drop_one, List.tail_cons]
          obtain ⟨after, hFill, hAfter, hSame⟩ := ih hAt
          rw [hMore] at hFill hAfter
          rw [hRead]
          simp only [hFill]
          refine ⟨after, ?_, ?_, hSame.trans hLimit⟩
          · rfl
          · simpa [Nat.add_assoc, Nat.add_comm 1] using hAfter

/-- What was shown on the way to a lookahead that stands in this text. -/
structure Tracks (outcomes : List Outcome) (l : Lookahead) (text : Text) : Prop where
  stands : l.At text (given outcomes).length
  position : l.position = min l.limit ((given outcomes).length + shortfalls outcomes)
  unfailing : ∀ outcome ∈ outcomes, outcome.hasFailed = false

namespace Tracks

/-- A new window. -/
theorem anew (h : Tracks outcomes l text) {other : Text} (hAt : after.At other 0)
    (hPosition : after.position = 0) (hTurns : outcome.goesOn = false)
    (hFine : outcome.hasFailed = false) : Tracks (outcomes ++ [outcome]) after other where
  stands := by rwa [given, recent_concat hTurns]
  position := by
    rw [given, shortfalls, recent_concat hTurns, hPosition]
    exact (Nat.min_zero _).symm
  unfailing := List.forall_mem_append.mpr ⟨h.unfailing, by simpa using hFine⟩

/-- The same window, after more attempts. -/
theorem further (h : Tracks outcomes l text) (count : Nat)
    (hAt : after.At text ((given outcomes).length + count)) (hLimit : after.limit = l.limit)
    (hPosition : after.position = min l.limit (l.position + count + outcome.isShort.toNat))
    (hGoesOn : outcome.goesOn = true) (hGiven : outcome.given.length = count)
    (hFine : outcome.hasFailed = false) : Tracks (outcomes ++ [outcome]) after text where
  stands := by rwa [given_concat hGoesOn, List.length_append, hGiven]
  position := by
    rw [given_concat hGoesOn, shortfalls_concat hGoesOn, List.length_append, hGiven, hLimit,
      hPosition, h.position]
    omega
  unfailing := List.forall_mem_append.mpr ⟨h.unfailing, by simpa using hFine⟩

/-- Whatever is done, what was shown still accounts for the position. -/
theorem perform (h : Tracks outcomes l text) (operation : Operation) :
    ∃ other, Tracks (outcomes ++ [(l.perform operation).1]) (l.perform operation).2 other := by
  have hInLimit := h.stands.inLimit
  cases operation with
  | mark limit => exact ⟨_, h.anew (at_mark h.stands.gives limit) rfl rfl rfl⟩
  | reset =>
      obtain ⟨after, hReset, hAt, _⟩ := h.stands.reset
      have hPosition : after.position = 0 := congrArg (·.2.position) hReset.symm
      rw [Lookahead.perform, hReset]
      exact ⟨text, h.anew hAt hPosition rfl rfl⟩
  | read =>
      obtain ⟨hPosition, hLimit⟩ := position_read hInLimit
      cases hNext : (l.window text).drop (given outcomes).length with
      | nil =>
          obtain ⟨after, hRead, hAt, _⟩ := h.stands.read_nil hNext
          rw [hRead] at hPosition hLimit
          rw [Lookahead.perform, hRead]
          exact ⟨text, h.further 0 hAt hLimit hPosition rfl rfl rfl⟩
      | cons c rest =>
          obtain ⟨after, hRead, hAt, _⟩ := h.stands.read_cons hNext
          rw [hRead] at hPosition hLimit
          rw [Lookahead.perform, hRead]
          exact ⟨text, h.further 1 hAt hLimit hPosition rfl rfl rfl⟩
  | readInto buffer =>
      obtain ⟨after, hFill, hAt, _⟩ := h.stands.readInto buffer
      obtain ⟨hPosition, hLimit, hLength, hFits⟩ := position_readInto hInLimit hFill
      rw [Lookahead.perform, hFill]
      refine ⟨text, h.further _ hAt hLimit ?_ rfl ?_ rfl⟩
      · rw [hPosition, Outcome.isShort, hLength]
      · rw [Outcome.given, List.length_take, hLength, Nat.min_eq_left hFits]

theorem run (h : Tracks outcomes l text) (operations : List Operation) :
    ∃ other, Tracks (outcomes ++ (l.run operations).1) (l.run operations).2 other := by
  induction operations generalizing l outcomes text with
  | nil => exact ⟨text, by rwa [Lookahead.run, List.append_nil]⟩
  | cons operation later ih =>
      obtain ⟨other, hNext⟩ := h.perform operation
      obtain ⟨last, hLast⟩ := ih hNext
      exact ⟨last, by rwa [List.append_assoc] at hLast⟩

/-- Nothing comes into a buffer if the window is used up or the text has run out. -/
theorem empty (h : Tracks outcomes l text) {buffer : Text} (hRoom : buffer ≠ [])
    (hNone : (l.readInto buffer).1.2 = .ok 0) :
    let next := (l.readInto buffer).2
    next.limit = l.limit ∧
      next.position = min l.limit ((given outcomes).length + shortfalls outcomes + 1) ∧
      ((given outcomes).length = l.limit ∨
        (given outcomes).length < l.limit ∧ next.reader.Gives []) := by
  obtain ⟨after, hFill, hAt, _⟩ := h.stands.readInto buffer
  obtain ⟨hPosition, hLimit, _, _⟩ := position_readInto h.stands.inLimit hFill
  rw [hFill] at hNone ⊢
  have hShown := Except.ok.inj hNone
  have hPos := List.length_pos_iff.mpr hRoom
  have hEnd := h.stands.le_limit
  refine ⟨hLimit, ?_, ?_⟩
  · show after.position = _
    rw [hPosition, hShown, h.position, decide_eq_true hPos, Bool.toNat_true]
    omega
  · have hGives := hAt.gives
    rw [hShown, Nat.add_zero] at hGives
    rw [window, List.length_take, List.length_drop, List.length_take] at hShown
    rcases Nat.eq_or_lt_of_le hEnd with hUsed | hLess
    · exact .inl hUsed
    · rw [List.drop_eq_nil_of_le (by omega)] at hGives
      exact .inr ⟨hLess, hGives⟩

end Tracks

/-- How far the position of a lookahead tells what was shown. -/
structure Tells (outcomes : List Outcome) (l : Lookahead) : Prop where
  unfailing : ∀ outcome ∈ outcomes, outcome.hasFailed = false
  /-- It counts the characters since the latest mark or way back, and how often there were fewer than were
  asked for. -/
  position : l.position = min l.limit ((given outcomes).length + shortfalls outcomes)
  /-- So it is the number of the characters as long as there were never too few, unless because the window
  was used up. -/
  exact : l.position = (given outcomes).length ↔
    shortfalls outcomes = 0 ∨ (given outcomes).length = l.limit
  /-- Nothing comes into a buffer if the window is used up, and then the position is at the limit; or
  else if the text has run out, and then the position has moved on by one more, up to the limit. -/
  empty : ∀ buffer, buffer ≠ [] → (l.readInto buffer).1.2 = .ok 0 →
    let next := (l.readInto buffer).2
    next.limit = l.limit ∧
      ((given outcomes).length = l.limit ∧ next.position = l.limit ∨
        ((given outcomes).length < l.limit ∧ next.reader.Gives []) ∧
          next.position = min l.limit ((given outcomes).length + shortfalls outcomes + 1))
  /-- As long as this leaves room below the limit, the position tells the one from the other. -/
  apart : ∀ buffer, buffer ≠ [] → (l.readInto buffer).1.2 = .ok 0 →
    (given outcomes).length = l.limit ∨
      (given outcomes).length + shortfalls outcomes + 1 < l.limit →
    let next := (l.readInto buffer).2
    (next.position = next.limit ↔ (given outcomes).length = l.limit) ∧
      (next.position < next.limit ↔ (given outcomes).length < l.limit ∧ next.reader.Gives [])

theorem Tracks.tells (h : Tracks outcomes l text) : Tells outcomes l where
  unfailing := h.unfailing
  position := h.position
  exact := by
    have hEnd := h.stands.le_limit
    have hPosition := h.position
    omega
  empty buffer hRoom hNone := by
    intro next
    obtain ⟨hLimit, hNext, hUsed | hDry⟩ := h.empty hRoom hNone
    · exact ⟨hLimit, .inl ⟨hUsed, hNext.trans (by omega)⟩⟩
    · exact ⟨hLimit, .inr ⟨hDry, hNext⟩⟩
  apart buffer hRoom hNone hBelow := by
    intro next
    obtain ⟨hLimit, hNext, hEither⟩ := h.empty hRoom hNone
    have hPosition : next.position = min l.limit ((given outcomes).length + shortfalls outcomes + 1) :=
      hNext
    rw [show next.limit = l.limit from hLimit, hPosition]
    rcases hEither with hUsed | ⟨hLess, hGives⟩
    · exact ⟨by omega, by omega⟩
    · have hRoomLeft := hBelow.resolve_left (Nat.ne_of_lt hLess)
      exact ⟨by omega, fun _ => ⟨hLess, hGives⟩, by omega⟩

/-- What a lookahead on a text is asked for, in whatever order, and how its position tells of it. -/
theorem position_tells {feed : Feed} {text : Text} (hCalm : feed.Calm)
    (hContent : feed.content = Utf8.encodeText text) (limit : Nat) (operations : List Operation) :
    Tells ((ofReader (.ofFeed feed) limit).run operations).1
      ((ofReader (.ofFeed feed) limit).run operations).2 := by
  have hGives := TextReader.gives_ofFeed hCalm hContent
  have hStart : Tracks [] (ofReader (.ofFeed feed) limit) text :=
    ⟨at_mark (l := ⟨.ofFeed feed, 0, limit⟩) hGives limit, (Nat.min_zero _).symm, by simp⟩
  obtain ⟨other, hTracks⟩ := hStart.run operations
  exact hTracks.tells

/-- Two characters in two deliveries with an interruption between them, in a window of four. The position
counts them and the one attempt that found no third. -/
theorem position_tells_interrupted :
    let feed : Feed := ⟨[.bytes 97 [], .interrupted, .bytes 98 []], .closed⟩
    let operations : List Operation := [.read, .readInto ['_', '_']]
    let ran := (ofReader (.ofFeed feed) 4).run operations
    (feed.Calm ∧ feed.content = Utf8.encodeText ['a', 'b']) ∧
      (ran.1 = [.char (.ok (some 'a')), .filled ['b', '_'] (.ok 1)] ∧ ran.2.position = 3) ∧
      Tells ran.1 ran.2 := by
  intro feed operations ran
  have hCalm : feed.Calm := ⟨rfl, by simp [feed]⟩
  have hContent : feed.content = Utf8.encodeText ['a', 'b'] := by decide
  have hShown : ran.1 = [.char (.ok (some 'a')), .filled ['b', '_'] (.ok 1)] := by decide +kernel
  have hPosition : ran.2.position = 3 := by decide +kernel
  exact ⟨⟨hCalm, hContent⟩, ⟨hShown, hPosition⟩, position_tells hCalm hContent 4 operations⟩

/-- In an empty text a window of one character looks used up after one attempt, although no character was
handed out and the text has run out. -/
theorem position_behind_end :
    let ran := (ofReader (.ofFeed ⟨[], .closed⟩) 1).run [.readInto ['_']]
    ran.1 = [.filled ['_'] (.ok 0)] ∧ given ran.1 = [] ∧ ran.2.reader.Gives [] ∧
      ran.2.position = 1 ∧ ran.2.limit = 1 := by
  intro ran
  have hGives : ran.2.reader.Gives [] := ⟨⟨rfl, nofun⟩, [], rfl, rfl⟩
  exact ⟨rfl, rfl, hGives, rfl, rfl⟩

end Placeholder.Lookahead
