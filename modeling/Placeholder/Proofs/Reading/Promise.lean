import Placeholder.Proofs.Reading.Cursor
import Placeholder.Proofs.Reading.Position
import Placeholder.Proofs.Reading.PuttingBack
/-!
What a lookahead has its reader do. A mark promises that no more characters are asked for than its
limit says before the next mark or way back, and the lookahead keeps the promise: its own count of
attempts and the reader's count of kept characters go apart where an attempt comes to nothing, but
only to the safe side. So every way back succeeds, on any feed, and what is handed out is the text from
the mark on.
-/
namespace Placeholder

/-- Whether the promises of marks are kept. `asked` characters were asked for since the latest mark or
way back, and `limit` is the limit of that mark. -/
def Action.Promised : Nat → Nat → List Action → Prop
  | _, _, [] => True
  | limit, asked, .read :: later => asked < limit ∧ Promised limit (asked + 1) later
  | _, _, .mark limit :: later => Promised limit 0 later
  | limit, _, .reset :: later => Promised limit 0 later

/-- A character as an answer. -/
def Answer.ofChar (c : Char) : Answer := .ok (some c)

/-- The characters among some answers. -/
def charactersOf (answers : List Answer) : Text :=
  answers.flatMap TextReader.given

namespace TextReader

/-- The reader behind some actions. -/
def after (r : TextReader) : List Action → TextReader
  | [] => r
  | action :: later => (r.act action).2.after later

theorem after_append (r : TextReader) (first later : List Action) :
    r.after (first ++ later) = (r.after first).after later := by
  induction first generalizing r with
  | nil => rfl
  | cons action first ih => exact ih _

end TextReader

namespace Lookahead

/-- What a read has the reader do. -/
def readActions (l : Lookahead) : List Action :=
  if l.limit ≤ l.position then [] else [.read]

/-- What filling a buffer has the reader do. -/
def fillActions (l : Lookahead) : Text → List Action
  | [] => []
  | _ :: rest =>
    match l.read with
    | (.ok (some _), next) => l.readActions ++ next.fillActions rest
    | _ => l.readActions

/-- What an operation has the reader do. -/
def actions (l : Lookahead) : Operation → List Action
  | .read => l.readActions
  | .readInto buffer => l.fillActions buffer
  | .mark limit => [.mark limit]
  | .reset => [.reset]

/-- What operations have the reader do, one after the other. -/
def runActions (l : Lookahead) : List Operation → List Action
  | [] => []
  | operation :: later => l.actions operation ++ (l.perform operation).2.runActions later

/-- What the reader answers to an operation. -/
def answers (l : Lookahead) (operation : Operation) : List Answer :=
  l.reader.answers (l.actions operation)

/-- The ways of filling a buffer, with what they have the reader do. -/
inductive Filling : Lookahead → Text → List Action → (Text × Except Failure Nat) × Lookahead → Prop
  | full (l : Lookahead) : Filling l [] [] (([], .ok 0), l)
  | usedUp {l : Lookahead} {place : Char} {rest : Text} (hUsed : l.limit ≤ l.position) :
      Filling l (place :: rest) [] ((place :: rest, .ok 0), l)
  | ended {l : Lookahead} {place : Char} {rest : Text} {reader : TextReader}
      (hRoom : l.position < l.limit) (hRead : l.reader.read = (.ok none, reader)) :
      Filling l (place :: rest) [.read]
        ((place :: rest, .ok 0), ⟨reader, l.position + 1, l.limit⟩)
  | failed {l : Lookahead} {place : Char} {rest : Text} {failure : Failure} {reader : TextReader}
      (hRoom : l.position < l.limit) (hRead : l.reader.read = (.error failure, reader)) :
      Filling l (place :: rest) [.read]
        ((place :: rest, .error failure), ⟨reader, l.position + 1, l.limit⟩)
  | char {l after : Lookahead} {place c : Char} {rest filled : Text} {reader : TextReader}
      {later : List Action} {result : Except Failure Nat}
      (hRoom : l.position < l.limit) (hRead : l.reader.read = (.ok (some c), reader))
      (hLater : Filling ⟨reader, l.position + 1, l.limit⟩ rest later ((filled, result), after)) :
      Filling l (place :: rest) (.read :: later) ((c :: filled, result.map (· + 1)), after)

theorem filling (l : Lookahead) (buffer : Text) :
    Filling l buffer (l.fillActions buffer) (l.readInto buffer) := by
  induction buffer generalizing l with
  | nil => exact .full l
  | cons place rest ih =>
      rw [fillActions, readInto, read, readActions]
      by_cases hUsed : l.limit ≤ l.position
      · simp only [if_pos hUsed]
        exact .usedUp hUsed
      · have hRoom := Nat.lt_of_not_le hUsed
        simp only [if_neg hUsed]
        cases hRead : l.reader.read with
        | mk result reader =>
            rcases result with failure | _ | c
            · exact .failed hRoom hRead
            · exact .ended hRoom hRead
            · exact .char hRoom hRead (ih _)

/-- How filling a buffer stops behind the characters `front`: what more was answered, and the result. -/
inductive Stops (l : Lookahead) (buffer front : Text) : List Answer → Except Failure Nat → Prop
  | full (hFull : front.length = buffer.length) : Stops l buffer front [] (.ok front.length)
  | usedUp (hUsed : l.limit ≤ l.position + front.length) :
      Stops l buffer front [] (.ok front.length)
  | ended (hShort : front.length < buffer.length) : Stops l buffer front [.ok none] (.ok front.length)
  | failed {failure : Failure} (hShort : front.length < buffer.length) :
      Stops l buffer front [.error failure] (.error failure)

/-- What an operation shows when the reader answers this. -/
inductive Shows (l : Lookahead) : Operation → List Answer → Outcome → Prop
  | usedUp (hUsed : l.limit ≤ l.position) : Shows l .read [] (.char (.ok none))
  | answered (answer : Answer) : Shows l .read [answer] (.char answer)
  /-- The characters go to the front of the buffer, and the rest of it is as it was. -/
  | filled {buffer : Text} (front : Text) {last : List Answer} {result : Except Failure Nat}
      (hFits : front.length ≤ buffer.length) (hStops : Stops l buffer front last result) :
      Shows l (.readInto buffer) (front.map Answer.ofChar ++ last)
        (.filled (front ++ buffer.drop front.length) result)
  | marked (limit : Nat) : Shows l (.mark limit) [.ok none] .marked
  | back : Shows l .reset [.ok none] (.back (.ok ()))

theorem Shows.of_back {l : Lookahead} {operation : Operation} {answers : List Answer}
    {result : Except Failure Unit} (h : Shows l operation answers (.back result)) :
    result = .ok () := by
  cases h with
  | back => rfl

theorem Stops.cons {l next : Lookahead} {place c : Char} {rest front : Text} {last : List Answer}
    {result : Except Failure Nat} (h : Stops next rest front last result)
    (hPosition : next.position = l.position + 1) (hLimit : next.limit = l.limit) :
    Stops l (place :: rest) (c :: front) last (result.map (· + 1)) := by
  cases h with
  | full hFull => exact .full (congrArg (· + 1) hFull)
  | usedUp hUsed =>
      refine .usedUp ?_
      rw [List.length_cons]
      omega
  | ended hShort => exact .ended (Nat.succ_lt_succ hShort)
  | failed hShort => exact .failed (Nat.succ_lt_succ hShort)

variable {l : Lookahead} {buffer : Text} {trace : List Action}
  {outcome : (Text × Except Failure Nat) × Lookahead}

theorem Filling.shows (h : Filling l buffer trace outcome) :
    Shows l (.readInto buffer) (l.reader.answers trace) (.filled outcome.1.1 outcome.1.2) := by
  induction h with
  | full l => exact .filled [] (Nat.le_refl 0) (.full rfl)
  | usedUp hUsed => exact .filled [] (Nat.zero_le _) (.usedUp hUsed)
  | ended _ hRead =>
      rw [TextReader.answers, TextReader.act, hRead]
      exact .filled [] (Nat.zero_le _) (.ended (Nat.succ_pos _))
  | failed _ hRead =>
      rw [TextReader.answers, TextReader.act, hRead]
      exact .filled [] (Nat.zero_le _) (.failed (Nat.succ_pos _))
  | char hRoom hRead hLater ih =>
      rename_i l after place c rest filled reader later result
      rw [TextReader.answers, TextReader.act, hRead]
      -- The answers to the later attempts are no pattern to split on.
      generalize TextReader.answers reader later = answers at ih
      cases ih with
      | filled front hFits hStops =>
          exact .filled (c :: front) (Nat.succ_le_succ hFits) (hStops.cons rfl rfl)

/-- What is done in filling a buffer is all that happens to the reader. -/
theorem Filling.reader_eq (h : Filling l buffer trace outcome) :
    outcome.2.reader = l.reader.after trace := by
  induction h with
  | full l => rfl
  | usedUp hUsed => rfl
  | ended _ hRead => rw [TextReader.after, TextReader.act, hRead, TextReader.after]
  | failed _ hRead => rw [TextReader.after, TextReader.act, hRead, TextReader.after]
  | char _ hRead _ ih => rw [TextReader.after, TextReader.act, hRead, ih]

/-- Filling a buffer asks for characters only while there is room for them. -/
theorem Filling.promised (h : Filling l buffer trace outcome) {later : List Action}
    (hLater : Action.Promised outcome.2.limit outcome.2.position later) :
    Action.Promised l.limit l.position (trace ++ later) := by
  induction h with
  | full l => exact hLater
  | usedUp hUsed => exact hLater
  | ended hRoom _ => exact ⟨hRoom, hLater⟩
  | failed hRoom _ => exact ⟨hRoom, hLater⟩
  | char hRoom _ _ ih => exact ⟨hRoom, ih hLater⟩

/-- All that a buffer is filled with can be put back with what was seen before. -/
theorem Filling.since {start : TextReader} {limit : Nat} {seen : Text}
    (h : Filling l buffer trace outcome) (hSince : l.Since start limit seen) :
    outcome.2.Since start limit (seen ++ charactersOf (l.reader.answers trace)) := by
  induction h generalizing seen with
  | full l => rwa [TextReader.answers, charactersOf, List.flatMap_nil, List.append_nil]
  | usedUp hUsed => rwa [TextReader.answers, charactersOf, List.flatMap_nil, List.append_nil]
  | ended hRoom hRead =>
      rw [TextReader.answers, TextReader.act, hRead]
      exact hSince.attempted hRoom hRead
  | failed hRoom hRead =>
      rw [TextReader.answers, TextReader.act, hRead]
      exact hSince.attempted hRoom hRead
  | char hRoom hRead hLater ih =>
      have hNext := ih (hSince.attempted hRoom hRead)
      rw [TextReader.answers, TextReader.act, hRead, charactersOf, List.flatMap_cons,
        ← List.append_assoc]
      exact hNext

/-! One operation, and then any number of them. -/

/-- What the caller of a lookahead knows about the text: the place of the mark, and the characters that
were handed out since the latest mark or way back. -/
structure Account where
  mark : Nat
  taken : Text

/-- The account after an operation that hands out these characters. -/
def Account.after (account : Account) (handed : Text) : Operation → Account
  | .read | .readInto _ => { account with taken := account.taken ++ handed }
  | .mark _ => ⟨account.mark + account.taken.length, []⟩
  | .reset => { account with taken := [] }

/-- The account after operations. -/
def accountAfter (l : Lookahead) (account : Account) : List Operation → Account
  | [] => account
  | operation :: later =>
    (l.perform operation).2.accountAfter
      (account.after (charactersOf (l.answers operation)) operation) later

/-- The lookahead stands in the text to come of `reader` where the account says, and all that was handed
out since the mark can be put back. -/
def Follows (l : Lookahead) (reader : TextReader) (account : Account) : Prop :=
  ∃ start : TextReader, start.toCome = reader.toCome.drop account.mark ∧
    l.Since start l.limit account.taken

theorem follows_ofReader (reader : TextReader) (limit : Nat) :
    (ofReader reader limit).Follows reader ⟨0, []⟩ :=
  ⟨reader, rfl, since_mark ⟨reader, 0, limit⟩ limit⟩

/-- What an operation has the reader do is all that happens to it. -/
theorem reader_perform (l : Lookahead) (operation : Operation) :
    (l.perform operation).2.reader = l.reader.after (l.actions operation) := by
  cases operation with
  | mark limit => rfl
  | reset => rfl
  | readInto buffer => exact (l.filling buffer).reader_eq
  | read =>
      rw [actions, readActions, perform, Lookahead.read]
      split <;> rfl

/-- An operation keeps the promise of the mark. -/
theorem promised_perform (l : Lookahead) (operation : Operation) {later : List Action}
    (hLater : Action.Promised (l.perform operation).2.limit (l.perform operation).2.position later) :
    Action.Promised l.limit l.position (l.actions operation ++ later) := by
  cases operation with
  | mark limit => exact hLater
  | reset => exact hLater
  | readInto buffer => exact (l.filling buffer).promised hLater
  | read =>
      rw [perform, Lookahead.read] at hLater
      rw [actions, readActions]
      split at hLater
      · rename_i hUsed
        rwa [if_pos hUsed]
      · rename_i hRoom
        rw [if_neg hRoom]
        exact ⟨Nat.lt_of_not_le hRoom, hLater⟩

variable {reader : TextReader} {account : Account}

/-- Whatever is done, the account stays right. -/
theorem Follows.perform (h : l.Follows reader account) (operation : Operation) :
    (l.perform operation).2.Follows reader
      (account.after (charactersOf (l.answers operation)) operation) := by
  obtain ⟨start, hStart, hSince⟩ := h
  cases operation with
  | mark limit =>
      refine ⟨l.reader, ?_, since_mark l limit⟩
      rw [Account.after, ← List.drop_drop, ← hStart, hSince.passed.text, List.drop_left]
  | reset =>
      obtain ⟨back, hReset, hBack, _⟩ := hSince.reset
      rw [Lookahead.perform, hReset]
      exact ⟨start, hStart, hBack.limit.symm ▸ hBack⟩
  | readInto buffer =>
      have hFilled := (l.filling buffer).since hSince
      exact ⟨start, hStart, hFilled.limit.symm ▸ hFilled⟩
  | read =>
      refine ⟨start, hStart, ?_⟩
      rw [Lookahead.perform, Lookahead.read, answers, actions, readActions]
      by_cases hUsed : l.limit ≤ l.position
      · rw [if_pos hUsed, if_pos hUsed]
        simpa [Account.after, TextReader.answers, charactersOf] using hSince
      · rw [if_neg hUsed, if_neg hUsed]
        have hRead := hSince.attempted (Nat.lt_of_not_le hUsed) (Prod.eta l.reader.read).symm
        simpa [Account.after, TextReader.answers, TextReader.act, charactersOf] using hRead

/-- What an operation shows is what the reader answered to it, and going back succeeds. -/
theorem Follows.shows (h : l.Follows reader account) (operation : Operation) :
    Shows l operation (l.answers operation) (l.perform operation).1 := by
  obtain ⟨start, _, hSince⟩ := h
  cases operation with
  | mark limit => exact .marked limit
  | readInto buffer => exact (l.filling buffer).shows
  | reset =>
      obtain ⟨back, hReset, _⟩ := hSince.reset
      have hDone : l.reader.reset.1 = .ok () := congrArg Prod.fst hReset
      rw [Lookahead.perform, hReset, answers, actions, TextReader.answers, TextReader.act, hDone]
      exact .back
  | read =>
      rw [Lookahead.perform, Lookahead.read, answers, actions, readActions]
      by_cases hUsed : l.limit ≤ l.position
      · rw [if_pos hUsed, if_pos hUsed]
        exact .usedUp hUsed
      · rw [if_neg hUsed, if_neg hUsed]
        exact .answered l.reader.read.1

theorem reader_run (l : Lookahead) (operations : List Operation) :
    (l.run operations).2.reader = l.reader.after (l.runActions operations) := by
  induction operations generalizing l with
  | nil => rfl
  | cons operation later ih =>
      rw [run, runActions, TextReader.after_append, ← reader_perform, ih]

theorem promised_run (l : Lookahead) (operations : List Operation) :
    Action.Promised l.limit l.position (l.runActions operations) := by
  induction operations generalizing l with
  | nil => exact trivial
  | cons operation later ih => exact l.promised_perform operation (ih _)

theorem Follows.run (h : l.Follows reader account) (operations : List Operation) :
    (l.run operations).2.Follows reader (l.accountAfter account operations) := by
  induction operations generalizing l account with
  | nil => exact h
  | cons operation later ih => exact ih (h.perform operation)

theorem Follows.returns (h : l.Follows reader account) (operations : List Operation) :
    ∀ result, .back result ∈ (l.run operations).1 → result = .ok () := by
  induction operations generalizing l account with
  | nil => exact fun _ hNone => absurd hNone List.not_mem_nil
  | cons operation later ih =>
      intro result hMem
      rcases List.mem_cons.mp hMem with hHere | hLater
      · exact Shows.of_back (hHere ▸ h.shows operation)
      · exact ih (h.perform operation) result hLater

/-- What is so after operations on a lookahead that was set up in front of the text to come of
`reader`. -/
structure KeepsToMarks (reader : TextReader) (limit : Nat) (operations : List Operation) : Prop where
  /-- Every way back has succeeded. -/
  returns : ∀ result, .back result ∈ ((ofReader reader limit).run operations).1 → result = .ok ()
  /-- Nothing has happened to the reader but these actions. -/
  reader_eq : ((ofReader reader limit).run operations).2.reader =
    reader.after (.mark limit :: (ofReader reader limit).runActions operations)
  /-- After each mark and each way back it was asked for no more characters than the limit says. -/
  promised : Action.Promised 0 0 (.mark limit :: (ofReader reader limit).runActions operations)
  /-- What was handed out since is the text from the mark on, and the rest of the text is to come. -/
  consecutive :
    reader.toCome.drop ((ofReader reader limit).accountAfter ⟨0, []⟩ operations).mark =
      ((ofReader reader limit).accountAfter ⟨0, []⟩ operations).taken ++
        ((ofReader reader limit).run operations).2.reader.toCome
  /-- What the next operation shows is what the reader answers to it. -/
  shows : ∀ operation,
    Shows ((ofReader reader limit).run operations).2 operation
      (((ofReader reader limit).run operations).2.answers operation)
      (((ofReader reader limit).run operations).2.perform operation).1

/-- On any reader, in any state and with any feed, a lookahead keeps to its marks in any sequence of
operations: it never fails to go back, never asks for more characters than it may put back, and hands
out the text from the mark on, in a buffer the front of it. -/
theorem keeps_to_marks (reader : TextReader) (limit : Nat) (operations : List Operation) :
    KeepsToMarks reader limit operations := by
  have hStart := follows_ofReader reader limit
  have hFollows := hStart.run operations
  have hPromised := (ofReader reader limit).promised_run operations
  refine ⟨hStart.returns operations, reader_run _ operations, hPromised, ?_, hFollows.shows⟩
  obtain ⟨start, hText, hSince⟩ := hFollows
  rw [← hText, hSince.passed.text]

/-- A request that fails while a buffer is filled. The character before it stays in the buffer, and
after the way back it is handed out again with the one behind it. -/
theorem keeps_to_marks_failed_request :
    let failure : IoFailure := .ofKind .other
    let reader : TextReader := .ofFeed ⟨[.bytes 97 [], .failed failure, .bytes 98 [99]], .closed⟩
    let operations : List Operation := [.readInto ['_', '_'], .reset, .readInto ['_', '_', '_']]
    ((ofReader reader 2).run operations).1 = [.filled ['a', '_'] (.error (.io failure)),
        .back (.ok ()), .filled ['a', 'b', '_'] (.ok 2)] ∧
      (ofReader reader 2).runActions operations = [.read, .read, .reset, .read, .read] ∧
      KeepsToMarks reader 2 operations := by
  intro failure reader operations
  exact ⟨by decide +kernel, by decide +kernel, keeps_to_marks reader 2 operations⟩

end Lookahead

end Placeholder
