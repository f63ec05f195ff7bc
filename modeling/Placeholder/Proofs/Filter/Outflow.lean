import Placeholder.Proofs.Filter.Rendering
import Placeholder.Proofs.Text.Utf8
/-!
What is left of an output when it is read as bytes, in buffers of any sizes. An `Outflow` has the
whole output at hand: it holds no part of a character and never looks ahead. Whatever the calls, the
bytes come in order, and what ends them is reported behind them, a failure once.
-/
namespace Placeholder

/-- A read of a filter: of bytes into a buffer with this much room, or of one character. -/
inductive Call where
  | bytes (room : Nat)
  | char
deriving DecidableEq

/-- What a read answers. A failure of a byte read travels inside an I/O failure. -/
inductive Reply where
  | bytes (result : Except IoFailure Bytes)
  | char (result : Except Failure (Option Char))

/-- The bytes that a reply delivers. -/
def Reply.content : Reply → Bytes
  | bytes (.ok delivered) => delivered
  | char (.ok (some c)) => Utf8.encode c
  | _ => []

/-- The failure that a reply reports. -/
def Reply.failure? : Reply → Option IoFailure
  | bytes (.error failure) => some failure
  | char (.error failure) => some failure.toIo
  | _ => none

/-- The replies to some calls, one after the other; nothing if one of them is never answered. -/
def repliesOf {σ : Type} (reply : Call → σ → Option (Reply × σ)) :
    List Call → σ → Option (List Reply × σ)
  | [], state => some ([], state)
  | call :: rest, state => do
    let first ← reply call state
    let later ← repliesOf reply rest first.2
    return (first.1 :: later.1, later.2)

theorem fst_repliesOf_cons {σ : Type} (reply : Call → σ → Option (Reply × σ)) (call : Call)
    (rest : List Call) (state : σ) :
    (repliesOf reply (call :: rest) state).map Prod.fst = (reply call state).bind fun first =>
      ((repliesOf reply rest first.2).map Prod.fst).map (first.1 :: ·) := by
  rw [repliesOf]
  cases reply call state with
  | none => rfl
  | some first =>
      simp only [Option.bind_eq_bind, Option.bind_some]
      cases repliesOf reply rest first.2 <;> rfl

theorem of_repliesOf_cons {σ : Type} {reply : Call → σ → Option (Reply × σ)} {call : Call}
    {rest : List Call} {state left : σ} {given : List Reply}
    (h : repliesOf reply (call :: rest) state = some (given, left)) :
    ∃ first next later, reply call state = some (first, next) ∧
      repliesOf reply rest next = some (later, left) ∧ given = first :: later := by
  obtain ⟨⟨first, next⟩, hFirst, hThen⟩ := Option.bind_eq_some_iff.mp h
  obtain ⟨⟨later, last⟩, hLater, hSame⟩ := Option.bind_eq_some_iff.mp hThen
  cases hSame
  exact ⟨first, next, later, hFirst, hLater, rfl⟩

/-- A reply and the state after it, from the result of a byte read. -/
def Reply.ofBytes {σ : Type} (read : Except Failure Bytes × σ) : Reply × σ :=
  (.bytes (read.1.mapError Failure.toIo), read.2)

/-- A reply and the state after it, from the result of a read of a character. -/
def Reply.ofChar {σ : Type} (read : Except Failure (Option Char) × σ) : Reply × σ :=
  (.char read.1, read.2)

def FilterStream.reply : Call → FilterStream → Option (Reply × FilterStream)
  | .bytes room, f => (f.readBytes room).map Reply.ofBytes
  | .char, f => f.readChar.map Reply.ofChar

/-- What is left of an output. -/
structure Outflow where
  /-- A failure that was met behind bytes of the same read. The next byte read reports it. -/
  waiting : Option Failure
  /-- The bytes still to be delivered. -/
  bytes : Bytes
  /-- What follows them. -/
  stop : Stop

namespace Outflow

/-- All of an output. -/
def ofRendering (out : Rendering) : Outflow := ⟨none, Utf8.encodeText out.text, out.stop⟩

/-- Nothing is left behind a failure, and everything is refused but the report that may wait. -/
def refusing (waiting : Option Failure) (session : Session) : Outflow :=
  ⟨waiting, [], .failed .poisoned session⟩

/-- A read into a buffer with this much room. It is filled as long as bytes are left. Where they do
not fill it, the read meets what follows them: an end makes it shorter, a failure makes it shorter
and waits, or is reported at once if there are no bytes in front of it. -/
def read (o : Outflow) (room : Nat) : Option (Except Failure Bytes × Outflow) :=
  match o.waiting with
  | some failure => some (.error failure, { o with waiting := none })
  | none =>
    if room ≤ o.bytes.length then
      some (.ok (o.bytes.take room), { o with bytes := o.bytes.drop room })
    else
      match o.stop with
      | .ended _ => some (.ok o.bytes, { o with bytes := [] })
      | .endless => none
      | .failed failure session =>
        if o.bytes = [] then some (.error failure, refusing none session)
        else some (.ok o.bytes, refusing (some failure) session)

/-- A read of the next character, where no character is delivered in part. -/
def char (o : Outflow) : Option (Except Failure (Option Char) × Outflow) :=
  match Utf8.first? o.bytes with
  | some (c, n) => some (.ok (some c), { o with bytes := o.bytes.drop n })
  | none =>
    match o.stop with
    | .ended _ => some (.ok none, o)
    | .endless => none
    | .failed failure session => some (.error failure, refusing o.waiting session)

def reply : Call → Outflow → Option (Reply × Outflow)
  | .bytes room, o => (o.read room).map Reply.ofBytes
  | .char, o => o.char.map Reply.ofChar

/-- Characters are asked for only where the bytes that are left are those of a text. -/
def Admits : List Call → Outflow → Prop
  | [], _ => True
  | call :: rest, o => (call = .char → ∃ text, o.bytes = Utf8.encodeText text) ∧
    ∀ first, o.reply call = some first → Admits rest first.2

variable {stop : Stop} {failures : List IoFailure} {o next : Outflow} {room : Nat}
  {result : Except Failure Bytes}

/-- How a read of bytes goes. The report that waits is made, or the buffer is filled, or the bytes
are too few and the read meets what follows them. -/
inductive Reading (o : Outflow) (room : Nat) : Except Failure Bytes → Outflow → Prop
  | report {failure : Failure} (hWaiting : o.waiting = some failure) :
      Reading o room (.error failure) { o with waiting := none }
  | full (hWaiting : o.waiting = none) (hFits : room ≤ o.bytes.length) :
      Reading o room (.ok (o.bytes.take room)) { o with bytes := o.bytes.drop room }
  | last {session : Session} (hWaiting : o.waiting = none) (hStop : o.stop = .ended session) :
      Reading o room (.ok o.bytes) { o with bytes := [] }
  | broken {failure : Failure} {session : Session} (hWaiting : o.waiting = none)
      (hStop : o.stop = .failed failure session) (hNone : o.bytes = []) :
      Reading o room (.error failure) (refusing none session)
  | late {failure : Failure} {session : Session} (hWaiting : o.waiting = none)
      (hStop : o.stop = .failed failure session) (hSome : o.bytes ≠ []) :
      Reading o room (.ok o.bytes) (refusing (some failure) session)

theorem reading (hRead : o.read room = some (result, next)) : o.Reading room result next := by
  obtain ⟨waiting, bytes, stop⟩ := o
  cases waiting with
  | some failure =>
      cases hRead
      exact .report rfl
  | none =>
      rw [Outflow.read] at hRead
      by_cases hFits : room ≤ bytes.length
      · simp only [if_pos hFits] at hRead
        cases hRead
        exact .full rfl hFits
      · simp only [if_neg hFits] at hRead
        cases stop with
        | ended session =>
            cases hRead
            exact .last rfl rfl
        | endless => cases hRead
        | failed failure session =>
            by_cases hNone : bytes = []
            · simp only [if_pos hNone] at hRead
              cases hRead
              exact .broken rfl rfl hNone
            · simp only [if_neg hNone] at hRead
              cases hRead
              exact .late rfl rfl hNone

/-- Only an output that never ends leaves a read without an answer. -/
theorem endless_of_read (hWaiting : o.waiting = none) (hRead : o.read room = none) :
    o.stop = .endless := by
  rw [read, hWaiting] at hRead
  cases hStop : o.stop with
  | endless => rfl
  | ended session =>
      simp only [hStop] at hRead
      split at hRead <;> cases hRead
  | failed failure session =>
      simp only [hStop] at hRead
      split at hRead
      · cases hRead
      · split at hRead <;> cases hRead

/-- How a filter refuses. -/
def refusal : IoFailure := Failure.poisoned.toIo

/-- What was reported of the end of an output: nothing yet; nothing but refusals while the failure
waits; or the failure, once, and refusals. -/
inductive Reports (stop : Stop) : List IoFailure → Outflow → Prop
  | notYet {bytes : Bytes} : Reports stop [] ⟨none, bytes, stop⟩
  | waits {failure : Failure} {session : Session} {m : Nat}
      (hStop : stop = .failed failure session) :
      Reports stop (List.replicate m refusal) (refusing (some failure) session)
  | done {failure : Failure} {session : Session} {m n : Nat}
      (hStop : stop = .failed failure session) :
      Reports stop (List.replicate m refusal ++ failure.toIo :: List.replicate n refusal)
        (refusing none session)

/-- One more refusal while the failure waits. -/
theorem Reports.waits_succ {failure : Failure} {session : Session} {m : Nat}
    (hStop : stop = .failed failure session) :
    Reports stop (List.replicate m refusal ++ [refusal]) (refusing (some failure) session) := by
  rw [← List.replicate_succ']
  exact .waits hStop

/-- One more refusal behind the failure. -/
theorem Reports.done_succ {failure : Failure} {session : Session} {m n : Nat}
    (hStop : stop = .failed failure session) :
    Reports stop
      (List.replicate m refusal ++ failure.toIo :: List.replicate n refusal ++ [refusal])
      (refusing none session) := by
  rw [List.append_assoc, List.cons_append, ← List.replicate_succ']
  exact .done hStop

/-- A read of bytes adds its report. -/
theorem Reports.read (h : Reports stop failures o) (hRead : o.read room = some (result, next)) :
    Reports stop (failures ++ (Reply.ofBytes (result, next)).1.failure?.toList) next := by
  cases h with
  | notYet =>
      cases reading hRead with
      | report hWaiting => cases hWaiting
      | full => exact .notYet
      | last => exact .notYet
      | broken _ hStop => exact .done (m := 0) (n := 0) hStop
      | late _ hStop => exact .waits (m := 0) hStop
  | waits hStop =>
      cases hRead
      exact .done (n := 0) hStop
  | done hStop =>
      cases room with
      | zero =>
          cases hRead
          rw [show Option.toList _ = [] from rfl, List.append_nil]
          exact .done hStop
      | succ room =>
          cases hRead
          exact .done_succ hStop

/-- A read of a character adds its report. -/
theorem Reports.char (h : Reports stop failures o) {result : Except Failure (Option Char)}
    (hRead : o.char = some (result, next)) :
    Reports stop (failures ++ (Reply.char result).failure?.toList) next := by
  cases h with
  | notYet =>
      rename_i bytes
      rw [Outflow.char] at hRead
      cases hFirst : Utf8.first? bytes with
      | some found =>
          simp only [hFirst] at hRead
          cases hRead
          exact .notYet
      | none =>
          simp only [hFirst] at hRead
          cases stop with
          | ended session =>
              cases hRead
              exact .notYet
          | endless => cases hRead
          | failed failure session =>
              cases hRead
              exact .done (m := 0) (n := 0) rfl
  | waits hStop =>
      cases hRead
      exact .waits_succ hStop
  | done hStop =>
      cases hRead
      exact .done_succ hStop

theorem Reports.reply (h : Reports stop failures o) {call : Call} {first : Reply}
    (hReply : o.reply call = some (first, next)) :
    Reports stop (failures ++ first.failure?.toList) next := by
  cases call with
  | bytes room =>
      obtain ⟨⟨result, after⟩, hRead, hSame⟩ := Option.map_eq_some_iff.mp hReply
      cases hSame
      exact h.read hRead
  | char =>
      obtain ⟨⟨result, after⟩, hRead, hSame⟩ := Option.map_eq_some_iff.mp hReply
      cases hSame
      exact h.char hRead

theorem Reports.replies (h : Reports stop failures o) {calls : List Call} {given : List Reply}
    {left : Outflow} (hRun : repliesOf Outflow.reply calls o = some (given, left)) :
    Reports stop (failures ++ given.filterMap Reply.failure?) left := by
  induction calls generalizing failures o given with
  | nil =>
      cases hRun
      rw [List.filterMap_nil, List.append_nil]
      exact h
  | cons call rest ih =>
      obtain ⟨first, next, later, hFirst, hLater, rfl⟩ := of_repliesOf_cons hRun
      have hReports := ih (h.reply hFirst) hLater
      rw [List.append_assoc] at hReports
      rw [List.filterMap_cons]
      cases hFailure : first.failure? <;> rw [hFailure] at hReports <;> exact hReports

/-- A read of bytes delivers what it takes. -/
theorem content_read (hRead : o.read room = some (result, next)) :
    (Reply.ofBytes (result, next)).1.content ++ next.bytes = o.bytes := by
  cases reading hRead with
  | report => rfl
  | full => exact List.take_append_drop room o.bytes
  | last => exact List.append_nil o.bytes
  | broken _ _ hNone => exact hNone.symm
  | late => exact List.append_nil o.bytes

/-- So does a read of a character. -/
theorem content_char {text : Text} (hBytes : o.bytes = Utf8.encodeText text)
    {result : Except Failure (Option Char)} (hRead : o.char = some (result, next)) :
    (Reply.char result).content ++ next.bytes = o.bytes := by
  obtain ⟨waiting, bytes, stop⟩ := o
  cases text with
  | cons c text =>
      obtain rfl : bytes = Utf8.encode c ++ Utf8.encodeText text := hBytes
      rw [Outflow.char, Utf8.first?_encode] at hRead
      cases hRead
      exact congrArg (Utf8.encode c ++ ·) List.drop_left
  | nil =>
      obtain rfl : bytes = [] := hBytes
      cases stop with
      | ended session =>
          cases hRead
          rfl
      | endless => cases hRead
      | failed failure session =>
          cases hRead
          rfl

theorem content_reply {call : Call} (hWhole : call = .char → ∃ text, o.bytes = Utf8.encodeText text)
    {first : Reply} (hReply : o.reply call = some (first, next)) :
    first.content ++ next.bytes = o.bytes := by
  cases call with
  | bytes room =>
      obtain ⟨⟨result, after⟩, hRead, hSame⟩ := Option.map_eq_some_iff.mp hReply
      cases hSame
      exact content_read hRead
  | char =>
      obtain ⟨⟨result, after⟩, hRead, hSame⟩ := Option.map_eq_some_iff.mp hReply
      obtain ⟨text, hBytes⟩ := hWhole rfl
      cases hSame
      exact content_char hBytes hRead

theorem content_replies {calls : List Call} (hAdmits : o.Admits calls) {given : List Reply}
    {left : Outflow} (hRun : repliesOf Outflow.reply calls o = some (given, left)) :
    given.flatMap Reply.content ++ left.bytes = o.bytes := by
  induction calls generalizing o given with
  | nil =>
      cases hRun
      rfl
  | cons call rest ih =>
      obtain ⟨hWhole, hRest⟩ := hAdmits
      obtain ⟨first, next, later, hFirst, hLater, rfl⟩ := of_repliesOf_cons hRun
      rw [List.flatMap_cons, List.append_assoc, ih (hRest (first, next) hFirst) hLater]
      exact content_reply hWhole hFirst

/-- Nothing is left, and nothing failed. -/
structure Complete (o : Outflow) : Prop where
  waiting : o.waiting = none
  bytes : o.bytes = []
  stop : ∃ session, o.stop = .ended session

/-- Where the output is complete, every call is told so, again and again. -/
theorem Complete.reply (h : o.Complete) (call : Call) :
    ∃ reply, o.reply call = some (reply, o) ∧ reply.content = [] ∧ reply.failure? = none := by
  obtain ⟨waiting, bytes, stop⟩ := o
  obtain ⟨hWaiting, hBytes, session, hStop⟩ := h
  cases hWaiting
  cases hBytes
  cases hStop
  cases call with
  | bytes room =>
      cases room with
      | zero => exact ⟨_, rfl, rfl, rfl⟩
      | succ room => exact ⟨_, rfl, rfl, rfl⟩
  | char => exact ⟨_, rfl, rfl, rfl⟩

/-- A read that has room and delivers nothing finds the output complete. -/
theorem complete_of_read (hRead : o.read (room + 1) = some (.ok [], next)) : o.Complete := by
  generalize hResult : Except.ok [] = result at hRead
  cases reading hRead with
  | report => cases hResult
  | full _ hFits =>
      have hLength := congrArg List.length (Except.ok.inj hResult)
      rw [List.length_take, Nat.min_eq_left hFits] at hLength
      cases hLength
  | last hWaiting hStop => exact ⟨hWaiting, (Except.ok.inj hResult).symm, _, hStop⟩
  | broken => cases hResult
  | late _ _ hSome => exact absurd (Except.ok.inj hResult).symm hSome

/-- Once the failure was reported, everything is refused but a read into no room. -/
theorem reply_refusing (session : Session) {call : Call} (hRoom : call ≠ .bytes 0) :
    ∃ reply, (refusing none session).reply call = some (reply, refusing none session) ∧
      reply.failure? = some refusal := by
  cases call with
  | bytes room =>
      cases room with
      | zero => exact absurd rfl hRoom
      | succ room => exact ⟨_, rfl, rfl⟩
  | char => exact ⟨_, rfl, rfl⟩

/-- A failure was met and waits. The next read of bytes reports it, whatever its room; a read of a
character is refused and does not take the report away. -/
structure Waits (o : Outflow) (failure : Failure) (session : Session) : Prop where
  bytes : ∀ room, o.read room = some (.error failure, refusing none session)
  char : o.char = some (.error .poisoned, o)

/-- A failure comes next. The first call that asks for a further character reports it; a read into no
room does not. -/
structure Meets (o : Outflow) (failure : Failure) (session : Session) : Prop where
  bytes : ∀ room, o.read (room + 1) = some (.error failure, refusing none session)
  noRoom : o.read 0 = some (.ok [], o)
  char : o.char = some (.error failure, refusing none session)

/-- Behind the bytes in front of a failure, it was reported, or it waits, or it comes next. -/
theorem Reports.due (h : Reports stop failures o) {failure : Failure} {session : Session}
    (hStop : stop = .failed failure session) (hBytes : o.bytes = []) :
    o = refusing none session ∨ o.Waits failure session ∨ o.Meets failure session := by
  cases hStop
  cases h with
  | notYet =>
      cases hBytes
      exact .inr (.inr ⟨fun room => rfl, rfl, rfl⟩)
  | waits hStop =>
      cases hStop
      exact .inr (.inl ⟨fun room => rfl, rfl⟩)
  | done hStop =>
      cases hStop
      exact .inl rfl

/-- What replies make of an output of which this is left. -/
structure Delivers (out : Rendering) (given : List Reply) (left : Outflow) : Prop where
  /-- The bytes come in order, none is lost and none comes twice. -/
  bytes : given.flatMap Reply.content ++ left.bytes = Utf8.encodeText out.text
  /-- A failure is reported behind all bytes, and once. -/
  reports : Reports out.stop (given.filterMap Reply.failure?) left
  /-- If it was not reported yet, the next call does so that can. -/
  due : ∀ failure session, out.stop = .failed failure session → left.bytes = [] →
    left = refusing none session ∨ left.Waits failure session ∨ left.Meets failure session
  /-- Then everything is refused but a read into no room. -/
  refused : ∀ session, left = refusing none session → ∀ call, call ≠ .bytes 0 →
    ∃ reply, left.reply call = some (reply, left) ∧ reply.failure? = some refusal
  /-- A read that has room and delivers nothing finds the output complete. -/
  complete : ∀ room next, left.read (room + 1) = some (.ok [], next) → left.Complete
  /-- From then on every call is told so. -/
  ended : left.Complete → ∀ call, ∃ reply,
    left.reply call = some (reply, left) ∧ reply.content = [] ∧ reply.failure? = none

theorem delivers_of_replies {out : Rendering} {calls : List Call}
    (hAdmits : (ofRendering out).Admits calls) {given : List Reply} {left : Outflow}
    (hRun : repliesOf Outflow.reply calls (ofRendering out) = some (given, left)) :
    Delivers out given left := by
  have hReports : Reports out.stop ([] ++ given.filterMap Reply.failure?) left :=
    Reports.notYet.replies hRun
  rw [List.nil_append] at hReports
  constructor
  case bytes => exact content_replies hAdmits hRun
  case reports => exact hReports
  case due =>
    intro failure session hStop hBytes
    exact hReports.due hStop hBytes
  case refused =>
    intro session hLeft call hRoom
    rw [hLeft]
    exact reply_refusing session hRoom
  case complete =>
    intro room next hRead
    exact complete_of_read hRead
  case ended =>
    intro hComplete call
    exact hComplete.reply call

end Outflow

end Placeholder
