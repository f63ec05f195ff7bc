import Placeholder.Filter.Options
import Placeholder.Filter.Sight
import Placeholder.Session
/-!
The streaming filter. Each scan marks the input, looks far enough ahead to decide what the
characters there turn into, goes back and steps over exactly the characters decided on. It never
looks further than the longest escape string, expression and tokens together. Unknown expressions
and placeholders that are never closed pass through as they are; after a failure the filter is
poisoned and every further read fails. A read that needs an expansion which never ends gives `none`.
-/
namespace Placeholder

/-- What a scan decided about the current position. -/
inductive Decision where
  /-- The input has no more characters. -/
  | ended
  /-- The first characters of the window pass through. -/
  | pass (text : Text)
  /-- `text` takes the place of the next `consumed` characters. -/
  | replace (text : Text) (consumed : Nat)
deriving DecidableEq

/-- A filter over an input. -/
structure FilterStream where
  input : Lookahead
  expander : Expander
  session : Session
  multiLine : Bool
  wholeToken : Bool
  /-- How many characters one scan may look ahead. -/
  reach : Nat
  /-- Characters decided on and not handed out yet. -/
  pending : Text
  /-- Bytes of a character that was handed out in part. -/
  leftover : Bytes
  ended : Bool
  poisoned : Bool
  /-- A failure that the next byte read reports. -/
  deferred : Option Failure

namespace FilterStream

/-- A filter with these switches. The expander reads values with the same markup. -/
def make (options : FilterOptions) (expander : Expander) (session : Session) (reader : TextReader) :
    Except Failure FilterStream := do
  let markup ← options.measured
  let reach := options.reach markup
  return {
    input := .ofReader reader reach
    expander := { expander with markup := markup }
    session := session
    multiLine := options.multiLine
    wholeToken := options.wholeToken
    reach := reach
    pending := []
    leftover := []
    ended := false
    poisoned := false
    deferred := none }

/-- The text that takes the place of a placeholder; nothing if it stays as it is. -/
def answer (f : FilterStream) (token expression : Text) :
    Option (Except Failure (Option Text) × Session) :=
  if f.wholeToken then do
    let filled ← f.expander.interpolate f.session token
    return (filled.1.map fun text => if text = token then none else some text, filled.2)
  else f.expander.resolve f.session expression

/-- Decides what the characters here turn into. -/
def decide (f : FilterStream) : Option (Except Failure Decision × FilterStream) :=
  match Sight.ofInput f.expander.markup f.multiLine f.input with
  | (.error failure, input) => some (.error failure, { f with input := input })
  | (.ok .ended, input) => some (.ok .ended, { f with input := input })
  | (.ok (.literal text), input) => some (.ok (.pass text), { f with input := input })
  | (.ok (.escaped text consumed), input) =>
    some (.ok (.replace text consumed), { f with input := input })
  | (.ok (.placeholder token expression), input) => do
    let answered ← f.answer token expression
    return (answered.1.map fun text => .replace (text.getD token) token.length,
      { f with input := input, session := answered.2 })

/-- Goes back to where the scan began, steps over `count` characters and has `text` handed out. -/
def settle (f : FilterStream) (text : Text) (count : Nat) : Except Failure Unit × FilterStream :=
  match f.input.consume count with
  | (.error failure, input) => (.error failure, { f with input := input })
  | (.ok (), input) => (.ok (), { f with input := input, pending := text })

/-- Makes a decision good. -/
def carryOut (f : FilterStream) : Except Failure Decision → Except Failure Unit × FilterStream
  | .error failure => (.error failure, f)
  | .ok .ended => (.ok (), { f with ended := true })
  | .ok (.pass text) => f.settle text text.length
  | .ok (.replace text consumed) => f.settle text consumed

/-- One scan: decides, and makes the decision good. -/
def scan (f : FilterStream) : Option (Except Failure Unit × FilterStream) := do
  let decided ← { f with input := f.input.mark f.reach }.decide
  return decided.2.carryOut decided.1

/-- The next character of a filter that has not failed. As long as nothing is pending it scans. -/
def next (f : FilterStream) : Option (Except Failure (Option Char) × FilterStream) :=
  match f.pending with
  | c :: rest => some (.ok (some c), { f with pending := rest })
  | [] =>
    if f.ended then some (.ok none, f)
    else do
      match ← f.scan with
      | (.error failure, f) => return (.error failure, { f with poisoned := true })
      | (.ok (), f) => f |>.next
partial_fixpoint

/-- The next character of the output, or nothing once the input is used up. -/
def readChar (f : FilterStream) : Option (Except Failure (Option Char) × FilterStream) :=
  if f.poisoned then some (.error .poisoned, f) else f.next

/-- The next byte of the output, or nothing once the input is used up. -/
def readByte (f : FilterStream) : Option (Except Failure (Option UInt8) × FilterStream) :=
  match f.leftover with
  | byte :: rest => some (.ok (some byte), { f with leftover := rest })
  | [] => do
    match ← f.readChar with
    | (.error failure, f) => return (.error failure, f)
    | (.ok none, f) => return (.ok none, f)
    | (.ok (some c), f) =>
      match Utf8.encode c with
      | [] => return (.ok none, f)
      | byte :: rest => return (.ok (some byte), { f with leftover := rest })

/-- Reads at most `count` bytes after those in `seen` (the latest first). A failure that comes after
some bytes waits for the next call. -/
def readBytesOnto : Nat → Bytes → FilterStream → Option (Except Failure Bytes × FilterStream)
  | 0, seen, f => some (.ok seen.reverse, f)
  | n + 1, seen, f => do
    match ← f.readByte with
    | (.ok (some byte), f) => readBytesOnto n (byte :: seen) f
    | (.ok none, f) => return (.ok seen.reverse, f)
    | (.error failure, f) =>
      if seen.isEmpty then return (.error failure, f)
      else return (.ok seen.reverse, { f with deferred := some failure })

/-- Reads at most `count` bytes. None at all means that the output is complete. -/
def readBytes (f : FilterStream) (count : Nat) : Option (Except Failure Bytes × FilterStream) :=
  match f.deferred with
  | some failure => some (.error failure, { f with deferred := none })
  | none => readBytesOnto count [] f

/-- Everything up to the end or the first failure, after the characters in `seen` (the latest
first). -/
def collectOnto (seen : Text) (f : FilterStream) : Option ((Text × Option Failure) × FilterStream) := do
  match ← f.readChar with
  | (.error failure, f) => return ((seen.reverse, some failure), f)
  | (.ok none, f) => return ((seen.reverse, none), f)
  | (.ok (some c), f) => f |>.collectOnto (c :: seen)
partial_fixpoint

/-- All characters up to the end or the first failure. -/
def collect (f : FilterStream) : Option ((Text × Option Failure) × FilterStream) :=
  collectOnto [] f

/-- How many bytes a copy asks for at a time. -/
def portion : Nat := 8192

/-- Copies what reads of `portion` bytes give, after the bytes in `seen` (the latest first), until one of
them gives none or fails. -/
def copyOnto (seen : Bytes) (f : FilterStream) :
    Option ((Bytes × Option Failure) × FilterStream) := do
  match ← f.readBytes portion with
  | (.error failure, f) => return ((seen.reverse, some failure), f)
  | (.ok [], f) => return ((seen.reverse, none), f)
  | (.ok bytes, f) => f |>.copyOnto (bytes.reverse ++ seen)
partial_fixpoint

/-- Copies the output, and tells of the failure that stopped it. -/
def copy (f : FilterStream) : Option ((Bytes × Option Failure) × FilterStream) :=
  copyOnto [] f

end FilterStream

/-- Filters a text in memory, on an empty chain. -/
def filterText (options : FilterOptions) (expander : Expander) (session : Session) (text : Text) :
    Option (Except Failure Text × Session) :=
  match FilterStream.make options expander session.onEmptyChain
      (.ofFeed (.ofBytes (Utf8.encodeText text))) with
  | .error failure => some (.error failure, session.onEmptyChain)
  | .ok f => do
    match ← f.collect with
    | ((text, none), f) => return (.ok text, f.session)
    | ((_, some failure), f) => return (.error failure, f.session)

end Placeholder
