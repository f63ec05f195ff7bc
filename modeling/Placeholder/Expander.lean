import Placeholder.Chain
import Placeholder.Markup
import Placeholder.ValueSource
/-!
Expansion of expressions. The sources are asked in order and the first value wins; a value that
itself opens a placeholder is expanded again, with the expression on the chain. What was asked, which
frames were opened and which references went in a circle is recorded as a list of events.

A source may have ever new values for what its own values ask. An expansion that never ends for such
a reason gives `none`; nothing else does.
-/
namespace Placeholder

/-- Something that happened during an expansion. -/
inductive Event where
  /-- A frame was opened; the chain is shown with it. -/
  | opened (frames : List Text)
  /-- The source at this place was asked for the expression. -/
  | asked (source : Nat) (expression : Text)
  /-- An expression was met that is being expanded; the frames lead from it back to it. -/
  | circular (path : List Text)
deriving DecidableEq, Repr

/-- The frames of a circular reference. -/
def Event.circle? : Event → Option (List Text)
  | circular path => some path
  | _ => none

/-- Changes the final answer to a top-level expression, or leaves it alone. -/
abbrev Finisher := Text → Text → Option Text

/-- What is asked, how values are read, and what is done to final answers. -/
structure Expander where
  sources : List ValueSource
  finishers : List Finisher
  markup : Markup
  /-- Whether values are expanded again. -/
  recursive : Bool
  /-- Whether top-level answers are remembered. -/
  remembers : Bool

/-- What an expansion gives: its result, the chain afterwards and what happened. -/
structure Expansion (α : Type) where
  result : Except Failure α
  chain : Chain
  events : List Event

/-- Asks the sources in order, counting from `place`, until one has a value or fails. -/
def askInOrder (expression : Text) : Nat → List ValueSource → Except Failure (Option Text) × List Event
  | _, [] => (.ok none, [])
  | place, source :: rest =>
    match source.lookup expression with
    | .ok none =>
      let later := askInOrder expression (place + 1) rest
      (later.1, .asked place expression :: later.2)
    | answer => (answer, [.asked place expression])

namespace Expander

/-- Asks all sources in order. -/
def ask (x : Expander) (expression : Text) : Except Failure (Option Text) × List Event :=
  askInOrder expression 0 x.sources

/-- The segments of a value that is to be expanded again; a value that opens no placeholder, or is
not to be expanded, is one piece. -/
def valueSegments (x : Expander) (value : Text) : List Segment :=
  if x.recursive && x.markup.delimiters.opensIn value then x.markup.segments value
  else [.literal value]

mutual

/-- The answer to an expression below the top level, or at the top level before the finishers. It is
absent when no source has a value, and when the expression is being expanded already. -/
def resolveIn (x : Expander) (chain : Chain) (expression : Text) :
    Option (Expansion (Option Text)) :=
  if chain.has expression then
    some ⟨.ok none, chain, [.circular (chain.cycle expression)]⟩
  else
    let opened := chain.start expression
    match x.ask expression with
    | (.error failure, asked) =>
      some ⟨.error failure, opened.finish expression, .opened opened.frames :: asked⟩
    | (.ok none, asked) =>
      some ⟨.ok none, opened.finish expression, .opened opened.frames :: asked⟩
    | (.ok (some value), asked) => do
      let inner ← x |>.expandIn opened (x.valueSegments value)
      return ⟨inner.result.map some, inner.chain.finish expression,
        .opened opened.frames :: (asked ++ inner.events)⟩
partial_fixpoint

/-- The segments with every placeholder answered from inside the frames of the chain. A placeholder
without an answer stays as it was written, and a failure ends the expansion. -/
def expandIn (x : Expander) (chain : Chain) (segments : List Segment) : Option (Expansion Text) :=
  match segments with
  | [] => some ⟨.ok [], chain, []⟩
  | .literal text :: rest => do
    let later ← x |>.expandIn chain rest
    return ⟨later.result.map (text ++ ·), later.chain, later.events⟩
  | .placeholder delimiter expression :: rest => do
    let answer ← x |>.resolveIn chain expression
    match answer.result with
    | .error failure => return ⟨.error failure, answer.chain, answer.events⟩
    | .ok value =>
      let later ← x |>.expandIn answer.chain rest
      return ⟨later.result.map ((value.getD (delimiter.wrap expression)) ++ ·), later.chain,
        answer.events ++ later.events⟩
partial_fixpoint

end

end Expander

end Placeholder
