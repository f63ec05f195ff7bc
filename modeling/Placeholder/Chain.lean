import Placeholder.Text
/-!
The chain of expressions that are being expanded, outermost first. An expression that is on it is
left alone, so values that refer to each other come to an end. With accepted prefixes, `version`
and `project.version` are one frame.
-/
namespace Placeholder

/-- The frames being expanded, and the prefixes under which a key may also be written. -/
structure Chain where
  prefixes : List Text
  frames : List Text
deriving DecidableEq

namespace Chain

/-- No frame is open and no prefix is accepted. -/
def empty : Chain := ⟨[], []⟩

/-- No frame is open. -/
def withPrefixes (prefixes : List Text) : Chain := ⟨prefixes, []⟩

/-- The key of an expression: the expression without the first listed prefix that it starts with. -/
def key (chain : Chain) (expression : Text) : Text :=
  (chain.prefixes.findSome? fun accepted => accepted.isPrefixOf? expression).getD expression

/-- Whether the expression is being expanded. -/
def has (chain : Chain) (expression : Text) : Bool :=
  chain.frames.contains (chain.key expression)

/-- Opens a frame for the expression. -/
def start (chain : Chain) (expression : Text) : Chain :=
  { chain with frames := chain.frames ++ [chain.key expression] }

/-- Closes the innermost frame of the expression, if there is one. -/
def finish (chain : Chain) (expression : Text) : Chain :=
  { chain with frames := (chain.frames.reverse.erase (chain.key expression)).reverse }

/-- The frames that lead from the first one of the expression back to it; none if it has no frame. -/
def cycle (chain : Chain) (expression : Text) : List Text :=
  if chain.has expression then
    chain.frames.dropWhile (· != chain.key expression) ++ [chain.key expression]
  else []

/-- Whether no frame is open. -/
def isEmpty (chain : Chain) : Bool :=
  chain.frames.isEmpty

@[simp] theorem key_start (chain : Chain) (opened expression : Text) :
    (chain.start opened).key expression = chain.key expression := rfl

/-- Closing a frame right after opening it changes nothing. -/
theorem finish_start (chain : Chain) (expression : Text) :
    (chain.start expression).finish expression = chain := by
  simp [start, finish, key]

end Chain

end Placeholder
