import Placeholder.Failure
import Placeholder.Table
/-!
Where values come from. A source answers an expression with a value, with nothing, or with a
failure, and it always answers the same. It may have any number of values to give away.
-/
namespace Placeholder

/-- A source of values, by what it answers. -/
structure ValueSource where
  lookup : Text → Except Failure (Option Text)

/-- `expression` without the first of the `prefixes` that it starts with; nothing if there is none. -/
def dropAccepted (prefixes : List Text) (expression : Text) : Option Text :=
  prefixes.findSome? fun accepted => accepted.isPrefixOf? expression

namespace ValueSource

/-- A source that never fails, from its answers. -/
def ofAnswers (answer : Text → Option Text) : ValueSource where
  lookup expression := .ok (answer expression)

/-- Answers the keys of a table. -/
def ofTable (table : Table) : ValueSource :=
  ofAnswers table.get?

instance : Inhabited ValueSource := ⟨ofTable .empty⟩

/-- Under this prefix a source of environment variables answers. -/
def environmentPrefix : Text := ['e', 'n', 'v', '.']

/-- Answers `env.NAME` with the variable `NAME`. -/
def ofEnvironment (vars : Table) : ValueSource :=
  ofAnswers fun expression => (environmentPrefix.isPrefixOf? expression).bind vars.get?

/-- Answers one expression only. -/
def single (expression response : Text) : ValueSource :=
  ofAnswers fun asked => if asked = expression then some response else none

/-- Answers every expression alike. -/
def constant (value : Text) : ValueSource :=
  ofAnswers fun _ => some value

/-- Fails for one expression and answers no other. -/
def failing (expression reason : Text) : ValueSource where
  lookup asked := if asked = expression then .error (.lookup expression reason) else .ok none

/-- Asks `inner`, but only for expressions that start with one of the `prefixes`, and without it.
With `unprefixed`, all other expressions are passed on as they are. -/
def prefixed (prefixes : List Text) (unprefixed : Bool) (inner : ValueSource) : ValueSource where
  lookup expression :=
    match dropAccepted prefixes expression with
    | some path => inner.lookup path
    | none => if unprefixed then inner.lookup expression else .ok none

end ValueSource

end Placeholder
