import Placeholder.Expander
/-!
An expander at work. A session keeps what outlives one question: the chain that a caller may have
opened frames on, the remembered answers and the events so far. Finishers and remembered answers
concern the top level only, that is questions asked on an empty chain. `events_record` says how the
events grow. A question whose expansion never ends gives `none`.
-/
namespace Placeholder

/-- The state between two questions to an expander. -/
structure Session where
  chain : Chain
  answers : Table
  /-- What happened so far, the latest first. -/
  log : List Event

namespace Session

/-- What happened so far, in order. -/
def events (s : Session) : List Event := s.log.reverse

/-- Nothing was asked yet. -/
def fresh (chain : Chain) : Session := ⟨chain, .empty, []⟩

/-- The remembered answers dropped. -/
def forget (s : Session) : Session := { s with answers := .empty }

/-- The session with all frames closed and no prefixes accepted. -/
def onEmptyChain (s : Session) : Session := { s with chain := .empty }

/-- The session after these events. -/
def record (s : Session) (events : List Event) : Session :=
  { s with log := events.reverseAux s.log }

@[simp] theorem events_fresh (chain : Chain) : (fresh chain).events = [] := rfl

@[simp] theorem events_record (s : Session) (events : List Event) :
    (s.record events).events = s.events ++ events := by
  simp [Session.events, record, List.reverseAux_eq]

end Session

namespace Expander

/-- The value after every finisher has seen it once, in order. -/
def finish (x : Expander) (expression value : Text) : Text :=
  x.finishers.foldl (fun current finisher => (finisher expression current).getD current) value

/-- The answer remembered for a top-level expression. -/
def remembered? (x : Expander) (s : Session) (expression : Text) : Option Text :=
  if x.remembers && s.chain.isEmpty then s.answers.get? expression else none

theorem remembered?_of_empty (x : Expander) {s : Session} (h : s.answers = .empty)
    (expression : Text) : x.remembered? s expression = none := by
  rw [remembered?, h, Table.get?_empty, ite_self]

/-- What a session makes of an expansion. At the top level the finishers see the answer, and it is
remembered if answers are. -/
def conclude (x : Expander) (s : Session) (expression : Text) (inner : Expansion (Option Text)) :
    Except Failure (Option Text) × Session :=
  let after := { s.record inner.events with chain := inner.chain }
  match inner.result with
  | .ok (some value) =>
    if s.chain.isEmpty then
      let final := x.finish expression value
      (.ok (some final),
        if x.remembers then { after with answers := after.answers.insert expression final }
        else after)
    else (.ok (some value), after)
  | result => (result, after)

/-- Answers one expression. -/
def resolve (x : Expander) (s : Session) (expression : Text) :
    Option (Except Failure (Option Text) × Session) :=
  match x.remembered? s expression with
  | some answer => some (.ok (some answer), s)
  | none => (x.resolveIn s.chain expression).map (x.conclude s expression)

theorem resolve_of_empty (x : Expander) {s : Session} (h : s.answers = .empty) (expression : Text) :
    x.resolve s expression = (x.resolveIn s.chain expression).map (x.conclude s expression) := by
  rw [resolve, x.remembered?_of_empty h]

/-- The segments put together again, each placeholder replaced by its answer or left as written. -/
def fillSegments (x : Expander) (s : Session) :
    List Segment → Option (Except Failure Text × Session)
  | [] => some (.ok [], s)
  | .literal text :: rest => do
    let later ← x.fillSegments s rest
    return (later.1.map (text ++ ·), later.2)
  | .placeholder delimiter expression :: rest => do
    match ← x.resolve s expression with
    | (.error failure, after) => return (.error failure, after)
    | (.ok answer, after) =>
      let later ← x.fillSegments after rest
      return (later.1.map ((answer.getD (delimiter.wrap expression)) ++ ·), later.2)

/-- Replaces every placeholder of a text. -/
def interpolate (x : Expander) (s : Session) (text : Text) :
    Option (Except Failure Text × Session) :=
  x.fillSegments s (x.markup.segments text)

end Expander

end Placeholder
