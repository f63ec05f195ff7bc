import Placeholder.Expander
/-!
The order in which sources are asked. Sources that cannot fail are lookups, and of several lookups the
first one counts that has a value.
-/
namespace Placeholder

/-- Of sources that cannot fail the first answer counts; where there is none, the sources behind them
are asked. -/
theorem askInOrder_ofAnswers (answers : List (Text → Option Text)) (expression : Text) (place : Nat)
    (rest : List ValueSource) :
    (askInOrder expression place (answers.map ValueSource.ofAnswers ++ rest)).1 =
      match answers.findSome? (· expression) with
      | some value => .ok (some value)
      | none => (askInOrder expression (place + answers.length) rest).1 := by
  induction answers generalizing place with
  | nil => rfl
  | cons answer later ih =>
      have hHere : (ValueSource.ofAnswers answer).lookup expression = .ok (answer expression) := rfl
      rw [List.map_cons, List.cons_append, askInOrder, hHere, List.findSome?_cons, List.length_cons,
        Nat.add_comm later.length 1, ← Nat.add_assoc]
      cases answer expression with
      | none => exact ih (place + 1)
      | some value => rfl

/-- Behind prefixes a lookup is asked for what follows the prefix. -/
theorem prefixed_ofAnswers (prefixes : List Text) (answer : Text → Option Text) :
    ValueSource.prefixed prefixes false (.ofAnswers answer) =
      .ofAnswers fun expression => (dropAccepted prefixes expression).bind answer := by
  rw [ValueSource.prefixed, ValueSource.ofAnswers]
  congr 1
  funext expression
  show _ = Except.ok ((dropAccepted prefixes expression).bind answer)
  cases dropAccepted prefixes expression <;> rfl

end Placeholder
