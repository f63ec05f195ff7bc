import Placeholder.Proofs.Expansion.Ending
import Placeholder.Proofs.Expansion.Rescanning
import Placeholder.Proofs.Expansion.Restoring
/-!
Remembered answers make no difference to what is answered. `answerOn` and `fillOn` say what an
expander answers on a chain when nothing is remembered. A session whose remembered answers are all of
that kind answers the same, on the same chain, and remembers only such answers itself.
-/
namespace Placeholder

theorem Chain.eq_withPrefixes {chain : Chain} (h : chain.isEmpty = true) :
    chain = .withPrefixes chain.prefixes := by
  obtain ⟨prefixes, frames⟩ := chain
  obtain rfl : frames = [] := List.isEmpty_iff.mp h
  rfl

namespace Expander

/-- The answer to an expression on a chain when nothing is remembered; on an empty chain, what the
finishers make of it. -/
def answerOn (x : Expander) (chain : Chain) (expression : Text) :
    Option (Except Failure (Option Text)) :=
  (x.resolveIn chain expression).map fun inner =>
    inner.result.map (Option.map fun value =>
      if chain.isEmpty then x.finish expression value else value)

/-- The segments put together on a chain when nothing is remembered. -/
def fillOn (x : Expander) (chain : Chain) : List Segment → Option (Except Failure Text)
  | [] => some (.ok [])
  | .literal text :: rest => (x.fillOn chain rest).map (Except.map (text ++ ·))
  | .placeholder delimiter expression :: rest =>
    match x.answerOn chain expression with
    | none => none
    | some (.error failure) => some (.error failure)
    | some (.ok answer) =>
      (x.fillOn chain rest).map (Except.map ((answer.getD (delimiter.wrap expression)) ++ ·))

/-- Every remembered answer is the one that would be given if nothing were remembered. -/
def Faithful (x : Expander) (prefixes : List Text) (answers : Table) : Prop :=
  ∀ expression value, answers.get? expression = some value →
    x.answerOn (.withPrefixes prefixes) expression = some (.ok (some value))

variable {x : Expander} {s : Session}

theorem faithful_empty (x : Expander) (prefixes : List Text) : x.Faithful prefixes .empty := by
  intro expression value hGet
  cases hGet

theorem Faithful.insert {prefixes : List Text} {answers : Table} {expression value : Text}
    (h : x.Faithful prefixes answers)
    (hAnswer : x.answerOn (.withPrefixes prefixes) expression = some (.ok (some value))) :
    x.Faithful prefixes (answers.insert expression value) := by
  intro other found hGet
  rw [Table.get?_insert] at hGet
  split at hGet
  · rename_i hSame
    rw [hSame, hAnswer, Option.some.inj hGet]
  · exact h other found hGet

/-! Whether answers are remembered is not asked for. -/

theorem answerOn_remembering (x : Expander) (remembers : Bool) :
    ({ x with remembers := remembers } : Expander).answerOn = x.answerOn := by
  funext chain expression
  have hSame := resolveIn_congr (x := x) (y := { x with remembers := remembers }) rfl rfl rfl
  rw [answerOn, answerOn, hSame]
  rfl

theorem fillOn_remembering (x : Expander) (remembers : Bool) (chain : Chain)
    (segments : List Segment) :
    ({ x with remembers := remembers } : Expander).fillOn chain segments =
      x.fillOn chain segments := by
  induction segments with
  | nil => rfl
  | cons segment rest ih =>
      cases segment with
      | literal text => rw [fillOn, fillOn, ih]
      | placeholder d expression => rw [fillOn, fillOn, ih, answerOn_remembering]

theorem faithful_remembering (x : Expander) (remembers : Bool) :
    ({ x with remembers := remembers } : Expander).Faithful = x.Faithful := by
  funext prefixes answers
  rw [Faithful, Faithful, answerOn_remembering]

theorem fst_conclude (x : Expander) (s : Session) (expression : Text)
    (inner : Expansion (Option Text)) :
    (x.conclude s expression inner).1 = inner.result.map (Option.map fun value =>
      if s.chain.isEmpty then x.finish expression value else value) := by
  obtain ⟨result, chain, events⟩ := inner
  rw [conclude]
  cases result with
  | error failure => rfl
  | ok value? =>
      cases value? with
      | none => rfl
      | some value => cases s.chain.isEmpty <;> rfl

/-- A value that was answered on an empty chain is remembered, if answers are; nothing else is. -/
theorem answers_conclude (x : Expander) (s : Session) (expression : Text)
    (inner : Expansion (Option Text)) :
    (x.conclude s expression inner).2.answers =
      match (x.conclude s expression inner).1 with
      | .ok (some value) =>
        if s.chain.isEmpty && x.remembers then s.answers.insert expression value else s.answers
      | _ => s.answers := by
  obtain ⟨result, chain, events⟩ := inner
  rw [conclude]
  cases result with
  | error failure => rfl
  | ok value? =>
      cases value? with
      | none => rfl
      | some value => cases s.chain.isEmpty <;> cases x.remembers <;> rfl

/-- Where nothing is done to answers and none is remembered, an answer is what the expansion gives. -/
theorem resolve_of_resolveIn {expression value : Text} {inner : Expansion (Option Text)}
    (hFinishers : x.finishers = []) (hRemembers : x.remembers = false)
    (hExpansion : x.resolveIn s.chain expression = some inner)
    (hResult : inner.result = .ok (some value)) :
    ∃ after, x.resolve s expression = some (.ok (some value), after) ∧
      after.events = s.events ++ inner.events := by
  have hForgotten : x.remembered? s expression = none := by
    rw [remembered?, hRemembers, Bool.false_and, if_neg Bool.false_ne_true]
  have hAnswer := x.fst_conclude s expression inner
  rw [hResult, Except.map, Option.map_some, finish, hFinishers, List.foldl_nil, ite_self] at hAnswer
  refine ⟨(x.conclude s expression inner).2, ?_, (x.conclude_session s expression inner).2⟩
  rw [Expander.resolve, hForgotten]
  simp only [hExpansion, Option.map_some]
  rw [← hAnswer]

/-- The outcome of a question: the answer as it is when nothing is remembered, on the same chain, with
answers of that kind remembered; or the question never ends. -/
inductive Answered {α : Type} (x : Expander) (s : Session) :
    Option α → Option (α × Session) → Prop
  | endless : Answered x s none none
  | ends {result : α} {after : Session} (hChain : after.chain = s.chain)
      (hFaithful : x.Faithful s.chain.prefixes after.answers) :
      Answered x s (some result) (some (result, after))

/-- A change to the result is one to both. -/
theorem Answered.map {α β : Type} {given : Option α} {outcome : Option (α × Session)}
    (h : x.Answered s given outcome) (f : α → β) :
    x.Answered s (given.map f) (outcome.map fun r => (f r.1, r.2)) := by
  cases h with
  | endless => exact .endless
  | ends hChain hFaithful => exact .ends hChain hFaithful

theorem Answered.map_fst {α : Type} {given : Option α} {outcome : Option (α × Session)}
    (h : x.Answered s given outcome) : outcome.map Prod.fst = given := by
  cases h with
  | endless => rfl
  | ends _ _ => rfl

theorem Answered.eq_of_some {α : Type} {given : Option α} {result : α} {after : Session}
    (h : x.Answered s given (some (result, after))) :
    given = some result ∧ after.chain = s.chain ∧ x.Faithful s.chain.prefixes after.answers := by
  cases h with
  | ends hChain hFaithful => exact ⟨rfl, hChain, hFaithful⟩

/-- What is answered after a question is answered from where it began. -/
theorem Answered.of_chain {α : Type} {given : Option α} {outcome : Option (α × Session)}
    {before : Session} (h : x.Answered s given outcome) (hChain : s.chain = before.chain) :
    x.Answered before given outcome := by
  cases h with
  | endless => exact .endless
  | ends hAfter hFaithful => exact .ends (hAfter.trans hChain) (hChain ▸ hFaithful)

/-- What is answered in the end is answered whether answers are remembered or not. -/
theorem Answered.of_remembering {α : Type} {given : Option α} {outcome : Option (α × Session)}
    {remembers : Bool} (h : ({ x with remembers := remembers } : Expander).Answered s given outcome) :
    x.Answered s given outcome := by
  cases h with
  | endless => exact .endless
  | ends hChain hFaithful =>
      rw [faithful_remembering] at hFaithful
      exact .ends hChain hFaithful

theorem Faithful.resolve (h : x.Faithful s.chain.prefixes s.answers) (expression : Text) :
    x.Answered s (x.answerOn s.chain expression) (x.resolve s expression) := by
  rw [Expander.resolve]
  cases hRemembered : x.remembered? s expression with
  | some answer =>
      rw [remembered?] at hRemembered
      split at hRemembered
      · rename_i hTop
        have hEmpty := Chain.eq_withPrefixes (Bool.and_eq_true_iff.mp hTop).2
        rw [hEmpty, h expression answer hRemembered]
        exact .ends rfl h
      · cases hRemembered
  | none =>
      cases hExpansion : x.resolveIn s.chain expression with
      | none =>
          rw [answerOn, hExpansion]
          exact .endless
      | some inner =>
          have hRestores := x.restores_of_expansion.1 _ _ _ hExpansion
          have hResult : x.answerOn s.chain expression = some (x.conclude s expression inner).1 := by
            rw [answerOn, hExpansion, fst_conclude]
            rfl
          have hChain := (x.conclude_session s expression inner).1.trans hRestores.same
          have hAnswers := x.answers_conclude s expression inner
          rw [hResult, Option.map_some]
          generalize x.conclude s expression inner = concluded at hResult hChain hAnswers ⊢
          obtain ⟨result, after⟩ := concluded
          refine .ends hChain ?_
          rw [hAnswers]
          -- Only an answer on an empty chain is added, and it is the one given there.
          split
          · rename_i value hValue
            split
            · rename_i hTop
              have hEmpty := Chain.eq_withPrefixes (Bool.and_eq_true_iff.mp hTop).1
              refine h.insert ?_
              rw [← hEmpty, hResult, hValue]
            · exact h
          · exact h

theorem fillSegments_literal (x : Expander) (s : Session) (text : Text) (rest : List Segment) :
    x.fillSegments s (.literal text :: rest) =
      (x.fillSegments s rest).map fun later => (later.1.map (text ++ ·), later.2) := by
  rw [Expander.fillSegments]
  cases x.fillSegments s rest <;> rfl

theorem fillSegments_answered {after : Session} {d : Delimiter} {expression : Text}
    {answer : Option Text} (h : x.resolve s expression = some (.ok answer, after))
    (rest : List Segment) :
    x.fillSegments s (.placeholder d expression :: rest) =
      (x.fillSegments after rest).map fun later =>
        (later.1.map ((answer.getD (d.wrap expression)) ++ ·), later.2) := by
  rw [Expander.fillSegments, h]
  simp only [Option.bind_eq_bind, Option.bind_some]
  cases x.fillSegments after rest <;> rfl

theorem Faithful.fillSegments (segments : List Segment)
    (h : x.Faithful s.chain.prefixes s.answers) :
    x.Answered s (x.fillOn s.chain segments) (x.fillSegments s segments) := by
  induction segments generalizing s with
  | nil => exact .ends rfl h
  | cons segment rest ih =>
      cases segment with
      | literal text =>
          rw [fillSegments_literal]
          exact (ih h).map (Except.map (text ++ ·))
      | placeholder d expression =>
          have hAnswered := h.resolve expression
          generalize hGiven : x.answerOn s.chain expression = given at hAnswered
          generalize hOutcome : x.resolve s expression = outcome at hAnswered
          cases hAnswered with
          | endless =>
              rw [fillOn, Expander.fillSegments, hGiven, hOutcome]
              exact .endless
          | ends hChain hFaithful =>
              rename_i result after
              cases result with
              | error failure =>
                  rw [fillOn, Expander.fillSegments, hGiven, hOutcome]
                  exact .ends hChain hFaithful
              | ok answer =>
                  have hLater := (ih (s := after) (hChain ▸ hFaithful)).of_chain hChain
                  rw [hChain] at hLater
                  rw [fillOn, hGiven, fillSegments_answered hOutcome]
                  exact hLater.map (Except.map ((answer.getD (d.wrap expression)) ++ ·))

theorem Faithful.interpolate (h : x.Faithful s.chain.prefixes s.answers) (text : Text) :
    x.Answered s (x.fillOn s.chain (x.markup.segments text)) (x.interpolate s text) :=
  h.fillSegments (x.markup.segments text)

end Expander

end Placeholder
