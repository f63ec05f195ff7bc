import Placeholder.Finisher
import Placeholder.Proofs.Session.Remembering
/-!
What is done to final answers. Finishers see the answer to a top-level expression once, when all of
it is put together. Below the top level, and on frames that a caller opened, everything goes as if
there were none.
-/
namespace Placeholder.Expander

/-- The expander with these finishers in the place of its own. -/
def withFinishers (x : Expander) (finishers : List Finisher) : Expander :=
  { x with finishers := finishers }

/-- The expander without its finishers. -/
def bare (x : Expander) : Expander := x.withFinishers []

variable {x : Expander} {s : Session} {expression : Text}

theorem resolveIn_finishers (x : Expander) (finishers : List Finisher) (chain : Chain)
    (expression : Text) :
    (x.withFinishers finishers).resolveIn chain expression = x.resolveIn chain expression :=
  resolveIn_congr (x := x) (y := x.withFinishers finishers) rfl rfl rfl chain expression

/-- What a session makes of an expansion depends on what the finishers make of its answer, if it has
one and is at the top level. -/
theorem conclude_finishers (x : Expander) (finishers : List Finisher)
    (inner : Expansion (Option Text))
    (h : ∀ value, s.chain.isEmpty = true → inner.result = .ok (some value) →
      (x.withFinishers finishers).finish expression value =
        x.finish expression value) :
    (x.withFinishers finishers).conclude s expression inner =
      x.conclude s expression inner := by
  obtain ⟨result, chain, events⟩ := inner
  rw [conclude, conclude]
  cases result with
  | error failure => rfl
  | ok value? =>
      cases value? with
      | none => rfl
      | some value =>
          cases hTop : s.chain.isEmpty with
          | false => rfl
          | true =>
              simp only [h value hTop rfl, if_true]
              rfl

theorem resolve_withFinishers (x : Expander) (finishers : List Finisher)
    (h : s.answers = .empty) (expression : Text) :
    (x.withFinishers finishers).resolve s expression =
      (x.resolveIn s.chain expression).map
        ((x.withFinishers finishers).conclude s expression) := by
  rw [resolve_of_empty _ h, resolveIn_finishers]

/-- Finishers are told apart by what they make of the answer of the expansion, if it has one and is
at the top level, and by nothing else. -/
theorem resolve_eq_of_finish {finishers : List Finisher} (h : s.answers = .empty)
    (hSame : ∀ inner value, s.chain.isEmpty = true →
      x.resolveIn s.chain expression = some inner → inner.result = .ok (some value) →
      (x.withFinishers finishers).finish expression value = x.finish expression value) :
    (x.withFinishers finishers).resolve s expression = x.resolve s expression := by
  rw [resolve_withFinishers x finishers h, x.resolve_of_empty h]
  cases hInner : x.resolveIn s.chain expression with
  | none => rfl
  | some inner =>
      rw [Option.map_some, Option.map_some, conclude_finishers]
      exact fun value hTop hValue => hSame inner value hTop hInner hValue

/-- Without finishers the answer is what the expansion gives. -/
theorem answer_of_bare (x : Expander) (h : s.answers = .empty) (expression : Text) :
    (x.bare.resolve s expression).map Prod.fst =
      (x.resolveIn s.chain expression).map Expansion.result := by
  rw [bare, resolve_withFinishers x [] h]
  cases x.resolveIn s.chain expression with
  | none => rfl
  | some inner =>
      rw [Option.map_some, Option.map_some, Option.map_some, fst_conclude]
      simp only [finish, withFinishers, List.foldl_nil, ite_self]
      rcases inner.result with failure | _ | value <;> rfl

/-- The finishers at work on one question: they are applied to its final answer, to nothing else. -/
structure FinishesLast (x : Expander) (s : Session) (expression : Text) : Prop where
  /-- On an empty chain, the answer that there is without finishers is handed through all of them,
  once each and in order, together with the expression. Where there is no answer there is none, and
  a failure stays as it is. -/
  top : s.chain.isEmpty = true → (x.resolve s expression).map Prod.fst =
    (x.bare.resolve s expression).map fun outcome => outcome.1.map (Option.map fun value =>
      x.finishers.foldl (fun current finisher => (finisher expression current).getD current) value)
  /-- With frames open they do nothing. -/
  below : s.chain.isEmpty = false → x.resolve s expression = x.bare.resolve s expression
  /-- Every nested question is answered as without them. -/
  nested : ∀ chain inner, x.resolveIn chain inner = x.bare.resolveIn chain inner
  /-- The sources are asked and circles are met as without them. -/
  course : (x.resolve s expression).map (fun outcome => (outcome.2.chain, outcome.2.events)) =
    (x.bare.resolve s expression).map fun outcome => (outcome.2.chain, outcome.2.events)
  /-- Finishers that make the same of the one final answer are not told apart. -/
  unseen : ∀ finishers : List Finisher,
    (∀ value, (x.bare.resolve s expression).map Prod.fst = some (.ok (some value)) →
      (x.withFinishers finishers).finish expression value =
        x.finish expression value) →
    (x.withFinishers finishers).resolve s expression = x.resolve s expression
  /-- An answer that is remembered is not handed through them again. -/
  again : ∀ outcome, x.resolve s expression = some outcome →
    (x.resolve outcome.2 expression).map Prod.fst = some outcome.1

/-- Finishing factors out. With no answers remembered yet, a question is answered as without
finishers, and what they make of the answer is the answer. -/
theorem finishers_factor_out (x : Expander) (hForgotten : s.answers = .empty) (expression : Text) :
    x.FinishesLast s expression where
  top := by
    intro hTop
    have hBare := congrArg (Option.map (Except.map (Option.map (x.finish expression))))
      (x.answer_of_bare hForgotten expression)
    rw [Option.map_map] at hBare
    refine Eq.trans ?_ hBare.symm
    rw [x.resolve_of_empty hForgotten]
    cases x.resolveIn s.chain expression with
    | none => rfl
    | some inner =>
        simp only [Option.map_some, fst_conclude, hTop, if_true]
  below := by
    intro hOpen
    refine (resolve_eq_of_finish hForgotten fun _ _ hTop => ?_).symm
    exact absurd (hOpen.symm.trans hTop) Bool.false_ne_true
  nested := fun chain inner => (x.resolveIn_finishers [] chain inner).symm
  course := by
    rw [x.resolve_of_empty hForgotten, bare, resolve_withFinishers x [] hForgotten]
    cases x.resolveIn s.chain expression with
    | none => rfl
    | some inner => simp only [Option.map_some, conclude_session]
  unseen := by
    intro finishers hSame
    refine resolve_eq_of_finish hForgotten fun inner value _ hInner hValue => hSame value ?_
    rw [x.answer_of_bare hForgotten, hInner, Option.map_some, hValue]
  again := by
    rintro ⟨result, after⟩ hOutcome
    have hFaithful : x.Faithful s.chain.prefixes s.answers := by
      rw [hForgotten]
      exact x.faithful_empty s.chain.prefixes
    have hAnswered := hFaithful.resolve expression
    rw [hOutcome] at hAnswered
    obtain ⟨hGiven, hChain, hAfter⟩ := hAnswered.eq_of_some
    rw [← hChain] at hGiven hAfter
    rw [(hAfter.resolve expression).map_fst, hGiven]

/-- A path in which another one is nested, with a circle back to the first, remembered. -/
theorem finishers_factor_out_nested_path :
    let x : Expander := ⟨[.single ['a'] ['C', ':', '\\', '@', 'b', '@'],
      .single ['b'] ['D', ':', '\\', '@', 'a', '@']],
      [Finisher.windowsPath, fun expression value => some (expression ++ value)], .standard, true,
      true⟩
    let s : Session := .fresh .empty
    s.answers = .empty ∧ x.FinishesLast s ['a'] :=
  ⟨rfl, finishers_factor_out _ rfl _⟩

end Placeholder.Expander
