import Placeholder.Proofs.Expansion.Cases
import Placeholder.Proofs.Results
import Placeholder.Session
/-!
Where the failure of an expansion comes from. However deep it is met, some source answered some
expression with it; and a text that is never done holds an expression that never is.
-/
namespace Placeholder

theorem exists_error_of_askInOrder {expression : Text} {sources : List ValueSource} {place : Nat}
    {failure : Failure} (h : (askInOrder expression place sources).1 = .error failure) :
    ∃ source ∈ sources, source.lookup expression = .error failure := by
  induction sources generalizing place with
  | nil => cases h
  | cons source rest ih =>
      rw [askInOrder] at h
      cases hLookup : source.lookup expression with
      | error met =>
          rw [hLookup] at h
          exact ⟨source, List.mem_cons_self .., hLookup.trans h⟩
      | ok value? =>
          rw [hLookup] at h
          cases value? with
          | some value => cases h
          | none =>
              obtain ⟨later, hMem, hLater⟩ := ih h
              exact ⟨later, List.mem_cons_of_mem _ hMem, hLater⟩

namespace Expander

/-- Some source answers some expression with this failure. -/
def Refuses (x : Expander) (failure : Failure) : Prop :=
  ∃ source ∈ x.sources, ∃ expression, source.lookup expression = .error failure

theorem refuses_of_ask {x : Expander} {expression : Text} {failure : Failure}
    (h : (x.ask expression).1 = .error failure) : x.Refuses failure := by
  obtain ⟨source, hMem, hLookup⟩ := exists_error_of_askInOrder h
  exact ⟨source, hMem, expression, hLookup⟩

/-- An expansion fails with what a source answered, and with nothing else. -/
theorem refuses_of_expansion (x : Expander) :
    (∀ chain expression expansion, x.resolveIn chain expression = some expansion →
      ∀ failure, expansion.result = .error failure → x.Refuses failure) ∧
    ∀ chain segments expansion, x.expandIn chain segments = some expansion →
      ∀ failure, expansion.result = .error failure → x.Refuses failure := by
  apply Kept.of_expansion
  constructor
  case circular =>
    intro chain expression _ failure hFails
    cases hFails
  case unanswered =>
    intro chain expression _ _ failure hFails
    exact refuses_of_ask hFails
  case value =>
    intro chain expression value inner _ _ _ hInner failure hFails
    exact hInner failure (eq_error_of_map hFails)
  case nil =>
    intro chain failure hFails
    cases hFails
  case literal =>
    intro chain text rest later _ hLater failure hFails
    exact hLater failure (eq_error_of_map hFails)
  case failed =>
    intro chain expression answer met _ hAnswer hMet d rest failure hFails
    obtain rfl := Except.error.inj hFails
    exact hAnswer _ hMet
  case answered =>
    intro chain expression answer value rest later _ _ _ _ hLater d failure hFails
    exact hLater failure (eq_error_of_map hFails)

theorem refuses_of_resolve {x : Expander} {s after : Session} {expression : Text}
    {failure : Failure} (h : x.resolve s expression = some (.error failure, after)) :
    x.Refuses failure := by
  rw [resolve] at h
  cases hRemembered : x.remembered? s expression with
  | some answer =>
      rw [hRemembered] at h
      cases h
  | none =>
      rw [hRemembered] at h
      obtain ⟨expansion, hExpansion, hConclude⟩ := Option.map_eq_some_iff.mp h
      apply x.refuses_of_expansion.1 _ _ _ hExpansion
      rw [conclude] at hConclude
      cases hResult : expansion.result with
      | error met =>
          rw [hResult] at hConclude
          cases hConclude
          rfl
      | ok value? =>
          rw [hResult] at hConclude
          cases value? with
          | none => cases hConclude
          | some value =>
              simp only at hConclude
              split at hConclude <;> cases hConclude

/-- What holds between the sessions around the answer to every placeholder among segments, with the
failure that it may be, and can be put together, holds between the sessions around all of them. -/
theorem fillSegments_induct {x : Expander} {R : Session → Option Failure → Session → Prop}
    {segments : List Segment} (refl : ∀ s, R s none s)
    (trans : ∀ s next after failed, R s none next → R next failed after → R s failed after)
    (answer : ∀ s d expression result after, .placeholder d expression ∈ segments →
      x.resolve s expression = some (result, after) → R s (errorOf result) after)
    {s after : Session} {result : Except Failure Text}
    (h : x.fillSegments s segments = some (result, after)) : R s (errorOf result) after := by
  induction segments generalizing s result with
  | nil =>
      cases h
      exact refl _
  | cons segment rest ih =>
      have hRest := @ih fun s d expression result after hMem =>
        answer s d expression result after (List.mem_cons_of_mem _ hMem)
      cases segment with
      | literal text =>
          obtain ⟨⟨later, final⟩, hLater, hSame⟩ := Option.bind_eq_some_iff.mp h
          cases hSame
          rw [errorOf_map]
          exact hRest hLater
      | placeholder d expression =>
          obtain ⟨⟨answered, next⟩, hResolve, hThen⟩ := Option.bind_eq_some_iff.mp h
          have hNext := answer _ d _ _ _ (List.mem_cons_self ..) hResolve
          cases answered with
          | error failure =>
              cases hThen
              exact hNext
          | ok value? =>
              obtain ⟨⟨later, final⟩, hLater, hSame⟩ := Option.bind_eq_some_iff.mp hThen
              cases hSame
              rw [errorOf_map]
              exact trans _ _ _ _ hNext (hRest hLater)

theorem refuses_of_fillSegments {x : Expander} {s after : Session} {segments : List Segment}
    {failure : Failure} (h : x.fillSegments s segments = some (.error failure, after)) :
    x.Refuses failure := by
  have hRefuses := fillSegments_induct
    (R := fun _ failed _ => ∀ failure, failed = some failure → x.Refuses failure) nofun
    (fun _ _ _ _ _ hLater => hLater) (fun s d expression result after _ hResolve failure hFailed => ?_) h
  · exact hRefuses failure rfl
  · obtain rfl := errorOf_eq_some_iff.mp hFailed
    exact refuses_of_resolve hResolve

/-- Segments are never done only if one of their expressions is not. -/
theorem exists_endless_of_fillSegments {x : Expander} {s : Session} {segments : List Segment}
    (h : x.fillSegments s segments = none) :
    ∃ (session : Session) (expression : Text), x.resolve session expression = none := by
  induction segments generalizing s with
  | nil => cases h
  | cons segment rest ih =>
      cases segment with
      | literal text =>
          cases hLater : x.fillSegments s rest with
          | none => exact ih hLater
          | some later => simp [fillSegments, hLater] at h
      | placeholder d expression =>
          cases hResolve : x.resolve s expression with
          | none => exact ⟨s, expression, hResolve⟩
          | some resolved =>
              obtain ⟨result, next⟩ := resolved
              cases result with
              | error failure => simp [fillSegments, hResolve] at h
              | ok answer =>
                  cases hLater : x.fillSegments next rest with
                  | none => exact ih hLater
                  | some later => simp [fillSegments, hResolve, hLater] at h

end Expander

end Placeholder
