import Placeholder.Proofs.Expansion.Cases
import Placeholder.Proofs.Markup.Segments
import Placeholder.Session
/-!
Sources that know nothing. Every expression goes unanswered, on any chain, and a text whose markup
drops nothing is put together again as it was.
-/
namespace Placeholder.Expander

/-- No source has a value for any expression, and none fails. -/
def Silent (x : Expander) : Prop :=
  ∀ source ∈ x.sources, ∀ expression, source.lookup expression = .ok none

variable {x : Expander} {s : Session}

theorem Silent.ask (h : x.Silent) (expression : Text) : (x.ask expression).1 = .ok none := by
  have hAll : ∀ (sources : List ValueSource) (place : Nat),
      (∀ source ∈ sources, source.lookup expression = .ok none) →
      (askInOrder expression place sources).1 = .ok none := by
    intro sources
    induction sources with
    | nil => exact fun _ _ => rfl
    | cons source rest ih =>
        intro place hSources
        rw [askInOrder, hSources source (List.mem_cons_self ..)]
        exact ih (place + 1) fun later hMem => hSources later (List.mem_cons_of_mem _ hMem)
  exact hAll x.sources 0 fun source hMem => h source hMem expression

theorem Silent.resolveIn (h : x.Silent) (chain : Chain) (expression : Text) :
    ∃ events, x.resolveIn chain expression = some ⟨.ok none, chain, events⟩ := by
  cases hHas : chain.has expression with
  | true => exact ⟨_, resolveIn_circular hHas⟩
  | false =>
      have hNone : ∀ value, (x.ask expression).1 ≠ .ok (some value) := by simp [h.ask expression]
      rw [resolveIn_unanswered hHas hNone, h.ask expression]
      exact ⟨_, rfl⟩

theorem Silent.resolve (h : x.Silent) (hAnswers : s.answers = .empty) (expression : Text) :
    ∃ after, x.resolve s expression = some (.ok none, after) ∧ after.answers = .empty := by
  obtain ⟨events, hExpansion⟩ := h.resolveIn s.chain expression
  refine ⟨{ s.record events with chain := s.chain }, ?_, hAnswers⟩
  rw [x.resolve_of_empty hAnswers, hExpansion]
  rfl

theorem Silent.fillSegments (h : x.Silent) (hAnswers : s.answers = .empty)
    (segments : List Segment) :
    ∃ after, x.fillSegments s segments = some (.ok (segments.flatMap Segment.written), after) ∧
      after.answers = .empty := by
  induction segments generalizing s with
  | nil => exact ⟨s, rfl, hAnswers⟩
  | cons segment rest ih =>
      cases segment with
      | literal text =>
          obtain ⟨after, hLater, hAfter⟩ := ih hAnswers
          refine ⟨after, ?_, hAfter⟩
          rw [Expander.fillSegments, hLater]
          rfl
      | placeholder d expression =>
          obtain ⟨next, hResolve, hNext⟩ := h.resolve hAnswers expression
          obtain ⟨after, hLater, hAfter⟩ := ih hNext
          refine ⟨after, ?_, hAfter⟩
          rw [Expander.fillSegments, hResolve]
          simp only [Option.bind_eq_bind, Option.bind_some, hLater]
          rfl

/-- A text comes out as it went in. -/
theorem Silent.interpolate (h : x.Silent) (hKeeps : x.markup.Keeps) (hAnswers : s.answers = .empty)
    (text : Text) :
    ∃ after, x.interpolate s text = some (.ok text, after) ∧ after.answers = .empty := by
  have hFilled := h.fillSegments hAnswers (x.markup.segments text)
  rwa [Markup.flatMap_written_segments hKeeps] at hFilled

end Placeholder.Expander
