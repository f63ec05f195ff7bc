import Placeholder.Proofs.Expansion.Cases
/-!
What an expansion leaves behind, whether its sources have finitely many answers or not. It ends on the
chain that it began with, every frame of its own stood on top of that chain, and a source is asked
only inside such a frame. What is done to final answers plays no part in it.
-/
namespace Placeholder

/-- The list does not begin with a question to a source. -/
def Headed (events : List Event) : Prop :=
  ∀ place expression rest, events ≠ .asked place expression :: rest

theorem Headed.append {events more : List Event} (h : Headed events) (hMore : Headed more) :
    Headed (events ++ more) := by
  cases events with
  | nil => exact hMore
  | cons event events =>
      intro place expression rest hEq
      exact h place expression events (congrArg (· :: events) (List.cons.inj hEq).1)

/-- The chain is as it was, and the frames that were opened stood on top of it. -/
structure Restores {α : Type} (chain : Chain) (expansion : Expansion α) : Prop where
  same : expansion.chain = chain
  frames : ∀ frames, .opened frames ∈ expansion.events →
    ∃ pushed, pushed ≠ [] ∧ frames = chain.frames ++ pushed
  headed : Headed expansion.events

namespace Expander

/-- The sources are asked one after the other, each once. -/
theorem events_askInOrder (expression : Text) (place : Nat) (sources : List ValueSource) :
    ∃ count, (askInOrder expression place sources).2 =
      (List.range' place count).map (.asked · expression) := by
  induction sources generalizing place with
  | nil => exact ⟨0, rfl⟩
  | cons source rest ih =>
      obtain ⟨count, hLater⟩ := ih (place + 1)
      rw [askInOrder]
      cases source.lookup expression with
      | error failure => exact ⟨1, rfl⟩
      | ok answer =>
          cases answer with
          | some value => exact ⟨1, rfl⟩
          | none =>
              refine ⟨count + 1, ?_⟩
              rw [List.range'_succ, List.map_cons, ← hLater]

theorem not_opened_mem_ask {x : Expander} {expression : Text} {frames : List Text} :
    .opened frames ∉ (x.ask expression).2 := by
  obtain ⟨count, hAsked⟩ := events_askInOrder expression 0 x.sources
  rw [ask, hAsked, List.mem_map]
  rintro ⟨place, _, hEq⟩
  cases hEq

/-- Inside the frame of an expression: what was asked for it, and what happened in its value. -/
theorem restores_start {α : Type} {x : Expander} {chain : Chain} {expression : Text}
    {result : Except Failure α} {inner : List Event}
    (hInner : ∀ frames, .opened frames ∈ inner →
      ∃ pushed, pushed ≠ [] ∧ frames = (chain.start expression).frames ++ pushed) :
    Restores chain ⟨result, (chain.start expression).finish expression,
      .opened (chain.start expression).frames :: ((x.ask expression).2 ++ inner)⟩ where
  same := chain.finish_start expression
  frames := by
    intro frames hMem
    rcases List.mem_cons.mp hMem with hOwn | hRest
    · refine ⟨[chain.key expression], List.cons_ne_nil _ _, ?_⟩
      exact Event.opened.inj hOwn
    · rcases List.mem_append.mp hRest with hAsked | hBelow
      · exact absurd hAsked not_opened_mem_ask
      · obtain ⟨pushed, _, rfl⟩ := hInner frames hBelow
        refine ⟨chain.key expression :: pushed, List.cons_ne_nil _ _, ?_⟩
        rw [Chain.start, List.append_assoc, List.singleton_append]
  headed := by
    intro place other rest hEq
    cases hEq

/-- However an expansion goes, the chain is restored. -/
theorem restores_of_expansion (x : Expander) :
    (∀ chain expression expansion, x.resolveIn chain expression = some expansion →
      Restores chain expansion) ∧
    ∀ chain segments expansion, x.expandIn chain segments = some expansion →
      Restores chain expansion := by
  apply Kept.of_expansion
  constructor
  case circular =>
    intro chain expression _
    exact ⟨rfl, by simp, fun _ _ _ => by simp⟩
  case unanswered =>
    intro chain expression _ _
    have hOwn : Restores chain ⟨(x.ask expression).1, (chain.start expression).finish expression,
        .opened (chain.start expression).frames :: ((x.ask expression).2 ++ [])⟩ :=
      restores_start (by simp)
    rwa [List.append_nil, chain.finish_start] at hOwn
  case value =>
    intro chain expression value inner _ _ _ hInner
    rw [hInner.same]
    exact restores_start hInner.frames
  case nil => exact ⟨rfl, by simp, fun _ _ _ => by simp⟩
  case literal =>
    intro chain text rest later _ hLater
    exact ⟨hLater.same, hLater.frames, hLater.headed⟩
  case failed =>
    intro chain expression answer failure _ hAnswer _ d rest
    exact ⟨hAnswer.same, hAnswer.frames, hAnswer.headed⟩
  case answered =>
    intro chain expression answer value rest later _ hAnswer _ _ hLater d
    rw [hAnswer.same] at hLater
    refine ⟨hLater.same, fun frames hMem => ?_, hAnswer.headed.append hLater.headed⟩
    rcases List.mem_append.mp hMem with hHere | hAfter
    · exact hAnswer.frames frames hHere
    · exact hLater.frames frames hAfter

end Expander

end Placeholder
