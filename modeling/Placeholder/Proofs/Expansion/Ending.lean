import Placeholder.Proofs.Expansion.Cases
import Placeholder.Proofs.Expansion.DelimitedKeys
import Placeholder.Session
/-!
Every expansion ends when the sources have finitely many answers in all. Inside a frame, only keys
that stand between delimiters in an answer open further frames, and none of them twice; so the
number of keys that have no frame yet falls with every frame, and it bounds how deep the frames go.
-/
namespace Placeholder

/-- The expansion ends on the chain that it began with, and in between it never had more than
`depth` frames of its own open. -/
def Ends {α : Type} (chain : Chain) (depth : Nat) (outcome : Option (Expansion α)) : Prop :=
  ∃ expansion, outcome = some expansion ∧ expansion.chain = chain ∧
    ∀ frames, .opened frames ∈ expansion.events →
      ∃ pushed, frames = chain.frames ++ pushed ∧ pushed.length ≤ depth

theorem Ends.mono {α : Type} {chain : Chain} {shallow deep : Nat} {outcome : Option (Expansion α)}
    (h : Ends chain shallow outcome) (hLe : shallow ≤ deep) : Ends chain deep outcome := by
  obtain ⟨expansion, hOutcome, hChain, hFrames⟩ := h
  refine ⟨expansion, hOutcome, hChain, fun frames hMem => ?_⟩
  obtain ⟨pushed, hPushed, hLength⟩ := hFrames frames hMem
  exact ⟨pushed, hPushed, Nat.le_trans hLength hLe⟩

namespace Expander

variable {x : Expander} {chain : Chain} {depth : Nat}

/-- An expression that is being expanded opens no frame. -/
theorem resolveIn_ends_of_has {expression : Text} (h : chain.has expression = true) :
    Ends chain depth (x.resolveIn chain expression) := by
  exact ⟨_, resolveIn_circular h, rfl, by simp⟩

/-- An expression opens one frame, and its value those that it opens inside. -/
theorem resolveIn_ends {expression : Text}
    (hInside : chain.has expression = false → ∀ value ∈ x.answers,
      Ends (chain.start expression) depth
        (x.expandIn (chain.start expression) (x.valueSegments value))) :
    Ends chain (depth + 1) (x.resolveIn chain expression) := by
  cases hHas : chain.has expression with
  | true => exact resolveIn_ends_of_has hHas
  | false =>
      obtain ⟨hFound, hAsked⟩ := askInOrder_spec expression 0 x.sources
      -- The frame itself, with what was asked: nothing in there opens another one.
      have hOwn : ∀ frames,
          Event.opened frames ∈
              Event.opened (chain.start expression).frames :: (x.ask expression).2 →
            ∃ pushed, frames = chain.frames ++ pushed ∧ pushed.length ≤ depth + 1 := by
        intro frames hMem
        rcases List.mem_cons.mp hMem with hEq | hLater
        · obtain rfl := Event.opened.inj hEq
          exact ⟨[chain.key expression], rfl, by simp⟩
        · obtain ⟨n, hEq⟩ := hAsked _ hLater
          cases hEq
      by_cases hValue : ∃ value, (x.ask expression).1 = .ok (some value)
      · obtain ⟨value, hValue⟩ := hValue
        obtain ⟨inner, hInner, hChain, hFrames⟩ := hInside hHas value (hFound value hValue)
        refine ⟨_, resolveIn_value hHas hValue hInner, ?_, fun frames hMem => ?_⟩
        · rw [hChain]
          exact chain.finish_start expression
        · rw [← List.cons_append, List.mem_append] at hMem
          rcases hMem with hHere | hBelow
          · exact hOwn frames hHere
          · obtain ⟨pushed, hPushed, hLength⟩ := hFrames frames hBelow
            refine ⟨chain.key expression :: pushed, ?_, Nat.succ_le_succ hLength⟩
            rw [hPushed, Chain.start, List.append_assoc, List.singleton_append]
      · exact ⟨_, resolveIn_unanswered hHas (not_exists.mp hValue), rfl, hOwn⟩

/-- Segments end when each of their expressions does. -/
theorem expandIn_ends {segments : List Segment}
    (h : ∀ d expression, .placeholder d expression ∈ segments →
      Ends chain depth (x.resolveIn chain expression)) :
    Ends chain depth (x.expandIn chain segments) := by
  induction segments with
  | nil => exact ⟨_, expandIn_nil x chain, rfl, by simp⟩
  | cons segment rest ih =>
      obtain ⟨later, hLater, hLaterChain, hLaterFrames⟩ := ih fun d expression hMem =>
        h d expression (List.mem_cons_of_mem _ hMem)
      cases segment with
      | literal text => exact ⟨_, expandIn_literal hLater text, hLaterChain, hLaterFrames⟩
      | placeholder d expression =>
          obtain ⟨answer, hAnswer, hChain, hFrames⟩ := h d expression (List.mem_cons_self ..)
          cases hResult : answer.result with
          | error failure => exact ⟨_, expandIn_failed hAnswer hResult d rest, hChain, hFrames⟩
          | ok value =>
              rw [← hChain] at hLater
              refine ⟨_, expandIn_answered hAnswer hResult hLater d, hLaterChain, ?_⟩
              intro frames hMem
              rcases List.mem_append.mp hMem with hHere | hAfter
              · exact hFrames frames hHere
              · exact hLaterFrames frames hAfter

/-- Inside a frame, an expansion ends before it runs out of keys. -/
theorem expandIn_ends_of_finite (hFinite : x.answers.Finite) {segments : List Segment}
    (hKeys : ∀ d expression, .placeholder d expression ∈ segments →
      chain.key expression ∈ x.delimitedKeys chain) :
    Ends chain (x.unopened chain).ncard (x.expandIn chain segments) := by
  induction hRoom : (x.unopened chain).ncard using Nat.strongRecOn
    generalizing chain segments with
  | ind n ih =>
      subst hRoom
      refine expandIn_ends fun d expression hMem => ?_
      cases hHas : chain.has expression with
      | true => exact resolveIn_ends_of_has hHas
      | false =>
          have hLess := ncard_unopened_start_lt hFinite (hKeys d expression hMem) hHas
          refine (resolveIn_ends fun _ value hValue => ?_).mono hLess
          exact ih _ hLess (fun e inner => key_mem_delimitedKeys hValue (chain.start expression)) rfl

theorem resolveIn_ends_of_finite (hFinite : x.answers.Finite) (chain : Chain) (expression : Text) :
    Ends chain (1 + (x.delimitedKeys chain).ncard) (x.resolveIn chain expression) := by
  rw [Nat.add_comm]
  refine resolveIn_ends fun _ value hValue => ?_
  refine Ends.mono ?_ (ncard_unopened_le hFinite (chain.start expression))
  exact expandIn_ends_of_finite hFinite fun d inner =>
    key_mem_delimitedKeys hValue (chain.start expression)

theorem expandIn_ends_of_any (hFinite : x.answers.Finite) (chain : Chain)
    (segments : List Segment) :
    Ends chain (1 + (x.delimitedKeys chain).ncard) (x.expandIn chain segments) :=
  expandIn_ends fun _ expression _ => resolveIn_ends_of_finite hFinite chain expression

end Expander

/-- What a question that ends leaves behind: the same chain, and a longer log in which never more than
`depth` frames were open on top of that chain. -/
def Session.Leaves {α : Type} (s : Session) (depth : Nat) (outcome : Option (α × Session)) : Prop :=
  ∃ result after, outcome = some (result, after) ∧ after.chain = s.chain ∧
    ∃ events, after.events = s.events ++ events ∧
      ∀ frames, .opened frames ∈ events →
        ∃ pushed, frames = s.chain.frames ++ pushed ∧ pushed.length ≤ depth

namespace Expander

variable {x : Expander} {depth : Nat}

theorem conclude_session (x : Expander) (s : Session) (expression : Text)
    (inner : Expansion (Option Text)) :
    (x.conclude s expression inner).2.chain = inner.chain ∧
      (x.conclude s expression inner).2.events = s.events ++ inner.events := by
  rw [← Session.events_record, conclude]
  split
  · split
    · split <;> exact ⟨rfl, rfl⟩
    · exact ⟨rfl, rfl⟩
  · exact ⟨rfl, rfl⟩

theorem resolve_leaves {s : Session} {expression : Text}
    (h : Ends s.chain depth (x.resolveIn s.chain expression)) :
    s.Leaves depth (x.resolve s expression) := by
  rw [resolve]
  split
  · exact ⟨_, s, rfl, rfl, [], (List.append_nil _).symm, by simp⟩
  · obtain ⟨inner, hInner, hChain, hFrames⟩ := h
    obtain ⟨hAfter, hEvents⟩ := x.conclude_session s expression inner
    rw [hInner]
    exact ⟨_, _, rfl, hAfter.trans hChain, inner.events, hEvents, hFrames⟩

theorem fillSegments_leaves {chain : Chain}
    (h : ∀ expression, Ends chain depth (x.resolveIn chain expression)) (segments : List Segment)
    {s : Session} (hChain : s.chain = chain) : s.Leaves depth (x.fillSegments s segments) := by
  induction segments generalizing s with
  | nil => exact ⟨_, s, rfl, rfl, [], (List.append_nil _).symm, by simp⟩
  | cons segment rest ih =>
      cases segment with
      | literal text =>
          obtain ⟨result, after, hLater, hAfter⟩ := ih hChain
          refine ⟨result.map (text ++ ·), after, ?_, hAfter⟩
          rw [fillSegments, hLater]
          rfl
      | placeholder d expression =>
          obtain ⟨result, after, hResolve, hAfter, events, hEvents, hFrames⟩ :=
            resolve_leaves (x := x) (hChain ▸ h expression)
          rw [fillSegments, hResolve]
          cases result with
          | error failure => exact ⟨_, after, rfl, hAfter, events, hEvents, hFrames⟩
          | ok answer =>
              obtain ⟨later, final, hLater, hFinal, more, hMore, hMoreFrames⟩ :=
                ih (hAfter.trans hChain)
              simp only [Option.bind_eq_bind, Option.bind_some, hLater]
              refine ⟨_, final, rfl, hFinal.trans hAfter, events ++ more, ?_, fun frames hMem => ?_⟩
              · rw [hMore, hEvents, List.append_assoc]
              · rcases List.mem_append.mp hMem with hHere | hThere
                · exact hFrames frames hHere
                · exact hAfter ▸ hMoreFrames frames hThere

/-- With finitely many answers to be had from the sources, every question ends, whatever the values
refer to: about an expression or a whole text, on any chain and with any markup. On the way, the
frames that are open on top of the chain are at most one more than the keys of expressions that
stand between delimiters in those answers. -/
theorem ends_of_finite_answers (x : Expander)
    (hSources : ∀ source ∈ x.sources, source.answers.Finite) (s : Session) :
    (∀ expression, s.Leaves (1 + (x.delimitedKeys s.chain).ncard) (x.resolve s expression)) ∧
      ∀ text, s.Leaves (1 + (x.delimitedKeys s.chain).ncard) (x.interpolate s text) := by
  have hEnds := resolveIn_ends_of_finite (finite_answers hSources) s.chain
  exact ⟨fun expression => resolve_leaves (hEnds expression),
    fun text => fillSegments_leaves hEnds (x.markup.segments text) rfl⟩

/-- Sources of every kind whose values refer to each other, on a chain with a prefix. -/
theorem ends_of_finite_answers_cyclic :
    let x : Expander := ⟨[.ofTable (.ofList [(['a'], ['@', 'b', '@'])]), .ofEnvironment .empty,
      .single ['b'] ['@', 'p', '.', 'a', '@'],
      .prefixed [['p', '.']] false (.ofDocument (.object [(['k'], .text ['@', 'k', '@'])])),
      .constant ['@', 'a', '@']], [], .standard, true, false⟩
    let s := Session.fresh (.withPrefixes [['p', '.']])
    (∀ expression, s.Leaves (1 + (x.delimitedKeys s.chain).ncard) (x.resolve s expression)) ∧
      ∀ text, s.Leaves (1 + (x.delimitedKeys s.chain).ncard) (x.interpolate s text) := by
  refine ends_of_finite_answers _ (fun source hMem => ?_) _
  simp only [List.mem_cons, List.not_mem_nil, or_false] at hMem
  rcases hMem with rfl | rfl | rfl | rfl | rfl
  · exact ValueSource.finite_answers_ofTable _
  · exact ValueSource.finite_answers_ofEnvironment _
  · exact ValueSource.finite_answers_single _ _
  · exact ValueSource.finite_answers_prefixed _ _ (ValueSource.finite_answers_ofDocument _)
  · exact ValueSource.finite_answers_constant _

end Expander

end Placeholder
