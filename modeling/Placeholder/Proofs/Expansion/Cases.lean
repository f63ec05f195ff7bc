import Placeholder.Expander
/-!
How an expansion can go. `resolveWith` and `expandWith` are the expansion with any way to cut values
into segments; an expander cuts them by `valueSegments`. Each case of them has its equation, and a
property that every case keeps holds of every expansion that comes out.
-/
namespace Placeholder.Expander

mutual

/-- The answer to an expression as `resolveIn` finds it, with values cut into segments by `cut`. -/
def resolveWith (x : Expander) (cut : Text → List Segment) (chain : Chain) (expression : Text) :
    Option (Expansion (Option Text)) :=
  if chain.has expression then
    some ⟨.ok none, chain, [.circular (chain.cycle expression)]⟩
  else
    let opened := chain.start expression
    match x.ask expression with
    | (.error failure, asked) =>
      some ⟨.error failure, opened.finish expression, .opened opened.frames :: asked⟩
    | (.ok none, asked) =>
      some ⟨.ok none, opened.finish expression, .opened opened.frames :: asked⟩
    | (.ok (some value), asked) => do
      let inner ← x |>.expandWith cut opened (cut value)
      return ⟨inner.result.map some, inner.chain.finish expression,
        .opened opened.frames :: (asked ++ inner.events)⟩
partial_fixpoint

/-- The segments put together as `expandIn` does it, with values cut into segments by `cut`. -/
def expandWith (x : Expander) (cut : Text → List Segment) (chain : Chain)
    (segments : List Segment) : Option (Expansion Text) :=
  match segments with
  | [] => some ⟨.ok [], chain, []⟩
  | .literal text :: rest => do
    let later ← x |>.expandWith cut chain rest
    return ⟨later.result.map (text ++ ·), later.chain, later.events⟩
  | .placeholder delimiter expression :: rest => do
    let answer ← x |>.resolveWith cut chain expression
    match answer.result with
    | .error failure => return ⟨.error failure, answer.chain, answer.events⟩
    | .ok value =>
      let later ← x |>.expandWith cut answer.chain rest
      return ⟨later.result.map ((value.getD (delimiter.wrap expression)) ++ ·), later.chain,
        answer.events ++ later.events⟩
partial_fixpoint

end

variable {x : Expander} {cut : Text → List Segment} {chain : Chain} {expression : Text}
  {answer : Expansion (Option Text)} {later : Expansion Text} {rest : List Segment}

/-! What comes out in each case. -/

theorem resolveWith_circular (cut : Text → List Segment) (h : chain.has expression = true) :
    x.resolveWith cut chain expression =
      some ⟨.ok none, chain, [.circular (chain.cycle expression)]⟩ := by
  rw [resolveWith, if_pos h]

/-- Without a value the answer is what the sources gave, a failure or nothing. -/
theorem resolveWith_unanswered (cut : Text → List Segment) (hNew : chain.has expression = false)
    (hNone : ∀ value, (x.ask expression).1 ≠ .ok (some value)) :
    x.resolveWith cut chain expression =
      some ⟨(x.ask expression).1, chain,
        .opened (chain.start expression).frames :: (x.ask expression).2⟩ := by
  rw [resolveWith, hNew, if_neg Bool.false_ne_true]
  cases hAsk : x.ask expression with
  | mk answer asked =>
      rw [hAsk] at hNone
      rcases answer with failure | _ | value
      · simp only [chain.finish_start]
      · simp only [chain.finish_start]
      · exact absurd rfl (hNone value)

theorem resolveWith_value {value : Text} {inner : Expansion Text}
    (hNew : chain.has expression = false) (hValue : (x.ask expression).1 = .ok (some value))
    (hInner : x.expandWith cut (chain.start expression) (cut value) = some inner) :
    x.resolveWith cut chain expression =
      some ⟨inner.result.map some, inner.chain.finish expression,
        .opened (chain.start expression).frames :: ((x.ask expression).2 ++ inner.events)⟩ := by
  rw [resolveWith, hNew, if_neg Bool.false_ne_true]
  cases hAsk : x.ask expression with
  | mk answer asked =>
      rw [hAsk] at hValue
      obtain rfl : answer = .ok (some value) := hValue
      simp only [hInner]
      rfl

theorem expandWith_nil (x : Expander) (cut : Text → List Segment) (chain : Chain) :
    x.expandWith cut chain [] = some ⟨.ok [], chain, []⟩ := by
  rw [expandWith]

theorem expandWith_literal (hLater : x.expandWith cut chain rest = some later) (text : Text) :
    x.expandWith cut chain (.literal text :: rest) =
      some ⟨later.result.map (text ++ ·), later.chain, later.events⟩ := by
  rw [expandWith, hLater]
  rfl

theorem expandWith_failed {failure : Failure}
    (hAnswer : x.resolveWith cut chain expression = some answer)
    (hFails : answer.result = .error failure) (d : Delimiter) (rest : List Segment) :
    x.expandWith cut chain (.placeholder d expression :: rest) =
      some ⟨.error failure, answer.chain, answer.events⟩ := by
  rw [expandWith, hAnswer]
  simp only [Option.bind_eq_bind, Option.bind_some, hFails]
  rfl

theorem expandWith_answered {value : Option Text}
    (hAnswer : x.resolveWith cut chain expression = some answer)
    (hValue : answer.result = .ok value)
    (hLater : x.expandWith cut answer.chain rest = some later) (d : Delimiter) :
    x.expandWith cut chain (.placeholder d expression :: rest) =
      some ⟨later.result.map ((value.getD (d.wrap expression)) ++ ·), later.chain,
        answer.events ++ later.events⟩ := by
  rw [expandWith, hAnswer]
  simp only [Option.bind_eq_bind, Option.bind_some, hValue, hLater]
  rfl

/-- Two properties, one of answers and one of segments put together, that every case of an expansion
keeps. -/
structure Kept (x : Expander) (cut : Text → List Segment)
    (resolve : Chain → Text → Option (Expansion (Option Text)))
    (expand : Chain → List Segment → Option (Expansion Text))
    (answers : Chain → Text → Expansion (Option Text) → Prop)
    (fills : Chain → List Segment → Expansion Text → Prop) : Prop where
  circular : ∀ {chain expression}, chain.has expression = true →
    answers chain expression ⟨.ok none, chain, [.circular (chain.cycle expression)]⟩
  unanswered : ∀ {chain expression}, chain.has expression = false →
    (∀ value, (x.ask expression).1 ≠ .ok (some value)) →
    answers chain expression ⟨(x.ask expression).1, chain,
      .opened (chain.start expression).frames :: (x.ask expression).2⟩
  value : ∀ {chain expression value inner}, chain.has expression = false →
    (x.ask expression).1 = .ok (some value) →
    expand (chain.start expression) (cut value) = some inner →
    fills (chain.start expression) (cut value) inner →
    answers chain expression ⟨inner.result.map some, inner.chain.finish expression,
      .opened (chain.start expression).frames :: ((x.ask expression).2 ++ inner.events)⟩
  nil : ∀ {chain}, fills chain [] ⟨.ok [], chain, []⟩
  literal : ∀ {chain text rest later}, expand chain rest = some later → fills chain rest later →
    fills chain (.literal text :: rest) ⟨later.result.map (text ++ ·), later.chain, later.events⟩
  failed : ∀ {chain expression answer failure}, resolve chain expression = some answer →
    answers chain expression answer → answer.result = .error failure →
    ∀ d rest, fills chain (.placeholder d expression :: rest)
      ⟨.error failure, answer.chain, answer.events⟩
  answered : ∀ {chain expression answer value rest later}, resolve chain expression = some answer →
    answers chain expression answer → answer.result = .ok value →
    expand answer.chain rest = some later → fills answer.chain rest later →
    ∀ d, fills chain (.placeholder d expression :: rest)
      ⟨later.result.map ((value.getD (d.wrap expression)) ++ ·), later.chain,
        answer.events ++ later.events⟩

variable {answers : Chain → Text → Expansion (Option Text) → Prop}
  {fills : Chain → List Segment → Expansion Text → Prop}

/-- What every case keeps holds of every expansion that comes out. -/
theorem Kept.of_expansionWith
    (h : Kept x cut (x.resolveWith cut) (x.expandWith cut) answers fills) :
    (∀ chain expression expansion, x.resolveWith cut chain expression = some expansion →
      answers chain expression expansion) ∧
    ∀ chain segments expansion, x.expandWith cut chain segments = some expansion →
      fills chain segments expansion := by
  have hBoth := resolveWith.mutual_partial_correctness x cut
    (fun chain expression expansion =>
      x.resolveWith cut chain expression = some expansion ∧ answers chain expression expansion)
    (fun chain segments expansion =>
      x.expandWith cut chain segments = some expansion ∧ fills chain segments expansion)
    ?_ ?_
  · exact ⟨fun chain expression expansion hRun => (hBoth.1 chain expression expansion hRun).2,
      fun chain segments expansion hRun => (hBoth.2 chain segments expansion hRun).2⟩
  · intro expandIn ih chain expression expansion hRun
    cases hHas : chain.has expression with
    | true =>
        rw [if_pos hHas] at hRun
        obtain rfl := Option.some.inj hRun
        exact ⟨resolveWith_circular cut hHas, h.circular hHas⟩
    | false =>
        rw [hHas, if_neg Bool.false_ne_true] at hRun
        have hUnanswered := fun hNone => And.intro
          (resolveWith_unanswered (x := x) cut hHas hNone) (h.unanswered hHas hNone)
        have hValue := fun (value : Text) (hFound : (x.ask expression).1 = .ok (some value))
            (inner : Expansion Text)
            (hInner : x.expandWith cut (chain.start expression) (cut value) = some inner ∧
              fills (chain.start expression) (cut value) inner) => And.intro
          (resolveWith_value hHas hFound hInner.1) (h.value hHas hFound hInner.1 hInner.2)
        cases hAsk : x.ask expression with
        | mk answer asked =>
            rw [hAsk] at hRun hUnanswered hValue
            simp only [chain.finish_start] at hRun
            cases answer with
            | error failure =>
                obtain rfl := Option.some.inj hRun
                exact hUnanswered (by simp)
            | ok value? =>
                cases value? with
                | none =>
                    obtain rfl := Option.some.inj hRun
                    exact hUnanswered (by simp)
                | some value =>
                    obtain ⟨inner, hInner, hSame⟩ := Option.bind_eq_some_iff.mp hRun
                    obtain rfl := Option.some.inj hSame
                    exact hValue value rfl inner (ih _ _ _ hInner)
  · intro resolveIn expandIn ihResolve ihExpand chain segments expansion hRun
    cases segments with
    | nil =>
        obtain rfl := Option.some.inj hRun
        exact ⟨expandWith_nil x cut chain, h.nil⟩
    | cons segment rest =>
        cases segment with
        | literal text =>
            obtain ⟨later, hLater, hSame⟩ := Option.bind_eq_some_iff.mp hRun
            obtain rfl := Option.some.inj hSame
            obtain ⟨hRest, hFills⟩ := ihExpand _ _ _ hLater
            exact ⟨expandWith_literal hRest text, h.literal hRest hFills⟩
        | placeholder d expression =>
            obtain ⟨answer, hAnswer, hThen⟩ := Option.bind_eq_some_iff.mp hRun
            obtain ⟨hResolve, hAnswers⟩ := ihResolve _ _ _ hAnswer
            cases hResult : answer.result with
            | error failure =>
                simp only [hResult] at hThen
                obtain rfl := Option.some.inj hThen
                exact ⟨expandWith_failed hResolve hResult d rest,
                  h.failed hResolve hAnswers hResult d rest⟩
            | ok value =>
                simp only [hResult] at hThen
                obtain ⟨later, hLater, hSame⟩ := Option.bind_eq_some_iff.mp hThen
                obtain rfl := Option.some.inj hSame
                obtain ⟨hRest, hFills⟩ := ihExpand _ _ _ hLater
                exact ⟨expandWith_answered hResolve hResult hRest d,
                  h.answered hResolve hAnswers hResult hRest hFills d⟩

/-! The expander itself cuts values by `valueSegments`. -/

theorem resolveWith_valueSegments (x : Expander) : x.resolveWith x.valueSegments = x.resolveIn := by
  with_unfolding_all rfl

theorem expandWith_valueSegments (x : Expander) : x.expandWith x.valueSegments = x.expandIn := by
  with_unfolding_all rfl

theorem resolveIn_circular (h : chain.has expression = true) :
    x.resolveIn chain expression =
      some ⟨.ok none, chain, [.circular (chain.cycle expression)]⟩ := by
  rw [← resolveWith_valueSegments]
  exact resolveWith_circular x.valueSegments h

theorem resolveIn_unanswered (hNew : chain.has expression = false)
    (hNone : ∀ value, (x.ask expression).1 ≠ .ok (some value)) :
    x.resolveIn chain expression =
      some ⟨(x.ask expression).1, chain,
        .opened (chain.start expression).frames :: (x.ask expression).2⟩ := by
  rw [← resolveWith_valueSegments]
  exact resolveWith_unanswered x.valueSegments hNew hNone

theorem resolveIn_value {value : Text} {inner : Expansion Text}
    (hNew : chain.has expression = false) (hValue : (x.ask expression).1 = .ok (some value))
    (hInner : x.expandIn (chain.start expression) (x.valueSegments value) = some inner) :
    x.resolveIn chain expression =
      some ⟨inner.result.map some, inner.chain.finish expression,
        .opened (chain.start expression).frames :: ((x.ask expression).2 ++ inner.events)⟩ := by
  rw [← expandWith_valueSegments] at hInner
  rw [← resolveWith_valueSegments, resolveWith_value hNew hValue hInner]

theorem expandIn_nil (x : Expander) (chain : Chain) :
    x.expandIn chain [] = some ⟨.ok [], chain, []⟩ := by
  rw [← expandWith_valueSegments, expandWith_nil]

theorem expandIn_literal (hLater : x.expandIn chain rest = some later) (text : Text) :
    x.expandIn chain (.literal text :: rest) =
      some ⟨later.result.map (text ++ ·), later.chain, later.events⟩ := by
  rw [← expandWith_valueSegments] at hLater ⊢
  exact expandWith_literal hLater text

theorem expandIn_failed {failure : Failure} (hAnswer : x.resolveIn chain expression = some answer)
    (hFails : answer.result = .error failure) (d : Delimiter) (rest : List Segment) :
    x.expandIn chain (.placeholder d expression :: rest) =
      some ⟨.error failure, answer.chain, answer.events⟩ := by
  rw [← resolveWith_valueSegments] at hAnswer
  rw [← expandWith_valueSegments, expandWith_failed hAnswer hFails]

theorem expandIn_answered {value : Option Text}
    (hAnswer : x.resolveIn chain expression = some answer) (hValue : answer.result = .ok value)
    (hLater : x.expandIn answer.chain rest = some later) (d : Delimiter) :
    x.expandIn chain (.placeholder d expression :: rest) =
      some ⟨later.result.map ((value.getD (d.wrap expression)) ++ ·), later.chain,
        answer.events ++ later.events⟩ := by
  rw [← resolveWith_valueSegments] at hAnswer
  rw [← expandWith_valueSegments] at hLater ⊢
  exact expandWith_answered hAnswer hValue hLater d

/-- What every case keeps holds of everything that the expander itself comes to. -/
theorem Kept.of_expansion (h : Kept x x.valueSegments x.resolveIn x.expandIn answers fills) :
    (∀ chain expression expansion, x.resolveIn chain expression = some expansion →
      answers chain expression expansion) ∧
    ∀ chain segments expansion, x.expandIn chain segments = some expansion →
      fills chain segments expansion := by
  rw [← resolveWith_valueSegments, ← expandWith_valueSegments] at h ⊢
  exact h.of_expansionWith

end Placeholder.Expander
