import Placeholder.Proofs.Expansion.Failing
import Placeholder.Proofs.Session.Remembering
/-!
What is asked at the top level. A question to a source belongs to the frame opened before it, so the
questions that an expression itself leads to, asked on an empty chain, can be told from those of the
values below it. As long as answers are remembered, an expression that has an answer leads to such
questions once.
-/
namespace Placeholder

/-- The questions asked in a frame that was opened on an empty chain, and not below it. The flag tells
whether such a frame is the last one that was opened. -/
def topQuestions : Bool → List Event → List (Nat × Text)
  | _, [] => []
  | _, .opened frames :: rest => topQuestions (frames.length == 1) rest
  | true, .asked place expression :: rest => (place, expression) :: topQuestions true rest
  | false, .asked _ _ :: rest => topQuestions false rest
  | _, .circular _ :: rest => topQuestions false rest

theorem Headed.topQuestions {events : List Event} (h : Headed events) (top : Bool) :
    topQuestions top events = Placeholder.topQuestions false events := by
  cases events with
  | nil => cases top <;> rfl
  | cons event rest =>
      cases event with
      | opened frames => cases top <;> rfl
      | asked place expression => exact absurd rfl (h place expression rest)
      | circular path => cases top <;> rfl

theorem topQuestions_append (top : Bool) (events : List Event) {more : List Event}
    (h : Headed more) :
    topQuestions top (events ++ more) = topQuestions top events ++ topQuestions false more := by
  induction events generalizing top with
  | nil =>
      rw [List.nil_append, h.topQuestions]
      cases top <;> rfl
  | cons event rest ih =>
      rw [List.cons_append]
      cases event with
      | opened frames => cases top <;> exact ih _
      | asked place expression =>
          cases top with
          | true => exact congrArg (_ :: ·) (ih true)
          | false => exact ih false
      | circular path => cases top <;> exact ih false

/-- Below the top level no question counts. -/
theorem topQuestions_eq_nil {events : List Event}
    (h : ∀ frames, .opened frames ∈ events → frames.length ≠ 1) :
    topQuestions false events = [] := by
  induction events with
  | nil => rfl
  | cons event rest ih =>
      have hRest := ih fun frames hMem => h frames (List.mem_cons_of_mem _ hMem)
      cases event with
      | opened frames =>
          have hDeep := h frames (List.mem_cons_self ..)
          rw [topQuestions, beq_eq_false_iff_ne.mpr hDeep, hRest]
      | asked place expression => exact hRest
      | circular path => exact hRest

theorem topQuestions_asked (expression : Text) (places : List Nat) (rest : List Event) :
    topQuestions true (places.map (.asked · expression) ++ rest) =
      places.map (·, expression) ++ topQuestions true rest := by
  induction places with
  | nil => rfl
  | cons place places ih => exact congrArg ((place, expression) :: ·) ih

/-- Frames that stand on others are none of the top level. -/
theorem Restores.topQuestions {α : Type} {chain : Chain} {expansion : Expansion α}
    (h : Restores chain expansion) (hOpen : chain.frames ≠ []) :
    topQuestions false expansion.events = [] := by
  refine topQuestions_eq_nil fun frames hMem hOne => ?_
  obtain ⟨pushed, hPushed, rfl⟩ := h.frames frames hMem
  have hSome := List.length_pos_iff.mpr hOpen
  have hMore := List.length_pos_iff.mpr hPushed
  rw [List.length_append] at hOne
  omega

namespace Expander

variable {x : Expander}

/-- On an empty chain, the questions of the top level are those about the expression itself. -/
theorem topQuestions_resolveIn {prefixes : List Text} {expression : Text}
    {inner : Expansion (Option Text)}
    (h : x.resolveIn (.withPrefixes prefixes) expression = some inner) :
    ∃ count, topQuestions false inner.events =
      (List.range' 0 count).map (·, expression) := by
  obtain ⟨count, hAsked⟩ := events_askInOrder expression 0 x.sources
  have hOwn : ∀ below : List Event, Headed below → topQuestions false below = [] →
      topQuestions false (.opened ((Chain.withPrefixes prefixes).start expression).frames ::
        ((x.ask expression).2 ++ below)) = (List.range' 0 count).map (·, expression) := by
    intro below hHeaded hBelow
    rw [ask, hAsked]
    show topQuestions true _ = _
    rw [topQuestions_asked, hHeaded.topQuestions, hBelow, List.append_nil]
  have hNothing := hOwn [] (fun _ _ _ => by simp) rfl
  rw [List.append_nil] at hNothing
  rw [resolveIn, if_neg (by simp [Chain.has, Chain.withPrefixes])] at h
  refine ⟨count, ?_⟩
  cases hAnswer : x.ask expression with
  | mk answer asked =>
      rw [hAnswer] at h hOwn hNothing
      cases answer with
      | error failure =>
          obtain rfl := Option.some.inj h
          exact hNothing
      | ok value? =>
          cases value? with
          | none =>
              obtain rfl := Option.some.inj h
              exact hNothing
          | some value =>
              obtain ⟨below, hBelow, hSame⟩ := Option.bind_eq_some_iff.mp h
              obtain rfl := Option.some.inj hSame
              have hRestores := x.restores_of_expansion.2 _ _ _ hBelow
              have hOpen : ((Chain.withPrefixes prefixes).start expression).frames ≠ [] := by
                simp [Chain.start]
              exact hOwn below.events hRestores.headed (hRestores.topQuestions hOpen)

/-- The expression has an answer on an empty chain. -/
def Answers (x : Expander) (prefixes : List Text) (expression : Text) : Prop :=
  ∃ value, x.answerOn (.withPrefixes prefixes) expression = some (.ok (some value))

/-- Since `before`, no source was asked twice at the top level about an expression that has an answer,
and where one was asked the answer is remembered. -/
def Spares (x : Expander) (prefixes : List Text) (before : List Event) (s : Session) : Prop :=
  ∃ since, s.events = before ++ since ∧ ∀ expression, x.Answers prefixes expression →
    ∀ place, (topQuestions false since).count (place, expression) ≤ 1 ∧
      ((place, expression) ∈ topQuestions false since → s.answers.get? expression ≠ none)

variable {prefixes : List Text} {before : List Event} {s after : Session}

/-- A question that nothing is added to at the top level. -/
theorem Spares.below (h : x.Spares prefixes before s) {events : List Event}
    (hEvents : after.events = s.events ++ events) (hHeaded : Headed events)
    (hNone : topQuestions false events = []) (hAnswers : after.answers = s.answers) :
    x.Spares prefixes before after := by
  obtain ⟨since, hSince, hSpares⟩ := h
  refine ⟨since ++ events, by rw [hEvents, hSince, List.append_assoc], ?_⟩
  rw [topQuestions_append false since hHeaded, hNone, List.append_nil, hAnswers]
  exact hSpares

/-- A question of the top level that was not answered from what is remembered. -/
theorem Spares.asked (h : x.Spares prefixes before s) {expression : Text} {events : List Event}
    {count : Nat} (hEvents : after.events = s.events ++ events) (hHeaded : Headed events)
    (hAsked : topQuestions false events = (List.range' 0 count).map (·, expression))
    (hUnknown : s.answers.get? expression = none)
    (hKnown : x.Answers prefixes expression → after.answers.get? expression ≠ none)
    (hKept : ∀ other, s.answers.get? other ≠ none → after.answers.get? other ≠ none) :
    x.Spares prefixes before after := by
  obtain ⟨since, hSince, hSpares⟩ := h
  refine ⟨since ++ events, by rw [hEvents, hSince, List.append_assoc], ?_⟩
  intro other hAnswers place
  obtain ⟨hOnce, hRemembered⟩ := hSpares other hAnswers place
  rw [topQuestions_append false since hHeaded, hAsked, List.count_append]
  by_cases hSame : other = expression
  · subst hSame
    have hNever : (topQuestions false since).count (place, other) = 0 :=
      List.count_eq_zero.mpr fun hMem => hRemembered hMem hUnknown
    have hNodup : ((List.range' 0 count).map (·, other)).Nodup :=
      (List.nodup_range' ..).map fun _ _ hEq => (Prod.mk.inj hEq).1
    have hNow := List.nodup_iff_count_le_one.mp hNodup (place, other)
    exact ⟨by omega, fun _ => hKnown hAnswers⟩
  · have hOthers : (place, other) ∉ (List.range' 0 count).map (·, expression) := by
      rw [List.mem_map]
      rintro ⟨_, _, hEq⟩
      exact hSame (Prod.mk.inj hEq).2.symm
    rw [List.count_eq_zero.mpr hOthers, Nat.add_zero]
    refine ⟨hOnce, fun hMem => hKept other (hRemembered ?_)⟩
    exact (List.mem_append.mp hMem).resolve_right hOthers

theorem Spares.resolve (h : x.Spares prefixes before s) (hRemembers : x.remembers = true)
    (hPrefixes : s.chain.prefixes = prefixes) {expression : Text}
    {result : Except Failure (Option Text)}
    (hResolve : x.resolve s expression = some (result, after)) :
    x.Spares prefixes before after := by
  rw [Expander.resolve] at hResolve
  cases hRemembered : x.remembered? s expression with
  | some answer =>
      rw [hRemembered] at hResolve
      obtain ⟨_, rfl⟩ := Prod.mk.inj (Option.some.inj hResolve)
      exact h
  | none =>
      rw [hRemembered] at hResolve
      obtain ⟨inner, hInner, hConclude⟩ := Option.map_eq_some_iff.mp hResolve
      have hHeaded := (x.restores_of_expansion.1 _ _ _ hInner).headed
      have hEvents := (x.conclude_session s expression inner).2
      have hAnswers := x.answers_conclude s expression inner
      have hResult := x.fst_conclude s expression inner
      rw [hConclude] at hEvents hAnswers hResult
      cases hEmpty : s.chain.isEmpty with
      | false =>
          have hOpen : s.chain.frames ≠ [] := fun hNil => by
            rw [Chain.isEmpty, hNil] at hEmpty
            cases hEmpty
          refine h.below hEvents hHeaded ?_ ?_
          · exact (x.restores_of_expansion.1 _ _ _ hInner).topQuestions hOpen
          · rw [hAnswers, hEmpty]
            split <;> rfl
      | true =>
          have hTop := Chain.eq_withPrefixes hEmpty
          rw [hPrefixes] at hTop
          rw [remembered?, hRemembers, hEmpty] at hRemembered
          rw [hRemembers, hEmpty] at hAnswers
          obtain ⟨count, hAsked⟩ := topQuestions_resolveIn (hTop ▸ hInner)
          refine h.asked hEvents hHeaded hAsked hRemembered ?_ ?_
          · rintro ⟨value, hValue⟩
            rw [← hTop, answerOn, hInner, Option.map_some, ← hResult] at hValue
            rw [Option.some.inj hValue] at hAnswers
            simp only [Bool.and_self, if_true] at hAnswers
            rw [hAnswers, Table.get?_insert, if_pos rfl]
            exact Option.some_ne_none value
          · intro other hOther
            rw [hAnswers]
            split
            · rw [Bool.and_self, if_pos rfl, Table.get?_insert]
              split
              · exact Option.some_ne_none _
              · exact hOther
            · exact hOther

theorem Spares.fillSegments (segments : List Segment) (h : x.Spares prefixes before s)
    (hRemembers : x.remembers = true) (hFaithful : x.Faithful prefixes s.answers)
    (hPrefixes : s.chain.prefixes = prefixes) {result : Except Failure Text}
    (hFill : x.fillSegments s segments = some (result, after)) :
    x.Spares prefixes before after := by
  let kept (s : Session) : Prop :=
    x.Spares prefixes before s ∧ x.Faithful prefixes s.answers ∧ s.chain.prefixes = prefixes
  have hKept : kept s → kept after := fillSegments_induct (R := fun s _ after => kept s → kept after)
    (fun _ => id) (fun _ _ _ _ hNext hLater hHere => hLater (hNext hHere)) ?_ hFill
  · exact (hKept ⟨h, hFaithful, hPrefixes⟩).1
  · rintro s _ expression result after _ hResolve ⟨hSpares, hFaithful, rfl⟩
    have hAnswered := hFaithful.resolve expression
    rw [hResolve] at hAnswered
    generalize x.answerOn s.chain expression = given at hAnswered
    cases hAnswered with
    | ends hChain hStill =>
        exact ⟨hSpares.resolve hRemembers rfl hResolve, hStill, congrArg Chain.prefixes hChain⟩

end Expander

end Placeholder
