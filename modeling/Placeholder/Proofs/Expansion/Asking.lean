import Placeholder.Proofs.Expansion.Ending
/-!
What the sources are asked for. It is the expression itself, and below it only what stands as a
placeholder in an answer that is expanded again; a session asks for nothing else.
-/
namespace Placeholder

/-- Every expression that some of the events ask for has the property. -/
def Asks (property : Text → Prop) (events : List Event) : Prop :=
  ∀ place expression, .asked place expression ∈ events → property expression

namespace Asks

variable {property weaker : Text → Prop} {events more : List Event}

theorem nil : Asks property [] := by
  intro place expression hMem
  cases hMem

theorem append (h : Asks property events) (hMore : Asks property more) :
    Asks property (events ++ more) := by
  intro place expression hMem
  rcases List.mem_append.mp hMem with hHere | hLater
  · exact h place expression hHere
  · exact hMore place expression hLater

theorem mono (h : Asks property events)
    (hWeaker : ∀ expression, property expression → weaker expression) : Asks weaker events :=
  fun place expression hMem => hWeaker expression (h place expression hMem)

/-- No question is asked by opening a frame. -/
theorem opened (h : Asks property events) (frames : List Text) :
    Asks property (.opened frames :: events) := by
  intro place expression hMem
  rcases List.mem_cons.mp hMem with hHere | hLater
  · cases hHere
  · exact h place expression hLater

end Asks

/-- What was asked from one session to the other has the property. -/
def Session.Asks (property : Text → Prop) (s after : Session) : Prop :=
  ∃ events, after.events = s.events ++ events ∧ Placeholder.Asks property events

namespace Session.Asks

variable {property weaker : Text → Prop} {s after later : Session}

theorem refl (property : Text → Prop) (s : Session) : s.Asks property s :=
  ⟨[], (List.append_nil _).symm, .nil⟩

theorem trans (h : s.Asks property after) (hLater : after.Asks property later) :
    s.Asks property later := by
  obtain ⟨events, hEvents, hAsks⟩ := h
  obtain ⟨more, hMore, hAsksMore⟩ := hLater
  exact ⟨events ++ more, by rw [hMore, hEvents, List.append_assoc], hAsks.append hAsksMore⟩

theorem mono (h : s.Asks property after)
    (hWeaker : ∀ expression, property expression → weaker expression) : s.Asks weaker after := by
  obtain ⟨events, hEvents, hAsks⟩ := h
  exact ⟨events, hEvents, hAsks.mono hWeaker⟩

end Session.Asks

namespace Expander

variable {x : Expander}

/-- The expression of a placeholder in an answer, where answers are expanded again. -/
def Nested (x : Expander) (expression : Text) : Prop :=
  ∃ value ∈ x.answers, ∃ d, .placeholder d expression ∈ x.valueSegments value

theorem ask_asks (x : Expander) (expression : Text) :
    Asks (· = expression) (x.ask expression).2 := by
  intro place other hMem
  obtain ⟨n, hSame⟩ := (askInOrder_spec expression 0 x.sources).2 _ hMem
  exact (Event.asked.inj hSame).2

/-- An expansion asks for the expression, or for the placeholders of the segments, and for what is
nested below. -/
theorem asks_of_expansion (x : Expander) :
    (∀ chain expression expansion, x.resolveIn chain expression = some expansion →
      Asks (fun asked => asked = expression ∨ x.Nested asked) expansion.events) ∧
    ∀ chain segments expansion, x.expandIn chain segments = some expansion →
      Asks (fun asked => (∃ d, .placeholder d asked ∈ segments) ∨ x.Nested asked) expansion.events := by
  have hInRest : ∀ (segment : Segment) (rest : List Segment) (asked : Text),
      (∃ d, Segment.placeholder d asked ∈ rest) ∨ x.Nested asked →
        (∃ d, Segment.placeholder d asked ∈ segment :: rest) ∨ x.Nested asked :=
    fun segment rest asked => Or.imp_left fun ⟨d, hMem⟩ => ⟨d, List.mem_cons_of_mem _ hMem⟩
  have hInFront : ∀ (d : Delimiter) (expression : Text) (rest : List Segment) (asked : Text),
      asked = expression ∨ x.Nested asked →
        (∃ e, Segment.placeholder e asked ∈ .placeholder d expression :: rest) ∨ x.Nested asked :=
    fun d expression rest asked => Or.imp_left fun hSame => ⟨d, hSame ▸ List.mem_cons_self ..⟩
  apply Kept.of_expansion
  constructor
  case circular =>
    intro chain expression _ place asked hMem
    cases List.mem_singleton.mp hMem
  case unanswered =>
    intro chain expression _ _
    exact ((x.ask_asks expression).mono fun _ => .inl).opened _
  case value =>
    intro chain expression value inner _ hValue _ hInner
    have hFound := (askInOrder_spec expression 0 x.sources).1 value hValue
    refine (((x.ask_asks expression).mono fun _ => .inl).append
      (hInner.mono fun below hBelow => .inr ?_)).opened _
    exact hBelow.elim (fun hHere => ⟨value, hFound, hHere⟩) id
  case nil => exact .nil
  case literal =>
    intro chain text rest later _ hLater
    exact hLater.mono (hInRest _ rest)
  case failed =>
    intro chain expression answer failure _ hAnswer _ d rest
    exact hAnswer.mono (hInFront d expression rest)
  case answered =>
    intro chain expression answer value rest later _ hAnswer _ _ hLater d
    exact (hAnswer.mono (hInFront d expression rest)).append (hLater.mono (hInRest _ rest))

theorem asks_of_resolve {s after : Session} {expression : Text}
    {result : Except Failure (Option Text)} (h : x.resolve s expression = some (result, after)) :
    s.Asks (fun asked => asked = expression ∨ x.Nested asked) after := by
  rw [resolve] at h
  cases hRemembered : x.remembered? s expression with
  | some answer =>
      rw [hRemembered] at h
      cases h
      exact .refl _ s
  | none =>
      rw [hRemembered] at h
      obtain ⟨inner, hInner, hConclude⟩ := Option.map_eq_some_iff.mp h
      have hEvents := (x.conclude_session s expression inner).2
      rw [hConclude] at hEvents
      exact ⟨inner.events, hEvents, x.asks_of_expansion.1 _ _ _ hInner⟩

end Expander

end Placeholder
