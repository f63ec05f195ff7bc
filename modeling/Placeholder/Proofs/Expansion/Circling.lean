import Placeholder.Proofs.Expansion.Failing
import Placeholder.Proofs.Expansion.Leading
/-!
What the report of a circle says. On a chain without frames, a question that is reported was reached
from question to question, each of them standing as a placeholder in the value of the one before, and
the reported path is made of their keys. Keys are compared without their prefixes, while values are
looked up for the expressions with them. A placeholder that is reported stays in the text that its
frame comes to.
-/
namespace Placeholder

/-- The key of a question, with the prefixes of the chain. -/
def Chain.keyOf (chain : Chain) (query : Query) : Text := chain.key query.expression

namespace Expander

/-- The first value that the sources give for the first expression is expanded again, and the second
expression stands in it between delimiters. -/
def Rescans (x : Expander) (expression nested : Text) : Prop :=
  ∃ value d, (x.ask expression).1 = .ok (some value) ∧
    x.recursive = true ∧ x.markup.delimiters.opensIn value = true ∧
    .placeholder d nested ∈ x.markup.segments value ∧ d.wrap nested <:+: value

/-- A circle that `start` leads into. The questions of `rounds` are answered inside each other, and in the
last one stands the `trigger`, which has the key of the first. -/
structure Circle (x : Expander) (start : Query) (path : List Text) (rounds : List Query)
    (trigger : Query) : Prop where
  /-- The path is made of the keys. -/
  keys : path = (rounds ++ [trigger]).map start.chain.keyOf
  turns : rounds ≠ []
  closes : path.head? = path.getLast?
  distinct : path.dropLast.Nodup
  /-- All these questions are met, each of `rounds` with a frame of its own. -/
  met : ∀ query ∈ rounds ++ [trigger], Relation.ReflTransGen x.Leads start query
  opened : ∀ query ∈ rounds, query.Opens (query.chain.frames ++ [start.chain.keyOf query])
  rescanned : ((rounds ++ [trigger]).map Query.expression).IsChain x.Rescans

/-- The question `last` is answered by a text in which every placeholder of its value with the
expression of `trigger` stands verbatim, delimiters included. -/
def Shows (x : Expander) (last trigger : Query) : Prop :=
  ∃ value answer text, (x.ask last.expression).1 = .ok (some value) ∧
    x.resolveIn last.chain last.expression = some answer ∧ answer.result = .ok (some text) ∧
    ∀ d, .placeholder d trigger.expression ∈ x.markup.segments value →
      d.wrap trigger.expression <:+: text

/-- The report of `path` is genuine: a question asked on the chain about one of the expressions `asked`
leads into such a circle, and the token that is reported stays in the text of the innermost frame,
unless some source failed and the run was aborted with its failure. -/
def Genuine (x : Expander) (base : Chain) (asked : Text → Prop) (aborts : Failure → Prop)
    (path : List Text) : Prop :=
  ∃ start rounds last trigger, start.chain = base ∧ asked start.expression ∧
    x.Circle start path rounds trigger ∧ rounds.getLast? = some last ∧
    (x.Shows last trigger ∨ ∃ failure, x.Refuses failure ∧ aborts failure)

variable {x : Expander} {chain : Chain} {expression value text : Text} {segments : List Segment}
  {start query later trigger : Query} {path : List Text} {rounds : List Query}

/-- There are placeholders in a value only if it is expanded again. -/
theorem mem_valueSegments_iff {d : Delimiter} :
    .placeholder d expression ∈ x.valueSegments value ↔
      x.recursive = true ∧ x.markup.delimiters.opensIn value = true ∧
        .placeholder d expression ∈ x.markup.segments value := by
  rw [valueSegments]
  split
  · rename_i hAgain
    simp [Bool.and_eq_true_iff.mp hAgain]
  · rename_i hNot
    rw [Bool.and_eq_true] at hNot
    simp only [List.mem_singleton, reduceCtorEq, false_iff]
    exact fun h => hNot ⟨h.1, h.2.1⟩

theorem Leads.rescans (h : x.Leads query later) : x.Rescans query.expression later.expression := by
  cases h with
  | @inside chain expression value inner written front back d done hNew hValue hCut hFront hDone =>
      have hMem : .placeholder d inner ∈ x.valueSegments value := by rw [hCut]; simp
      obtain ⟨hRecursive, hOpens, hMem⟩ := mem_valueSegments_iff.mp hMem
      exact ⟨value, d, hValue, hRecursive, hOpens, hMem, (Markup.infix_of_mem_segments hMem).2⟩

/-- The questions on the way from `start` to `query`. Their keys make up the frames on the chain. -/
structure Trail (x : Expander) (start query : Query) (trail : List Query) : Prop where
  chain : query.chain =
    ⟨start.chain.prefixes, start.chain.frames ++ trail.map start.chain.keyOf⟩
  leads : (trail ++ [query]).IsChain x.Leads
  met : ∀ other ∈ trail ++ [query], Relation.ReflTransGen x.Leads start other
  opened : ∀ other ∈ trail, other.Opens (other.chain.frames ++ [start.chain.keyOf other])

theorem Trail.refl (x : Expander) (start : Query) : x.Trail start start [] where
  chain := by rw [List.map_nil, List.append_nil]
  leads := List.isChain_singleton start
  met other hMem := by rw [List.mem_singleton.mp hMem]
  opened := nofun

theorem Trail.tail {trail : List Query} (h : x.Trail start query trail) (hLeads : x.Leads query later) :
    x.Trail start later (trail ++ [query]) := by
  have hKey : query.chain.key query.expression = start.chain.keyOf query := by rw [h.chain]; rfl
  have hOpens : query.Opens (query.chain.frames ++ [start.chain.keyOf query]) :=
    ⟨hLeads.start.1, by rw [Chain.start, hKey]⟩
  refine ⟨?_, ?_, fun other hMem => ?_, fun other hMem => ?_⟩
  · rw [hLeads.start.2, Chain.start, hKey, h.chain, List.map_append, List.append_assoc,
      List.map_singleton]
  · apply h.leads.append (List.isChain_singleton later)
    intro last hLast next hNext
    rw [List.getLast?_concat] at hLast
    cases hLast
    cases hNext
    exact hLeads
  · rcases List.mem_append.mp hMem with hHere | hLast
    · exact h.met other hHere
    · rw [List.mem_singleton.mp hLast]
      exact (h.met query (by simp)).tail hLeads
  · rcases List.mem_append.mp hMem with hHere | hLast
    · exact h.opened other hHere
    · rw [List.mem_singleton.mp hLast]
      exact hOpens

theorem exists_trail (h : Relation.ReflTransGen x.Leads start query) :
    ∃ trail, x.Trail start query trail := by
  induction h with
  | refl => exact ⟨[], .refl x start⟩
  | tail _ hLeads ih =>
      obtain ⟨trail, hTrail⟩ := ih
      exact ⟨_, hTrail.tail hLeads⟩

/-- A question that is reported on a chain without frames closes a circle. -/
theorem exists_circle (hEmpty : start.chain.frames = [])
    (hMet : Relation.ReflTransGen x.Leads start trigger)
    (hHas : trigger.chain.has trigger.expression = true) :
    ∃ rounds last, rounds.getLast? = some last ∧ x.Leads last trigger ∧
      x.Circle start (trigger.chain.cycle trigger.expression) rounds trigger := by
  obtain ⟨trail, hTrail⟩ := exists_trail hMet
  obtain ⟨before, inner, hFrames, _, hCycle⟩ := Chain.exists_cycle hHas
  have hKey : trigger.chain.key trigger.expression = start.chain.keyOf trigger := by
    rw [hTrail.chain]
    rfl
  rw [hKey] at hFrames hCycle
  have hKeys : trail.map start.chain.keyOf = before ++ start.chain.keyOf trigger :: inner := by
    rw [← hFrames, hTrail.chain, hEmpty, List.nil_append]
  -- The frames from the key on are those of the last questions of the trail.
  obtain ⟨earlier, latest, rfl, rfl, hLatest⟩ := List.map_eq_append_iff.mp hKeys
  obtain ⟨first, rounds, rfl, hFirst, rfl⟩ := List.map_eq_cons_iff.mp hLatest
  have hPath : trigger.chain.cycle trigger.expression =
      (first :: rounds).map start.chain.keyOf ++ [start.chain.keyOf trigger] := by
    rw [hCycle, List.map_cons, hFirst]
  have hRounds : (first :: rounds ++ [trigger]).IsChain x.Leads :=
    hTrail.leads.suffix ⟨earlier, by simp⟩
  obtain ⟨last, hLast⟩ : ∃ last, (first :: rounds).getLast? = some last :=
    ⟨_, List.getLast?_eq_some_getLast (List.cons_ne_nil _ _)⟩
  have hLeads : x.Leads last trigger := (List.isChain_append.mp hRounds).2.2 last hLast trigger rfl
  refine ⟨first :: rounds, last, hLast, hLeads, ?_, List.cons_ne_nil _ _, ?_, ?_, ?_, ?_, ?_⟩
  · rw [hPath, List.map_append, List.map_singleton]
  · rw [hPath, List.getLast?_concat, List.map_cons, List.cons_append, List.head?_cons, hFirst]
  · obtain ⟨pushed, hPushed, hDistinct, _⟩ := grows_of_leads hMet
    rw [hFrames, hEmpty, List.nil_append] at hPushed
    rw [hPath, List.dropLast_concat, List.map_cons, hFirst]
    exact (hPushed ▸ hDistinct).of_append_right
  · intro query hMem
    exact hTrail.met query (by rw [List.append_assoc]; exact List.mem_append_right _ hMem)
  · exact fun query hMem => hTrail.opened query (List.mem_append_right _ hMem)
  · exact (List.isChain_map Query.expression).mpr (hRounds.imp fun _ _ => Leads.rescans)

/-- Where segments come to a text, every placeholder among them is answered, and its answer stands in the
text, or the placeholder itself if there is none. -/
def Fills (x : Expander) (chain : Chain) (segments : List Segment) (expansion : Expansion Text) :
    Prop :=
  ∀ text d expression, expansion.result = .ok text → .placeholder d expression ∈ segments →
    ∃ answer value?, x.resolveIn chain expression = some answer ∧ answer.result = .ok value? ∧
      value?.getD (d.wrap expression) <:+: text

theorem fills_of_expandIn (x : Expander) (chain : Chain) (segments : List Segment)
    (expansion : Expansion Text) (h : x.expandIn chain segments = some expansion) :
    x.Fills chain segments expansion := by
  suffices hBoth : Kept x x.valueSegments x.resolveIn x.expandIn (fun _ _ _ => True) x.Fills from
    hBoth.of_expansion.2 chain segments expansion h
  constructor
  case circular => exact fun _ => trivial
  case unanswered => exact fun _ _ => trivial
  case value => exact fun _ _ _ _ => trivial
  case nil =>
    intro chain text d expression _ hMem
    cases hMem
  case literal =>
    intro chain front rest later _ hLater text d expression hText hMem
    obtain ⟨written, hWritten, rfl⟩ := exists_of_map_eq_ok hText
    obtain ⟨answer, value?, hAnswer, hValue, hInfix⟩ :=
      hLater written d expression hWritten ((List.mem_cons.mp hMem).resolve_left nofun)
    exact ⟨answer, value?, hAnswer, hValue, hInfix.trans (List.suffix_append ..).isInfix⟩
  case failed =>
    intro chain expression answer failure _ _ _ d rest text e other hText
    cases hText
  case answered =>
    intro chain expression answer value? rest later hResolve _ hValue _ hLater d text e other hText hMem
    obtain ⟨written, hWritten, rfl⟩ := exists_of_map_eq_ok hText
    rcases List.mem_cons.mp hMem with hHere | hBehind
    · obtain ⟨rfl, rfl⟩ := Segment.placeholder.inj hHere
      exact ⟨answer, value?, hResolve, hValue, (List.prefix_append ..).isInfix⟩
    · rw [(x.restores_of_expansion.1 _ _ _ hResolve).same] at hLater
      obtain ⟨below, below?, hBelow, hFound, hInfix⟩ := hLater written e other hWritten hBehind
      exact ⟨below, below?, hBelow, hFound, hInfix.trans (List.suffix_append ..).isInfix⟩

/-- A question with a value is answered by what the value comes to. -/
theorem exists_inner_of_value {answer : Expansion (Option Text)} {result : Option Text}
    (hNew : chain.has expression = false) (hValue : (x.ask expression).1 = .ok (some value))
    (h : x.resolveIn chain expression = some answer) (hResult : answer.result = .ok result) :
    ∃ inner text, x.expandIn (chain.start expression) (x.valueSegments value) = some inner ∧
      inner.result = .ok text ∧ result = some text := by
  cases hInner : x.expandIn (chain.start expression) (x.valueSegments value) with
  | none =>
      rw [resolveIn, hNew] at h
      cases hAsk : x.ask expression with
      | mk found asked =>
          rw [hAsk] at h hValue
          obtain rfl : found = .ok (some value) := hValue
          simp [hInner] at h
  | some inner =>
      rw [resolveIn_value hNew hValue hInner] at h
      obtain rfl := Option.some.inj h
      obtain ⟨text, hText, rfl⟩ := exists_of_map_eq_ok hResult
      exact ⟨inner, text, rfl, hText, rfl⟩

/-- If a question is answered without a failure, so is every question that it leads to. -/
theorem answered_of_leads {answer : Expansion (Option Text)} {result : Option Text}
    (hMet : Relation.ReflTransGen x.Leads start query)
    (h : x.resolveIn start.chain start.expression = some answer)
    (hResult : answer.result = .ok result) :
    ∃ below result, x.resolveIn query.chain query.expression = some below ∧
      below.result = .ok result := by
  induction hMet with
  | refl => exact ⟨answer, result, h, hResult⟩
  | tail _ hLeads ih =>
      obtain ⟨outer, found, hOuter, hFound⟩ := ih
      have hChain := hLeads.start.2
      cases hLeads with
      | @inside chain expression value nested written front back d done hNew hValue hCut _ _ =>
          obtain ⟨inner, text, hInner, hText, _⟩ := exists_inner_of_value hNew hValue hOuter hFound
          have hMem : .placeholder d nested ∈ x.valueSegments value := by rw [hCut]; simp
          obtain ⟨below, below?, hBelow, hGiven, _⟩ :=
            x.fills_of_expandIn _ _ _ hInner text d nested hText hMem
          rw [← hChain] at hBelow
          exact ⟨below, below?, hBelow, hGiven⟩

/-- Where a question is answered without a failure, a placeholder in its value that is reported stands in
its text. -/
theorem shows_of_answered {answer : Expansion (Option Text)} {result : Option Text}
    (hLeads : x.Leads query trigger) (hHas : trigger.chain.has trigger.expression = true)
    (h : x.resolveIn query.chain query.expression = some answer)
    (hResult : answer.result = .ok result) : x.Shows query trigger := by
  have hChain := hLeads.start.2
  obtain ⟨value, _, hValue, hRecursive, hOpens, _⟩ := hLeads.rescans
  obtain ⟨inner, text, hInner, hText, rfl⟩ := exists_inner_of_value hLeads.start.1 hValue h hResult
  refine ⟨value, answer, text, hValue, h, hResult, fun d hMem => ?_⟩
  obtain ⟨below, below?, hBelow, hGiven, hInfix⟩ := x.fills_of_expandIn _ _ _ hInner text d _ hText
    (mem_valueSegments_iff.mpr ⟨hRecursive, hOpens, hMem⟩)
  rw [← hChain, resolveIn_circular hHas] at hBelow
  obtain rfl := Option.some.inj hBelow
  obtain rfl := Except.ok.inj hGiven
  exact hInfix

theorem shows_or_refuses {answer : Expansion (Option Text)} (hLeads : x.Leads query trigger)
    (hHas : trigger.chain.has trigger.expression = true)
    (h : x.resolveIn query.chain query.expression = some answer) :
    x.Shows query trigger ∨ ∃ failure, x.Refuses failure ∧ answer.result = .error failure := by
  cases hResult : answer.result with
  | ok result => exact .inl (shows_of_answered hLeads hHas h hResult)
  | error failure =>
      exact .inr ⟨failure, x.refuses_of_expansion.1 _ _ _ h failure hResult, rfl⟩

theorem Genuine.mono {base : Chain} {asked wider : Text → Prop} {aborts weaker : Failure → Prop}
    (h : x.Genuine base asked aborts path) (hWider : ∀ expression, asked expression → wider expression)
    (hWeaker : ∀ failure, aborts failure → weaker failure) : x.Genuine base wider weaker path := by
  obtain ⟨start, rounds, last, trigger, hBase, hAsked, hCircle, hLast, hShown⟩ := h
  exact ⟨start, rounds, last, trigger, hBase, hWider _ hAsked, hCircle, hLast,
    hShown.imp_right fun ⟨failure, hRefuses, hAborts⟩ => ⟨failure, hRefuses, hWeaker failure hAborts⟩⟩

/-- What is reported where a question is answered on a chain without frames is genuine. -/
theorem genuine_of_resolveIn {answer : Expansion (Option Text)} (hEmpty : chain.frames = [])
    (h : x.resolveIn chain expression = some answer) (hMem : .circular path ∈ answer.events) :
    x.Genuine chain (· = expression) (fun failure => answer.result = .error failure) path := by
  obtain ⟨trigger, hMet, hHas, rfl⟩ := x.causes_of_expansion.1 _ _ _ h _ hMem
  obtain ⟨rounds, last, hLast, hLeads, hCircle⟩ := exists_circle hEmpty hMet hHas
  refine ⟨_, rounds, last, trigger, rfl, rfl, hCircle, hLast, ?_⟩
  cases hResult : answer.result with
  | ok result =>
      have hMetLast := hCircle.met last (List.mem_append_left _ (List.mem_of_getLast? hLast))
      obtain ⟨below, found, hBelow, hFound⟩ := answered_of_leads hMetLast h hResult
      exact .inl (shows_of_answered hLeads hHas hBelow hFound)
  | error failure =>
      exact .inr ⟨failure, x.refuses_of_expansion.1 _ _ _ h failure hResult, rfl⟩

end Expander

end Placeholder
