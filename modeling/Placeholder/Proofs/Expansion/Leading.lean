import Placeholder.Proofs.Expansion.Cases
import Placeholder.Proofs.Expansion.DelimitedKeys
import Placeholder.Proofs.Expansion.Restoring
import Mathlib.Data.List.Nodup
import Mathlib.Logic.Relation
/-!
The questions that one question leads to, as they are met: each on the chain that it is met with.
This says what stands on the chain while an expansion runs, whether it ends or not. No frame is
pushed on one that is equal to it. Everything that happens in an expansion is caused by one of these
questions.
-/
namespace Placeholder

/-- Frames on top of those of the chain, none of them equal to another or to one of the chain. -/
def Chain.Grows (base : Chain) (frames : List Text) : Prop :=
  ∃ pushed, frames = base.frames ++ pushed ∧ pushed.Nodup ∧ ∀ frame ∈ pushed, frame ∉ base.frames

namespace Chain

variable {base chain : Chain} {frames : List Text}

theorem Grows.refl (base : Chain) : base.Grows base.frames :=
  ⟨[], (List.append_nil _).symm, .nil, by simp⟩

theorem Grows.push (h : base.Grows frames) {frame : Text} (hNew : frame ∉ frames) :
    base.Grows (frames ++ [frame]) := by
  obtain ⟨pushed, rfl, hNodup, hApart⟩ := h
  rw [List.mem_append, not_or] at hNew
  refine ⟨pushed ++ [frame], List.append_assoc .., ?_, fun other hMem => ?_⟩
  · exact hNodup.append (List.nodup_singleton frame) (List.disjoint_singleton.mpr hNew.2)
  · rcases List.mem_append.mp hMem with hOld | hLast
    · exact hApart other hOld
    · exact List.mem_singleton.mp hLast ▸ hNew.1

theorem key_notMem_of_has {expression : Text} (h : chain.has expression = false) :
    chain.key expression ∉ chain.frames := by
  rwa [has, List.contains_eq_mem, decide_eq_false_iff_not] at h

theorem Grows.start (h : base.Grows chain.frames) {expression : Text}
    (hNew : chain.has expression = false) : base.Grows (chain.start expression).frames :=
  h.push (key_notMem_of_has hNew)

/-- The way back to a key begins where it stands for the first time. -/
theorem exists_cycle {expression : Text} (h : chain.has expression = true) :
    ∃ before inner, chain.frames = before ++ chain.key expression :: inner ∧
      chain.key expression ∉ before ∧
      chain.cycle expression = chain.key expression :: inner ++ [chain.key expression] := by
  obtain ⟨before, inner, hSplit, hNot⟩ :=
    List.eq_append_cons_of_mem (List.contains_iff_mem.mp h)
  refine ⟨before, inner, hSplit, hNot, ?_⟩
  rw [cycle, if_pos h, hSplit, List.dropWhile_append_of_pos fun other hMem => ?_]
  · simp
  · exact bne_iff_ne.mpr fun hEq => hNot (hEq ▸ hMem)

end Chain

/-- A question that is met with a chain. -/
structure Query where
  chain : Chain
  expression : Text

/-- The question opens a frame, and these are the frames then. -/
def Query.Opens (query : Query) (frames : List Text) : Prop :=
  query.chain.has query.expression = false ∧ frames = (query.chain.start query.expression).frames

/-- What happens at the question itself: a frame is opened and sources are asked, or it is reported that
there is a frame for it already. -/
def Query.Causes (query : Query) : Event → Prop
  | .opened frames => query.Opens frames
  | .asked _ expression => query.chain.has query.expression = false ∧ expression = query.expression
  | .circular path =>
    query.chain.has query.expression = true ∧ path = query.chain.cycle query.expression

namespace Expander

/-- The first question leads to the second one right away: that one stands in the value found for
the first, and the segments in front of it are done. -/
inductive Leads (x : Expander) : Query → Query → Prop
  | inside {chain : Chain} {expression value inner written : Text} {front back : List Segment}
      {d : Delimiter} {done : Expansion Text} (hNew : chain.has expression = false)
      (hValue : (x.ask expression).1 = .ok (some value))
      (hCut : x.valueSegments value = front ++ .placeholder d inner :: back)
      (hFront : x.expandIn (chain.start expression) front = some done)
      (hDone : done.result = .ok written) : Leads x ⟨chain, expression⟩ ⟨done.chain, inner⟩

variable {x : Expander} {query later : Query} {base chain : Chain} {expression : Text}

/-- The second question is met inside the frame of the first. -/
theorem Leads.start (h : x.Leads query later) :
    query.chain.has query.expression = false ∧ later.chain = query.chain.start query.expression := by
  cases h with
  | inside hNew hValue hCut hFront hDone =>
      exact ⟨hNew, (x.restores_of_expansion.2 _ _ _ hFront).same⟩

theorem Leads.opens (h : x.Leads query later) : query.Opens later.chain.frames :=
  ⟨h.start.1, congrArg Chain.frames h.start.2⟩

/-- Whatever a question leads to, it is met on a chain that has grown. -/
theorem grows_of_leads (h : Relation.ReflTransGen x.Leads ⟨base, expression⟩ query) :
    base.Grows query.chain.frames := by
  induction h with
  | refl => exact .refl base
  | tail _ hLeads ih =>
      obtain ⟨hNew, hFrames⟩ := hLeads.opens
      rw [hFrames]
      exact ih.start hNew

/-- What happens where a question is answered is caused by the questions that it leads to. -/
def CausedFor (x : Expander) (chain : Chain) (expression : Text) (events : List Event) : Prop :=
  ∀ event ∈ events,
    ∃ query, Relation.ReflTransGen x.Leads ⟨chain, expression⟩ query ∧ query.Causes event

/-- What happens where segments are put together is caused by the questions in them, each met when the
segments in front of it are done, and by what they lead to. -/
def CausedAmong (x : Expander) (chain : Chain) (segments : List Segment) (events : List Event) :
    Prop :=
  ∀ event ∈ events,
    ∃ front back d inner done written, segments = front ++ .placeholder d inner :: back ∧
      x.expandIn chain front = some done ∧ done.result = .ok written ∧
      ∃ query, Relation.ReflTransGen x.Leads ⟨done.chain, inner⟩ query ∧ query.Causes event

/-- The first question of some segments is met on the chain itself. -/
theorem CausedFor.among {events : List Event} (h : x.CausedFor chain expression events)
    (d : Delimiter) (rest : List Segment) :
    x.CausedAmong chain (.placeholder d expression :: rest) events := by
  intro event hMem
  exact ⟨[], rest, d, expression, _, [], rfl, expandIn_nil x chain, rfl, h event hMem⟩

/-- A question without a frame opens one and asks the sources. -/
theorem causes_start {event : Event} (hNew : chain.has expression = false)
    (hMem : event ∈ .opened (chain.start expression).frames :: (x.ask expression).2) :
    Query.Causes ⟨chain, expression⟩ event := by
  rcases List.mem_cons.mp hMem with rfl | hAsked
  · exact ⟨hNew, rfl⟩
  · obtain ⟨place, rfl⟩ := (askInOrder_spec expression 0 x.sources).2 event hAsked
    exact ⟨hNew, rfl⟩

/-- Nothing happens in an expansion but what the questions cause that it leads to. -/
theorem causes_of_expansion (x : Expander) :
    (∀ chain expression expansion, x.resolveIn chain expression = some expansion →
      x.CausedFor chain expression expansion.events) ∧
    ∀ chain segments expansion, x.expandIn chain segments = some expansion →
      x.CausedAmong chain segments expansion.events := by
  apply Kept.of_expansion
  constructor
  case circular =>
    intro chain expression hHas event hMem
    obtain rfl := List.mem_singleton.mp hMem
    exact ⟨_, .refl, hHas, rfl⟩
  case unanswered =>
    intro chain expression hNew _ event hMem
    exact ⟨_, .refl, causes_start hNew hMem⟩
  case value =>
    intro chain expression value inner hNew hValue _ hInner event hMem
    rw [← List.cons_append] at hMem
    rcases List.mem_append.mp hMem with hOwn | hBelow
    · exact ⟨_, .refl, causes_start hNew hOwn⟩
    obtain ⟨front, back, d, below, done, written, hCut, hFront, hDone, query, hLeads, hCauses⟩ :=
      hInner event hBelow
    exact ⟨query, .head (.inside hNew hValue hCut hFront hDone) hLeads, hCauses⟩
  case nil =>
    intro chain event hMem
    cases hMem
  case literal =>
    intro chain text rest later _ hLater event hMem
    obtain ⟨front, back, d, below, done, written, rfl, hFront, hDone, hQuery⟩ := hLater event hMem
    have hFront' := expandIn_literal hFront text
    rw [hDone] at hFront'
    exact ⟨.literal text :: front, back, d, below, _, text ++ written, rfl, hFront', rfl, hQuery⟩
  case failed =>
    intro chain expression answer failure _ hAnswer _ d rest
    exact hAnswer.among d rest
  case answered =>
    intro chain expression answer value rest later hResolve hAnswer hValue _ hLater d event hMem
    rcases List.mem_append.mp hMem with hHere | hAfter
    · exact hAnswer.among d rest event hHere
    · obtain ⟨front, back, e, below, done, written, rfl, hFront, hDone, hQuery⟩ :=
        hLater event hAfter
      have hFront' := expandIn_answered hResolve hValue hFront d
      rw [hDone] at hFront'
      exact ⟨.placeholder d expression :: front, back, e, below, _, _, rfl, hFront', rfl, hQuery⟩

end Expander

end Placeholder
