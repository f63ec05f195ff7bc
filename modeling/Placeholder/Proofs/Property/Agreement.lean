import Placeholder.Proofs.Expansion.Cases
import Placeholder.Proofs.Expansion.Ending
import Placeholder.Proofs.Expansion.Leading
import Placeholder.Proofs.Property.References
import Placeholder.Proofs.Table.Lookup
/-!
Two ways to resolve properties: the resolver, which gives up at the first reference that leads back
to its own chain, and an expander over the same tables, which leaves such a reference as written and
goes on. They find the same references in the same order at every depth, so they agree on whether a
value goes in a circle, on the first circle, and on the value when there is none.
-/
namespace Placeholder

/-- The circular references among these events, in order. -/
def circles (events : List Event) : List (List Text) := events.filterMap Event.circle?

/-- The path ends with the cycle, which begins where its last key stands for the first time. -/
def ClosesWith (path cycle : List Text) : Prop :=
  ∃ before key inner, path = before ++ cycle ∧ cycle = key :: inner ++ [key] ∧ key ∉ before

/-- The expander that looks references up in the tables of a scope. -/
def PropertyScope.expander (scope : PropertyScope) : Expander where
  sources := [.ofTable scope.known, .ofTable scope.fallback]
  finishers := []
  markup := .references
  recursive := true
  remembers := false

/-- What an expansion has to be when the resolver gets this far: the same text and no circle, or a
first circle that the path of the resolver ends with. -/
def Agrees (outcome : Except (List Text) Text) (result : Except Failure Text)
    (events : List Event) : Prop :=
  match outcome with
  | .ok text => result = .ok text ∧ circles events = []
  | .error path => ∃ first later, circles events = first :: later ∧ ClosesWith path first

@[simp] theorem circles_nil : circles [] = [] := rfl

@[simp] theorem circles_append (first second : List Event) :
    circles (first ++ second) = circles first ++ circles second :=
  List.filterMap_append

@[simp] theorem circles_opened (frames : List Text) (events : List Event) :
    circles (.opened frames :: events) = circles events := rfl

theorem circles_eq_nil_of_asked {events : List Event} {expression : Text}
    (h : ∀ event ∈ events, ∃ n, event = .asked n expression) : circles events = [] := by
  refine List.filterMap_eq_nil_iff.mpr fun event hMem => ?_
  obtain ⟨n, rfl⟩ := h event hMem
  rfl

/-- Characters that pass are put in front. -/
theorem Expander.expandIn_literals (x : Expander) (chain : Chain) (text : Text)
    (rest : List Segment) :
    x.expandIn chain ((text.map fun c => .literal [c]) ++ rest) =
      (x.expandIn chain rest).map fun later =>
        ⟨later.result.map (text ++ ·), later.chain, later.events⟩ := by
  induction text with
  | nil =>
      rw [List.map_nil, List.nil_append]
      cases x.expandIn chain rest with
      | none => rfl
      | some later =>
          obtain ⟨result, _, _⟩ := later
          cases result <;> rfl
  | cons c text ih =>
      rw [List.map_cons, List.cons_append, expandIn, ih]
      cases x.expandIn chain rest with
      | none => rfl
      | some later =>
          obtain ⟨result, _, _⟩ := later
          cases result <;> rfl

theorem Expander.expandIn_single (x : Expander) (chain : Chain) (text : Text) :
    x.expandIn chain [.literal text] = some ⟨.ok text, chain, []⟩ := by
  rw [expandIn_literal (x.expandIn_nil chain) text, Except.map, List.append_nil]

/-- A text put in front, after events that report nothing. -/
theorem Agrees.front {outcome : Except (List Text) Text} {result : Except Failure Text}
    {events quiet : List Event} (h : Agrees outcome result events) (hQuiet : circles quiet = [])
    (front : Text) :
    Agrees (outcome.map (front ++ ·)) (result.map (front ++ ·)) (quiet ++ events) := by
  cases outcome with
  | ok text =>
      obtain ⟨rfl, hNone⟩ := h
      exact ⟨rfl, by rw [circles_append, hQuiet, hNone, List.append_nil]⟩
  | error path =>
      obtain ⟨first, later, hCircles, hCloses⟩ := h
      exact ⟨first, later, by rw [circles_append, hQuiet, hCircles, List.nil_append], hCloses⟩

/-- Once a circle was reported, it does not matter what comes after. -/
theorem Agrees.circle {path first : List Text} {events later : List Event}
    {others : List (List Text)} (hCircles : circles events = first :: others)
    (hCloses : ClosesWith path first) (result : Except Failure Text) :
    Agrees (.error path) result (events ++ later) :=
  ⟨first, others ++ circles later, by rw [circles_append, hCircles, List.cons_append], hCloses⟩

namespace PropertyScope

variable (scope : PropertyScope)

theorem finite_answers_expander : scope.expander.answers.Finite := by
  refine Expander.finite_answers fun source hMem => ?_
  simp only [expander, List.mem_cons, List.not_mem_nil, or_false] at hMem
  rcases hMem with rfl | rfl
  · exact ValueSource.finite_answers_ofTable scope.known
  · exact ValueSource.finite_answers_ofTable scope.fallback

/-- The sources answer as the scope does. -/
theorem ask_expander (key : Text) :
    (scope.expander.ask key).1 = .ok (scope.get? key) ∧
      circles (scope.expander.ask key).2 = [] := by
  refine ⟨?_, circles_eq_nil_of_asked (Expander.askInOrder_spec key 0 scope.expander.sources).2⟩
  simp only [Expander.ask, expander, askInOrder, ValueSource.ofTable, ValueSource.ofAnswers, get?]
  cases scope.known.get? key with
  | some value => rfl
  | none => cases scope.fallback.get? key <;> rfl

theorem opensIn_references (value : Text) :
    Markup.references.delimiters.opensIn value =
      Text.occursIn PropertyPiece.opening value := by
  simp [DelimiterSet.opensIn, Markup.references, Delimiter.dollarBrace, PropertyPiece.opening]

theorem valueSegments_of_opening {value : Text}
    (h : Text.occursIn PropertyPiece.opening value = true) :
    scope.expander.valueSegments value =
      (PropertyPiece.ofValue value).flatMap PropertyPiece.segments := by
  rw [← Markup.segments_references]
  simp only [Expander.valueSegments, expander, opensIn_references, h, Bool.and_self, if_true]

theorem valueSegments_of_plain {value : Text}
    (h : Text.occursIn PropertyPiece.opening value = false) :
    scope.expander.valueSegments value = [.literal value] := by
  simp only [Expander.valueSegments, expander, opensIn_references, h, Bool.and_false,
    Bool.false_eq_true, if_false]

variable {scope} {chain : List Text} {key : Text} {rest : List PropertyPiece}

theorem expand_of_circle (h : chain.contains key = true) :
    scope.expand chain (.reference key :: rest) = .error (chain ++ [key]) := by
  rw [expand, dif_pos h]

theorem expand_of_none (hNew : ¬ chain.contains key = true) (hGet : scope.get? key = none) :
    scope.expand chain (.reference key :: rest) =
      (scope.expand chain rest).map (PropertyPiece.written key ++ ·) := by
  rw [expand, dif_neg hNew]
  split
  · rfl
  · rename_i hSome
    cases hGet.symm.trans hSome

theorem expand_of_value {value : Text} (hNew : ¬ chain.contains key = true)
    (hGet : scope.get? key = some value) :
    scope.expand chain (.reference key :: rest) =
      if Text.occursIn PropertyPiece.opening value then
        match scope.expand (chain ++ [key]) (PropertyPiece.ofValue value) with
        | .error path => .error path
        | .ok expanded => (scope.expand chain rest).map (expanded ++ ·)
      else (scope.expand chain rest).map (value ++ ·) := by
  rw [expand, dif_neg hNew]
  split
  · rename_i hNone
    cases hGet.symm.trans hNone
  · rename_i hSome
    cases hGet.symm.trans hSome
    rfl

/-- A reference back to the chain is left as written and reported. -/
theorem resolveIn_of_circle (scope : PropertyScope) (h : chain.contains key = true) :
    ∃ cycle, scope.expander.resolveIn ⟨[], chain⟩ key =
        some ⟨.ok none, ⟨[], chain⟩, [.circular cycle]⟩ ∧ ClosesWith (chain ++ [key]) cycle := by
  have hHas : (⟨[], chain⟩ : Chain).has key = true := h
  obtain ⟨before, inner, hSplit, hNot, hCycle⟩ := Chain.exists_cycle hHas
  refine ⟨_, Expander.resolveIn_circular hHas, before, key, inner, ?_, hCycle, hNot⟩
  have hFrames : chain = before ++ key :: inner := hSplit
  have hPath : (⟨[], chain⟩ : Chain).cycle key = key :: inner ++ [key] := hCycle
  rw [hPath, hFrames, List.append_assoc]

theorem resolveIn_of_none (hNew : ¬ chain.contains key = true) (hGet : scope.get? key = none) :
    ∃ events, scope.expander.resolveIn ⟨[], chain⟩ key = some ⟨.ok none, ⟨[], chain⟩, events⟩ ∧
      circles events = [] := by
  obtain ⟨hAnswer, hQuiet⟩ := scope.ask_expander key
  have hHas : (⟨[], chain⟩ : Chain).has key = false := Bool.not_eq_true _ ▸ hNew
  rw [hGet] at hAnswer
  have hNone : ∀ value, (scope.expander.ask key).1 ≠ .ok (some value) := by simp [hAnswer]
  rw [Expander.resolveIn_unanswered hHas hNone, hAnswer]
  exact ⟨_, rfl, hQuiet⟩

/-- A reference opens a frame for its value and reports what is reported inside. -/
theorem resolveIn_of_value {value : Text} {inner : Expansion Text}
    (hNew : ¬ chain.contains key = true) (hGet : scope.get? key = some value)
    (hInner : scope.expander.expandIn ⟨[], chain ++ [key]⟩ (scope.expander.valueSegments value) =
      some inner) (hChain : inner.chain = ⟨[], chain ++ [key]⟩) :
    ∃ events, scope.expander.resolveIn ⟨[], chain⟩ key =
        some ⟨inner.result.map some, ⟨[], chain⟩, events⟩ ∧
      circles events = circles inner.events := by
  obtain ⟨hAnswer, hQuiet⟩ := scope.ask_expander key
  have hHas : (⟨[], chain⟩ : Chain).has key = false := Bool.not_eq_true _ ▸ hNew
  have hFinish : (⟨[], chain ++ [key]⟩ : Chain).finish key = ⟨[], chain⟩ :=
    Chain.finish_start ⟨[], chain⟩ key
  rw [hGet] at hAnswer
  rw [Expander.resolveIn_value hHas hAnswer hInner, hChain, hFinish]
  refine ⟨_, rfl, ?_⟩
  rw [circles_opened, circles_append, hQuiet, List.nil_append]

/-- Every list of segments is expanded, and the chain is as before. -/
theorem exists_expandIn (scope : PropertyScope) (chain : List Text) (segments : List Segment) :
    ∃ expansion, scope.expander.expandIn ⟨[], chain⟩ segments = some expansion ∧
      expansion.chain = ⟨[], chain⟩ := by
  obtain ⟨expansion, hExpand, hChain, _⟩ :=
    Expander.expandIn_ends_of_any scope.finite_answers_expander ⟨[], chain⟩ segments
  exact ⟨expansion, hExpand, hChain⟩

/-- Piece by piece the resolver and the expander agree, on every chain. -/
theorem expand_agrees (scope : PropertyScope) (chain : List Text) (pieces : List PropertyPiece) :
    ∃ expansion,
      scope.expander.expandIn ⟨[], chain⟩ (pieces.flatMap PropertyPiece.segments) =
        some expansion ∧
      expansion.chain = ⟨[], chain⟩ ∧
      Agrees (scope.expand chain pieces) expansion.result expansion.events := by
  induction chain, pieces using PropertyScope.expand.induct scope with
  | case1 chain =>
      refine ⟨⟨.ok [], ⟨[], chain⟩, []⟩, by rw [List.flatMap_nil, Expander.expandIn_nil], rfl, ?_⟩
      rw [expand]
      exact ⟨rfl, rfl⟩
  | case2 chain text rest ih =>
      obtain ⟨later, hLater, hChain, hAgrees⟩ := ih
      rw [List.flatMap_cons, PropertyPiece.segments, Expander.expandIn_literals, hLater, expand]
      exact ⟨_, rfl, hChain, hAgrees.front circles_nil text⟩
  | case3 chain key rest hCircle =>
      obtain ⟨cycle, hResolve, hCloses⟩ := scope.resolveIn_of_circle hCircle
      obtain ⟨later, hLater, hChain⟩ :=
        scope.exists_expandIn chain (rest.flatMap PropertyPiece.segments)
      refine ⟨_, Expander.expandIn_answered hResolve rfl hLater .dollarBrace, hChain, ?_⟩
      rw [expand_of_circle hCircle]
      exact Agrees.circle (rfl : circles [.circular cycle] = [cycle]) hCloses _
  | case4 chain key rest hNew hNone ih =>
      obtain ⟨later, hLater, hChain, hAgrees⟩ := ih
      obtain ⟨events, hResolve, hQuiet⟩ := resolveIn_of_none hNew hNone
      refine ⟨_, Expander.expandIn_answered hResolve rfl hLater .dollarBrace, hChain, ?_⟩
      rw [expand_of_none hNew hNone]
      exact hAgrees.front hQuiet (PropertyPiece.written key)
  | case5 chain key rest hNew value hGet hOpens path hPath ih =>
      obtain ⟨inner, hInner, hInnerChain, hAgrees⟩ := ih
      rw [← scope.valueSegments_of_opening hOpens] at hInner
      rw [hPath] at hAgrees
      obtain ⟨first, others, hCircles, hCloses⟩ := hAgrees
      obtain ⟨events, hResolve, hEvents⟩ := resolveIn_of_value hNew hGet hInner hInnerChain
      rw [← hEvents] at hCircles
      obtain ⟨later, hLater, hChain⟩ :=
        scope.exists_expandIn chain (rest.flatMap PropertyPiece.segments)
      rw [expand_of_value hNew hGet, if_pos hOpens, hPath]
      cases hResult : inner.result with
      | error failure =>
          rw [hResult] at hResolve
          refine ⟨_, Expander.expandIn_failed hResolve rfl .dollarBrace _, rfl, ?_⟩
          exact ⟨first, others, hCircles, hCloses⟩
      | ok text =>
          rw [hResult] at hResolve
          refine ⟨_, Expander.expandIn_answered hResolve rfl hLater .dollarBrace, hChain, ?_⟩
          exact Agrees.circle hCircles hCloses _
  | case6 chain key rest hNew value hGet hOpens expanded hExpanded ihInner ih =>
      obtain ⟨later, hLater, hChain, hAgrees⟩ := ih
      obtain ⟨inner, hInner, hInnerChain, hResult, hNoCircle⟩ := hExpanded ▸ ihInner
      rw [← scope.valueSegments_of_opening hOpens] at hInner
      obtain ⟨events, hResolve, hEvents⟩ := resolveIn_of_value hNew hGet hInner hInnerChain
      rw [hResult] at hResolve
      refine ⟨_, Expander.expandIn_answered hResolve rfl hLater .dollarBrace, hChain, ?_⟩
      rw [expand_of_value hNew hGet, if_pos hOpens, hExpanded]
      exact hAgrees.front (hEvents.trans hNoCircle) expanded
  | case7 chain key rest hNew value hGet hPlain ih =>
      obtain ⟨later, hLater, hChain, hAgrees⟩ := ih
      rw [Bool.not_eq_true] at hPlain
      have hInner := scope.expander.expandIn_single ⟨[], chain ++ [key]⟩ value
      rw [← scope.valueSegments_of_plain hPlain] at hInner
      obtain ⟨events, hResolve, hQuiet⟩ := resolveIn_of_value hNew hGet hInner rfl
      refine ⟨_, Expander.expandIn_answered hResolve rfl hLater .dollarBrace, hChain, ?_⟩
      rw [expand_of_value hNew hGet, if_neg (Bool.not_eq_true _ ▸ hPlain)]
      exact hAgrees.front hQuiet value

/-- At the top level, with no finishers and nothing remembered, the answer stays as it is. -/
theorem resolve_fresh {result : Except Failure Text} {events : List Event}
    (h : scope.expander.resolveIn .empty key = some ⟨result.map some, .empty, events⟩) :
    ∃ after, scope.expander.resolve (.fresh .empty) key = some (result.map some, after) ∧
      after.events = events := by
  refine ⟨_, ?_, (scope.expander.conclude_session (.fresh .empty) key
    ⟨result.map some, .empty, events⟩).2⟩
  have hForgets : scope.expander.remembered? (.fresh .empty) key = none := rfl
  rw [Expander.resolve, hForgets]
  simp only [Session.fresh, h, Option.map_some]
  cases result <;> rfl

/-- What becomes of the value of one key, on the chain of that key alone. -/
theorem settle_agrees (scope : PropertyScope) (key value : Text) :
    ∃ inner,
      scope.expander.expandIn ⟨[], [key]⟩ (scope.expander.valueSegments value) = some inner ∧
      inner.chain = ⟨[], [key]⟩ ∧
      Agrees (scope.settle key value) inner.result inner.events := by
  rw [settle]
  split
  · rename_i hOpens
    rw [scope.valueSegments_of_opening hOpens]
    exact scope.expand_agrees [key] (PropertyPiece.ofValue value)
  · rename_i hPlain
    rw [scope.valueSegments_of_plain (Bool.not_eq_true _ ▸ hPlain), Expander.expandIn_single]
    exact ⟨_, rfl, rfl, rfl, rfl⟩

end PropertyScope

namespace PropertyResolver

variable {r : PropertyResolver} {table : Table} {key : Text}

theorem get?_scope {value : Text} (h : table.get? key = some value) :
    (r.scope table).get? key = some value := by
  rw [PropertyScope.get?, scope, Table.get?_overlay, h, Option.some_or, Option.some_or]

theorem get?_resolved_of_ok {value text : Text} (h : table.get? key = some value)
    (hSettle : (r.scope table).settle key value = .ok text) :
    (r.resolved table).get? key = some text := by
  rw [resolved, Table.get?_mapValues, h, Option.map_some]
  simp only [hSettle]

theorem mem_warnings_iff {value : Text} {path : List Text} (h : table.get? key = some value) :
    ⟨key, path⟩ ∈ r.warnings table ↔ (r.scope table).settle key value = .error path := by
  rw [warnings, List.mem_filterMap]
  constructor
  · rintro ⟨⟨own, other⟩, hMem, hWarning⟩
    simp only at hWarning
    split at hWarning
    · cases hWarning
    · rename_i found hError
      obtain ⟨rfl, rfl⟩ : own = key ∧ found = path := by simpa using hWarning
      obtain rfl : other = value :=
        Option.some.inj ((Table.get?_eq_some_iff.mpr hMem).symm.trans h)
      exact hError
  · intro hError
    exact ⟨(key, value), Table.get?_eq_some_iff.mp h, by simp only [hError]⟩

/-- For every key of a table the resolver warns exactly when the expander meets a circle. Without one
the resolved value is the answer of the expander; otherwise the path of the warning ends with the
first circle that the expander meets, from where the repeated key stands first. -/
theorem agrees_with_expander (r : PropertyResolver) (table : Table) (key : Text)
    (hKey : key ∈ table.keys) :
    ∃ result after,
      (r.scope table).expander.resolve (.fresh .empty) key = some (result, after) ∧
      ((∃ path, ⟨key, path⟩ ∈ r.warnings table) ↔ circles after.events ≠ []) ∧
      (circles after.events = [] → result = .ok ((r.resolved table).get? key)) ∧
      ∀ path, ⟨key, path⟩ ∈ r.warnings table →
        ∃ first later, circles after.events = first :: later ∧ ClosesWith path first := by
  obtain ⟨value, hGet⟩ := Table.exists_of_mem_keys hKey
  obtain ⟨inner, hInner, hChain, hAgrees⟩ := (r.scope table).settle_agrees key value
  have hNew : ¬ ([] : List Text).contains key = true := Bool.false_ne_true
  obtain ⟨events, hResolveIn, hEvents⟩ := PropertyScope.resolveIn_of_value hNew (get?_scope hGet) hInner hChain
  obtain ⟨after, hResolve, hAfter⟩ := PropertyScope.resolve_fresh hResolveIn
  refine ⟨_, after, hResolve, ?_⟩
  rw [hAfter, hEvents]
  simp only [mem_warnings_iff hGet]
  cases hSettle : (r.scope table).settle key value with
  | ok text =>
      rw [hSettle] at hAgrees
      obtain ⟨hResult, hNone⟩ := hAgrees
      rw [hResult, hNone, get?_resolved_of_ok hGet hSettle]
      simp [Except.map]
  | error path =>
      rw [hSettle] at hAgrees
      obtain ⟨first, later, hCircles, hCloses⟩ := hAgrees
      rw [hCircles]
      refine ⟨by simp, fun hNone => absurd hNone (List.cons_ne_nil _ _), fun other hSame => ?_⟩
      cases hSame
      exact ⟨first, later, rfl, hCloses⟩

/-- A key that leads to another one, which the fallback table lets refer to itself. -/
theorem agrees_with_expander_circle :
    let r : PropertyResolver := ⟨.empty, .ofList [(['b'], ['$', '\x7b', 'b', '\x7d'])]⟩
    let table : Table := .ofList [(['a'], ['$', '\x7b', 'b', '\x7d'])]
    ∃ result after,
      (r.scope table).expander.resolve (.fresh .empty) ['a'] = some (result, after) ∧
      ((∃ path, ⟨['a'], path⟩ ∈ r.warnings table) ↔ circles after.events ≠ []) ∧
      (circles after.events = [] → result = .ok ((r.resolved table).get? ['a'])) ∧
      ∀ path, ⟨['a'], path⟩ ∈ r.warnings table →
        ∃ first later, circles after.events = first :: later ∧ ClosesWith path first :=
  agrees_with_expander _ _ ['a'] (by decide)

end PropertyResolver

end Placeholder
