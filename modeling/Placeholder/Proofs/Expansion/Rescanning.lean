import Placeholder.Proofs.Expansion.Cases
import Placeholder.Proofs.Markup.Plain
/-!
Expanding with another way to cut values into segments. Where two ways differ only on values that
both of them leave as they are, an expansion comes to the same, with the same events. So it makes no
difference whether a value in which no opening token stands is read for placeholders, or what is
done to answers and remembered of them at the top level.
-/
namespace Placeholder

open Expander

/-- Characters only are put together as they are, however values are cut. -/
theorem Plain.expandWith {segments : List Segment} {text : Text} (h : Plain segments text)
    (x : Expander) (cut : Text → List Segment) (chain : Chain) :
    x.expandWith cut chain segments = some ⟨.ok text, chain, []⟩ := by
  induction h with
  | nil => exact expandWith_nil x cut chain
  | literal front _ ih =>
      exact expandWith_literal ih front

/-- Two ways to cut values that differ at most on values that both leave as they are. -/
def CutAlike (cut other : Text → List Segment) : Prop :=
  ∀ value, cut value = other value ∨ Plain (cut value) value ∧ Plain (other value) value

namespace CutAlike

variable {cut other : Text → List Segment}

theorem of_eq (h : cut = other) : CutAlike cut other :=
  fun value => .inl (congrFun h value)

theorem symm (h : CutAlike cut other) : CutAlike other cut :=
  fun value => (h value).imp Eq.symm And.symm

/-- What a value comes to with one of them it comes to with the other, if its segments do. -/
theorem expandWith {x y : Expander} {chain : Chain} {value : Text} {expansion : Expansion Text}
    (h : CutAlike cut other) (hRun : x.expandWith cut chain (cut value) = some expansion)
    (hSame : y.expandWith other chain (cut value) = some expansion) :
    y.expandWith other chain (other value) = some expansion := by
  rcases h value with hEq | ⟨hCut, hOther⟩
  · rwa [← hEq]
  · rw [hOther.expandWith, ← hCut.expandWith x cut]
    exact hRun

end CutAlike

namespace Expander

variable {cut other : Text → List Segment}

/-- What comes out for an expander comes out for every expander with the same sources that cuts
values alike. -/
theorem expansion_of_cutAlike (x y : Expander) (hSources : y.sources = x.sources)
    (hCut : CutAlike cut other) :
    (∀ chain expression expansion, x.resolveWith cut chain expression = some expansion →
      y.resolveWith other chain expression = some expansion) ∧
    ∀ chain segments expansion, x.expandWith cut chain segments = some expansion →
      y.expandWith other chain segments = some expansion := by
  have hAsk : ∀ expression, x.ask expression = y.ask expression := by
    intro expression
    rw [ask, ask, hSources]
  apply Kept.of_expansionWith
  constructor
  case circular => exact resolveWith_circular other
  case unanswered =>
    intro chain expression hNew hNone
    rw [hAsk] at hNone ⊢
    exact resolveWith_unanswered other hNew hNone
  case value =>
    intro chain expression value inner hNew hValue hInner hSame
    rw [hAsk] at hValue ⊢
    exact resolveWith_value hNew hValue (hCut.expandWith hInner hSame)
  case nil => exact expandWith_nil y other _
  case literal =>
    intro chain text rest later _ hLater
    exact expandWith_literal hLater text
  case failed =>
    intro chain expression answer failure _ hAnswer hFails d rest
    exact expandWith_failed hAnswer hFails d rest
  case answered =>
    intro chain expression answer value rest later _ hAnswer hValue _ hLater d
    exact expandWith_answered hAnswer hValue hLater d

/-- Two expanders with the same sources that cut values alike come to the same. -/
theorem resolveWith_congr {x y : Expander} (hSources : y.sources = x.sources)
    (hCut : CutAlike cut other) (chain : Chain) (expression : Text) :
    x.resolveWith cut chain expression = y.resolveWith other chain expression :=
  Option.ext fun expansion =>
    ⟨(x.expansion_of_cutAlike y hSources hCut).1 chain expression expansion,
      (y.expansion_of_cutAlike x hSources.symm hCut.symm).1 chain expression expansion⟩

/-- What finishers do and what is remembered plays no part below the top level. -/
theorem resolveIn_congr {x y : Expander} (hSources : y.sources = x.sources)
    (hMarkup : y.markup = x.markup) (hRecursive : y.recursive = x.recursive) (chain : Chain)
    (expression : Text) : y.resolveIn chain expression = x.resolveIn chain expression := by
  have hCut : y.valueSegments = x.valueSegments := by
    funext value
    rw [valueSegments, valueSegments, hMarkup, hRecursive]
  rw [← resolveWith_valueSegments, ← resolveWith_valueSegments]
  exact resolveWith_congr hSources.symm (.of_eq hCut) chain expression

/-- The segments of a value that is to be expanded again, read for placeholders whether an opening
token stands in it or not. -/
def rescanned (x : Expander) (value : Text) : List Segment :=
  if x.recursive then x.markup.segments value else [.literal value]

/-- Answers one expression as `resolve` does, except that every value is read for placeholders that
is to be expanded again. -/
def rescan (x : Expander) (s : Session) (expression : Text) :
    Option (Except Failure (Option Text) × Session) :=
  match x.remembered? s expression with
  | some answer => some (.ok (some answer), s)
  | none => (x.resolveWith x.rescanned s.chain expression).map (x.conclude s expression)

/-- A value that opens no placeholder is one piece, or it is characters only. -/
theorem cutAlike_rescanned (x : Expander) : CutAlike x.valueSegments x.rescanned := by
  intro value
  cases hRecursive : x.recursive with
  | false => exact .inl (by simp only [valueSegments, rescanned, hRecursive, Bool.false_and])
  | true =>
      cases hOpens : x.markup.delimiters.opensIn value with
      | true => exact .inl (by simp [valueSegments, rescanned, hRecursive, hOpens])
      | false =>
          refine .inr ⟨?_, ?_⟩
          · simp only [valueSegments, hOpens, Bool.and_false]
            exact .single value
          · simp only [rescanned, hRecursive]
            exact Markup.plain_segments (DelimiterSet.opensIn_eq_false_iff.mp hOpens)

/-- Reading every value for placeholders gains nothing and costs nothing but time. -/
theorem resolve_eq_rescan (x : Expander) (s : Session) (expression : Text) :
    x.resolve s expression = x.rescan s expression := by
  have hSame := resolveWith_congr (x := x) rfl x.cutAlike_rescanned s.chain expression
  rw [resolveWith_valueSegments] at hSame
  rw [resolve, rescan]
  cases x.remembered? s expression with
  | some answer => rfl
  | none => exact congrArg (Option.map _) hSame

end Expander

end Placeholder
