import Placeholder.Chain
import Placeholder.Proofs.Text.Search
import Mathlib.Data.List.Infix
/-!
Two spellings of one frame. The key of an expression is what is left when the first listed prefix that
it starts with is cut off, once. Expressions with the same key find and close each other's frames, and
no others do. So an expression shares its frame with the same expression behind a prefix exactly if
what is cut off grows by that prefix.
-/
namespace Placeholder.Chain

variable {chain : Chain} {first second front expression : Text}

@[simp] theorem frames_start (chain : Chain) (expression : Text) :
    (chain.start expression).frames = chain.frames ++ [chain.key expression] := rfl

@[simp] theorem frames_finish (chain : Chain) (expression : Text) :
    (chain.finish expression).frames =
      (chain.frames.reverse.erase (chain.key expression)).reverse := rfl

/-- What is cut off an expression: the first listed prefix that it starts with, or nothing. -/
def accepted (chain : Chain) (expression : Text) : Text :=
  (chain.prefixes.find? (·.isPrefixOf expression)).getD []

theorem accepted_append_key (chain : Chain) (expression : Text) :
    chain.accepted expression ++ chain.key expression = expression := by
  rw [accepted, key]
  induction chain.prefixes with
  | nil => rfl
  | cons front listed ih =>
      rw [List.find?_cons, List.findSome?_cons]
      cases hFits : front.isPrefixOf? expression with
      | some rest =>
          have hSplit := Text.eq_append_of_isPrefixOf? hFits
          have hPrefix : front.isPrefixOf expression = true :=
            List.isPrefixOf_iff_prefix.mpr ⟨rest, hSplit.symm⟩
          rw [hPrefix]
          exact hSplit.symm
      | none =>
          have hPrefix : front.isPrefixOf expression = false := by
            simpa [← List.isPrefixOf_iff_prefix] using Text.isPrefixOf?_eq_none_iff.mp hFits
          rw [hPrefix]
          exact ih

/-- Behind a prefix the same is left if that much more is cut off. -/
theorem key_append_eq_iff :
    chain.key (front ++ expression) = chain.key expression ↔
      chain.accepted (front ++ expression) = front ++ chain.accepted expression := by
  have hSplit : chain.accepted (front ++ expression) ++ chain.key (front ++ expression) =
      front ++ chain.accepted expression ++ chain.key expression := by
    rw [accepted_append_key, List.append_assoc, accepted_append_key]
  constructor
  · intro hKey
    rw [hKey] at hSplit
    exact List.append_cancel_right hSplit
  · intro hCut
    rw [hCut] at hSplit
    exact List.append_cancel_left hSplit

/-- Where no listed prefix is the beginning of another one. -/
def Apart (prefixes : List Text) : Prop :=
  ∀ shorter ∈ prefixes, ∀ longer ∈ prefixes, shorter <+: longer → shorter = longer

/-- Then a listed prefix is cut off wherever it stands at the front. -/
theorem accepted_append_of_apart (hApart : Apart chain.prefixes) (h : front ∈ chain.prefixes)
    (expression : Text) : chain.accepted (front ++ expression) = front := by
  have hFront : front <+: front ++ expression := List.prefix_append front expression
  cases hFound : chain.prefixes.find? (·.isPrefixOf (front ++ expression)) with
  | none =>
      have hNone := List.find?_eq_none.mp hFound front h
      exact absurd (List.isPrefixOf_iff_prefix.mpr hFront) hNone
  | some found =>
      have hListed := List.mem_of_find?_eq_some hFound
      have hHolds := List.find?_some hFound
      have hFits : found <+: front ++ expression := List.isPrefixOf_iff_prefix.mp hHolds
      have hSame : found = front := by
        rcases List.prefix_or_prefix_of_prefix hFits hFront with hLess | hMore
        · exact hApart found hListed front h hLess
        · exact (hApart front h found hListed hMore).symm
      rw [accepted, hFound, hSame]
      rfl

/-- The chain with a frame for each of the expressions on top, the last one innermost. -/
def startAll (chain : Chain) (expressions : List Text) : Chain :=
  expressions.foldl start chain

theorem startAll_eq (chain : Chain) (expressions : List Text) :
    chain.startAll expressions =
      { chain with frames := chain.frames ++ expressions.map chain.key } := by
  induction expressions generalizing chain with
  | nil => simp [startAll]
  | cons expression expressions ih =>
      have hLater : chain.startAll (expression :: expressions) =
          (chain.start expression).startAll expressions := rfl
      have hKeys : (chain.start expression).key = chain.key := rfl
      rw [hLater, ih, hKeys]
      simp [start]

/-- The frame that `first` opens is found for `second`, and is the one that is closed for it, whatever
frames with other keys have been opened on top. -/
structure OpensFor (chain : Chain) (first second : Text) : Prop where
  found : (chain.start first).has second = true
  closed : ∀ later : List Text, (∀ expression ∈ later, chain.key expression ≠ chain.key first) →
    ((chain.start first).startAll later).finish second = chain.startAll later

/-- A frame with another key is left open. -/
theorem key_eq_of_finish_start (h : (chain.start first).finish second = chain) :
    chain.key second = chain.key first := by
  by_contra hOther
  have hCount := congrArg (fun closed : Chain => closed.frames.count (chain.key first)) h
  simp [List.count_erase_of_ne (Ne.symm hOther)] at hCount

theorem opensFor_iff : chain.OpensFor first second ↔ chain.key second = chain.key first := by
  constructor
  · intro h
    exact key_eq_of_finish_start (h.closed [] (by simp))
  · intro hKey
    constructor
    case found => simp [has, hKey]
    case closed =>
      intro later hLater
      have hBehind : chain.key first ∉ (later.map chain.key).reverse := by
        simpa using fun expression hMem => hLater expression hMem
      have hOpened : (chain.start first).startAll later =
          { chain with frames := chain.frames ++ chain.key first :: later.map chain.key } := by
        have hKeys : (chain.start first).key = chain.key := rfl
        rw [startAll_eq, hKeys]
        simp [start]
      have hOwn : ({ chain with frames := chain.frames ++ chain.key first :: later.map chain.key } :
          Chain).key second = chain.key first := hKey
      rw [hOpened, startAll_eq, finish, hOwn]
      simp [List.erase_append_right _ hBehind]

/-- Whichever of two expressions opens a frame, the other finds it and closes it. -/
structure OneFrame (chain : Chain) (first second : Text) : Prop where
  there : chain.OpensFor first second
  back : chain.OpensFor second first

theorem oneFrame_iff : chain.OneFrame first second ↔ chain.key second = chain.key first := by
  constructor
  · intro h
    exact opensFor_iff.mp h.there
  · intro hKey
    exact ⟨opensFor_iff.mpr hKey, opensFor_iff.mpr hKey.symm⟩

/-- On any chain an expression shares its frame with itself behind a listed prefix exactly if that much
more is cut off there. Where no listed prefix is the beginning of another one, it does exactly if it
starts with none itself, or only with the empty one. -/
theorem shares_frame_iff (h : front ∈ chain.prefixes) (expression : Text) :
    (chain.OneFrame expression (front ++ expression) ↔
      chain.accepted (front ++ expression) = front ++ chain.accepted expression) ∧
    (Apart chain.prefixes →
      (chain.OneFrame expression (front ++ expression) ↔ chain.accepted expression = [])) := by
  have hExactly : chain.OneFrame expression (front ++ expression) ↔
      chain.accepted (front ++ expression) = front ++ chain.accepted expression :=
    oneFrame_iff.trans key_append_eq_iff
  refine ⟨hExactly, fun hApart => ?_⟩
  rw [hExactly, accepted_append_of_apart hApart h, List.self_eq_append_right]

/-- The second of two prefixes, for an expression that has a frame already. -/
theorem shares_frame_opened_before :
    let chain : Chain := ⟨["project.".toList, "pom.".toList], ["version".toList, "name".toList]⟩
    "pom.".toList ∈ chain.prefixes ∧ Apart chain.prefixes ∧
      chain.OneFrame "version".toList ("pom.".toList ++ "version".toList) := by
  intro chain
  have hListed : "pom.".toList ∈ chain.prefixes := by decide
  have hApart : Apart chain.prefixes := by
    unfold Apart
    decide
  exact ⟨hListed, hApart, ((shares_frame_iff hListed "version".toList).2 hApart).mpr rfl⟩

/-- A shorter prefix that is listed first hides a longer one. One prefix is never cut off twice. -/
theorem longer_prefix_hidden :
    let chain := withPrefixes ["project".toList, "project.".toList]
    let opened := chain.start "version".toList
    let single := withPrefixes ["project.".toList]
    ("project.".toList ∈ chain.prefixes ∧
      opened.has ("project.".toList ++ "version".toList) = false ∧
      (opened.finish ("project.".toList ++ "version".toList)).frames = ["version".toList]) ∧
    "project.".toList ∈ single.prefixes ∧
      (single.start "project.name".toList).has
        ("project.".toList ++ "project.name".toList) = false := by
  decide

end Placeholder.Chain
