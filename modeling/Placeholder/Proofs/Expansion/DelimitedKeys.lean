import Mathlib.Data.Set.Card
import Placeholder.Expander
import Placeholder.Proofs.Markup.Segments
import Placeholder.Proofs.Sources.FiniteAnswers
/-!
Which frames an expansion can open. Below the expression that was asked for, every expression stands
between delimiters in an answer of a source; if the sources have finitely many answers in all, there
are finitely many keys of such expressions, and each frame that is opened leaves one less to open.
-/
namespace Placeholder.Expander

/-- All values that any of the sources may answer. -/
def answers (x : Expander) : Set Text :=
  {value | ∃ source ∈ x.sources, value ∈ source.answers}

/-- The keys of the expressions that stand between delimiters somewhere in an answer. -/
def delimitedKeys (x : Expander) (chain : Chain) : Set Text :=
  {key | ∃ value ∈ x.answers, ∃ d ∈ x.markup.delimiters.members, ∃ expression,
    d.wrap expression <:+: value ∧ chain.key expression = key}

/-- The keys for which no frame is open yet. -/
def unopened (x : Expander) (chain : Chain) : Set Text :=
  x.delimitedKeys chain \ {key | key ∈ chain.frames}

variable {x : Expander}

theorem finite_answers (h : ∀ source ∈ x.sources, source.answers.Finite) : x.answers.Finite := by
  have hUnion : x.answers = ⋃ source ∈ {source | source ∈ x.sources}, source.answers := by
    ext value
    simp [answers]
  rw [hUnion]
  exact (List.finite_toSet x.sources).biUnion h

theorem finite_delimitedKeys (h : x.answers.Finite) (chain : Chain) :
    (x.delimitedKeys chain).Finite := by
  have hParts : (⋃ value ∈ x.answers, {part | part ∈ List.sublists value}).Finite :=
    h.biUnion fun value _ => List.finite_toSet value.sublists
  refine (hParts.image chain.key).subset ?_
  rintro key ⟨value, hValue, d, _, expression, hInfix, rfl⟩
  refine ⟨expression, Set.mem_biUnion hValue (List.mem_sublists.mpr ?_), rfl⟩
  have hInside : expression <:+: d.wrap expression := ⟨d.opening, d.closing, rfl⟩
  exact (hInside.trans hInfix).sublist

/-- Opening a frame for one of them leaves one less. -/
theorem ncard_unopened_start_lt (h : x.answers.Finite) {chain : Chain} {expression : Text}
    (hKey : chain.key expression ∈ x.delimitedKeys chain)
    (hNew : chain.has expression = false) :
    (x.unopened (chain.start expression)).ncard < (x.unopened chain).ncard := by
  have hFinite : (x.unopened chain).Finite := (finite_delimitedKeys h chain).sdiff
  refine Set.ncard_lt_ncard ⟨?_, fun hSubset => ?_⟩ hFinite
  · rintro key ⟨hIn, hOut⟩
    exact ⟨hIn, fun hOpen => hOut (List.mem_append_left _ hOpen)⟩
  · have hUnopened : chain.key expression ∈ x.unopened chain :=
      ⟨hKey, fun hOpen => by
        rw [Chain.has, List.contains_iff_mem.mpr hOpen] at hNew
        exact Bool.noConfusion hNew⟩
    exact (hSubset hUnopened).2 (List.mem_append_right _ (List.mem_singleton_self _))

theorem ncard_unopened_le (h : x.answers.Finite) (chain : Chain) :
    (x.unopened chain).ncard ≤ (x.delimitedKeys chain).ncard :=
  Set.ncard_le_ncard Set.sdiff_subset (finite_delimitedKeys h chain)

/-- The placeholders of a value that is expanded again open frames for such keys only. -/
theorem key_mem_delimitedKeys {value : Text} (hValue : value ∈ x.answers) (chain : Chain)
    {d : Delimiter} {expression : Text}
    (h : .placeholder d expression ∈ x.valueSegments value) :
    chain.key expression ∈ x.delimitedKeys chain := by
  rw [valueSegments] at h
  split at h
  · obtain ⟨hMem, hInfix⟩ := Markup.infix_of_mem_segments h
    exact ⟨value, hValue, d, hMem, expression, hInfix, rfl⟩
  · simp at h

/-- A value that is found is an answer, and asking is all that happens. -/
theorem askInOrder_spec (expression : Text) (place : Nat) (sources : List ValueSource) :
    (∀ value, (askInOrder expression place sources).1 = .ok (some value) →
        ∃ source ∈ sources, value ∈ source.answers) ∧
      ∀ event ∈ (askInOrder expression place sources).2, ∃ n, event = .asked n expression := by
  induction sources generalizing place with
  | nil => simp [askInOrder]
  | cons source rest ih =>
      obtain ⟨hFound, hAsked⟩ := ih (place + 1)
      rw [askInOrder]
      cases hLookup : source.lookup expression with
      | error failure => simp
      | ok answer =>
          cases answer with
          | some value =>
              refine ⟨fun other hEq => ?_, by simp⟩
              obtain rfl : value = other := by simpa using hEq
              exact ⟨source, List.mem_cons_self .., expression, hLookup⟩
          | none =>
              refine ⟨fun value hEq => ?_, fun event hMem => ?_⟩
              · obtain ⟨other, hMem, hAnswer⟩ := hFound value hEq
                exact ⟨other, List.mem_cons_of_mem _ hMem, hAnswer⟩
              · rcases List.mem_cons.mp hMem with rfl | hLater
                · exact ⟨place, rfl⟩
                · exact hAsked event hLater

end Placeholder.Expander
