import Mathlib.Data.Set.Finite.Lattice
import Placeholder.Document.Basic
/-!
Which sources have finitely many answers: tables, the environment, single responses, constants,
documents, failing sources, and all of these behind prefixes. A document may be asked infinitely many
paths, but they lead to no more places than it has parts.
-/
namespace Placeholder

namespace Document

/-- What the paths into the document lead to. -/
def places (document : Document) : Set Document :=
  {reached | ∃ path, document.walk path = some reached}

/-- A path into a list or an object leads to it or into one of its parts. -/
theorem finite_places_of_parts {document : Document} (parts : List Document)
    (hParts : ∀ part ∈ parts, part.places.Finite)
    (hWalk : ∀ segment rest reached, document.walk (segment :: rest) = some reached →
      ∃ part ∈ parts, part.walk rest = some reached) : document.places.Finite := by
  have hInner : (⋃ part ∈ {part | part ∈ parts}, part.places).Finite :=
    (List.finite_toSet parts).biUnion hParts
  refine (hInner.insert document).subset ?_
  rintro reached ⟨path, hReached⟩
  cases path with
  | nil => exact Or.inl (Option.some.inj hReached).symm
  | cons segment rest =>
      obtain ⟨part, hMem, hRest⟩ := hWalk segment rest reached hReached
      exact Or.inr (Set.mem_biUnion (s := {part | part ∈ parts}) hMem ⟨rest, hRest⟩)

/-- All paths together lead to finitely many places. -/
theorem finite_places (document : Document) : document.places.Finite := by
  match document with
  | list items =>
      refine finite_places_of_parts items (fun item hMem => finite_places item) ?_
      intro segment rest reached hWalk
      obtain ⟨next, hNext, hRest⟩ := Option.bind_eq_some_iff.mp hWalk
      obtain ⟨n, _, hItem⟩ := Option.bind_eq_some_iff.mp hNext
      exact ⟨next, List.mem_of_getElem? hItem, hRest⟩
  | object members =>
      refine finite_places_of_parts (members.map (·.2)) (fun value hMem => ?_) ?_
      · have hIn := List.mem_map.mp hMem
        exact finite_places value
      · intro segment rest reached hWalk
        obtain ⟨next, hNext, hRest⟩ := Option.bind_eq_some_iff.mp hWalk
        obtain ⟨before, after, hSplit, _⟩ := List.lookup_eq_some_iff.mp hNext
        exact ⟨next, by simp [hSplit], hRest⟩
  | null => exact finite_places_of_parts [] (by simp) fun _ _ _ h => by cases h
  | boolean _ => exact finite_places_of_parts [] (by simp) fun _ _ _ h => by cases h
  | number _ => exact finite_places_of_parts [] (by simp) fun _ _ _ h => by cases h
  | text _ => exact finite_places_of_parts [] (by simp) fun _ _ _ h => by cases h
termination_by sizeOf document
decreasing_by
  · simp only [list.sizeOf_spec]
    have hLt := List.sizeOf_lt_of_mem hMem
    omega
  · simp only [object.sizeOf_spec]
    obtain ⟨member, hMember, rfl⟩ := hIn
    have hLt := List.sizeOf_lt_of_mem hMember
    obtain ⟨key, value⟩ := member
    simp only [Prod.mk.sizeOf_spec] at hLt ⊢
    omega

end Document

namespace ValueSource

/-- All values that the source may answer. -/
def answers (source : ValueSource) : Set Text :=
  {value | ∃ expression, source.lookup expression = .ok (some value)}

theorem finite_answers_ofTable (table : Table) : (ofTable table).answers.Finite := by
  refine (List.finite_toSet (table.entries.map (·.2))).subset ?_
  rintro value ⟨expression, hLookup⟩
  have hGet : table.get? expression = some value := by simpa [ofTable, ofAnswers] using hLookup
  exact List.mem_map.mpr ⟨_, Table.mem_entries_of_get? hGet, rfl⟩

theorem finite_answers_ofEnvironment (vars : Table) : (ofEnvironment vars).answers.Finite := by
  refine (finite_answers_ofTable vars).subset ?_
  rintro value ⟨expression, hLookup⟩
  have hBind : (environmentPrefix.isPrefixOf? expression).bind vars.get? = some value := by
    simpa [ofEnvironment, ofAnswers] using hLookup
  obtain ⟨name, _, hGet⟩ := Option.bind_eq_some_iff.mp hBind
  exact ⟨name, by simp [ofTable, ofAnswers, hGet]⟩

theorem finite_answers_single (expression response : Text) :
    (single expression response).answers.Finite := by
  refine (Set.finite_singleton response).subset ?_
  rintro value ⟨asked, hLookup⟩
  have hBoth : asked = expression ∧ response = value := by
    simpa [single, ofAnswers] using hLookup
  exact hBoth.2.symm

theorem finite_answers_constant (response : Text) : (constant response).answers.Finite := by
  refine (Set.finite_singleton response).subset ?_
  rintro value ⟨asked, hLookup⟩
  have hSame : response = value := by simpa [constant, ofAnswers] using hLookup
  exact hSame.symm

theorem finite_answers_failing (expression reason : Text) :
    (failing expression reason).answers.Finite := by
  refine Set.finite_empty.subset ?_
  rintro value ⟨asked, hLookup⟩
  simp only [failing] at hLookup
  split at hLookup <;> cases hLookup

theorem finite_answers_ofDocument (document : Document) :
    (ofDocument document).answers.Finite := by
  have hTexts : ((fun reached => (Document.value? reached).getD []) '' document.places).Finite :=
    document.finite_places.image _
  refine hTexts.subset ?_
  rintro value ⟨expression, hLookup⟩
  have hGet : document.get? expression = some value := by
    simpa [ofDocument, ofAnswers] using hLookup
  obtain ⟨reached, hWalk, hValue⟩ := Option.bind_eq_some_iff.mp hGet
  exact ⟨reached, ⟨_, hWalk⟩, by simp [hValue]⟩

/-- Prefixes add no answers. -/
theorem finite_answers_prefixed (prefixes : List Text) (unprefixed : Bool) {inner : ValueSource}
    (h : inner.answers.Finite) : (prefixed prefixes unprefixed inner).answers.Finite := by
  refine h.subset ?_
  rintro value ⟨expression, hLookup⟩
  simp only [prefixed] at hLookup
  split at hLookup
  · exact ⟨_, hLookup⟩
  · split at hLookup
    · exact ⟨_, hLookup⟩
    · cases hLookup

end ValueSource

end Placeholder
