import Placeholder.Proofs.Markup.Segments
import Placeholder.Session
/-!
Texts without placeholders. Segments that are characters only are put together without asking for
anything. A text in which no opening token stands has only such segments, whatever escape strings
there are in it.
-/
namespace Placeholder

/-- The segments are characters for the output only, and put together they are the text. -/
inductive Plain : List Segment → Text → Prop
  | nil : Plain [] []
  | literal (front : Text) {segments : List Segment} {text : Text} (hRest : Plain segments text) :
      Plain (.literal front :: segments) (front ++ text)

namespace Plain

variable {segments : List Segment} {text : Text}

theorem single (text : Text) : Plain [.literal text] text := by
  have hText := Plain.nil.literal text
  rwa [List.append_nil] at hText

/-- Nothing is asked for and nothing is remembered. -/
theorem fillSegments (h : Plain segments text) (x : Expander) (s : Session) :
    x.fillSegments s segments = some (.ok text, s) := by
  induction h with
  | nil => rfl
  | literal front _ ih =>
      rw [Expander.fillSegments, ih]
      rfl

end Plain

namespace DelimiterSet

/-- No opening token of the set stands anywhere in the text. -/
def Absent (set : DelimiterSet) (text : Text) : Prop :=
  ∀ d ∈ set.members, ¬ d.opening <:+: text

variable {set : DelimiterSet} {piece text : Text}

theorem opensIn_eq_false_iff : set.opensIn text = false ↔ set.Absent text := by
  rw [opensIn, List.any_eq_false]
  refine forall₂_congr fun d _ => ?_
  rw [Text.occursIn_iff d.opening_ne_nil]

theorem Absent.part (h : set.Absent text) (hPart : piece <:+: text) : set.Absent piece :=
  fun d hMem hOpens => h d hMem (hOpens.trans hPart)

theorem Absent.longestMatch (h : set.Absent text) : set.longestMatch text = none :=
  longestMatch_eq_none_iff.mpr fun d hMem hOpens => h d hMem hOpens.isInfix

end DelimiterSet

namespace Markup

variable {m : Markup}

/-- At the front of such a text stand characters for the output. -/
theorem first_of_absent {c : Char} {rest : Text} (h : m.delimiters.Absent (c :: rest)) :
    ∃ front, (m.first c rest).1 = .literal front ∧ c :: rest = front ++ (m.first c rest).2 := by
  rw [first_eq]
  cases hEscaped : m.escapedAt (c :: rest) with
  | some cut =>
      rw [Option.getD_some]
      exact append_of_escapedAt hEscaped fun after hAfter => (h.part hAfter.isInfix).longestMatch
  | none =>
      have hNone : m.placeholderAt (c :: rest) = none := by
        simp only [placeholderAt, h.longestMatch]
      rw [Option.getD_none, firstUnescaped_eq, hNone]
      exact ⟨[c], rfl, rfl⟩

/-- A text in which no opening token stands is characters only, all of them. -/
theorem plain_segments {text : Text} (h : m.delimiters.Absent text) :
    Plain (m.segments text) text := by
  induction text using segments.induct m with
  | case1 =>
      rw [segments_nil]
      exact .nil
  | case2 c rest ih =>
      obtain ⟨front, hFirst, hText⟩ := first_of_absent h
      have hRest := ih (h.part (m.first_suffix c rest).isInfix)
      rw [segments_cons, hFirst]
      have hPlain := hRest.literal front
      rwa [← hText] at hPlain

end Markup

end Placeholder
