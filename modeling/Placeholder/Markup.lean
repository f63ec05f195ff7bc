import Placeholder.Delimiter
import Placeholder.Escape
/-!
Text as a sequence of segments. Where a placeholder stands depends on the text and its markup only,
never on the values, so a whole text can be cut into segments before anything is looked up.
`Markup.first` cuts off one segment, `Markup.segments` all of them.
-/
namespace Placeholder

/-- The delimiters and the escape string of a text. -/
structure Markup where
  delimiters : DelimiterSet
  escape : Escape
deriving DecidableEq

/-- A piece of a text: characters for the output as they are, or a delimited expression. -/
inductive Segment where
  | literal (text : Text)
  | placeholder (delimiter : Delimiter) (expression : Text)
deriving DecidableEq

/-- The expression of a placeholder. -/
def Segment.expression? : Segment → Option Text
  | literal _ => none
  | placeholder _ expression => some expression

namespace Markup

/-- The standard delimiters without an escape string. -/
def standard : Markup := ⟨.standard, .off⟩

/-- The segment at the front of a text, when no escape string is there: a placeholder if an opening
token is there and its closing token follows somewhere, one character otherwise. -/
def firstUnescaped (m : Markup) (c : Char) (rest : Text) : Segment × Text :=
  match m.delimiters.longestMatch (c :: rest) with
  | none => (.literal [c], rest)
  | some d =>
    match Text.breakOn d.closing ((c :: rest).drop d.opening.length) with
    | none => (.literal [c], rest)
    | some (expression, after) => (.placeholder d expression, after)

/-- The segment at the front of a text, and what follows it. An escape string takes the opening
token after it along as plain text, or else the one character after it. -/
def first (m : Markup) (c : Char) (rest : Text) : Segment × Text :=
  match m.escape.marker with
  | none => m.firstUnescaped c rest
  | some marker =>
    match marker.isPrefixOf? (c :: rest) with
    | none => m.firstUnescaped c rest
    | some after =>
      match m.delimiters.longestMatch after with
      | some d => (.literal (m.escape.kept marker ++ d.opening), after.drop d.opening.length)
      | none => (.literal (marker ++ after.take 1), after.drop 1)

theorem firstUnescaped_length (m : Markup) (c : Char) (rest : Text) :
    (m.firstUnescaped c rest).2.length < (c :: rest).length := by
  simp only [firstUnescaped]
  split
  · simp
  · rename_i d _
    split
    · simp
    · rename_i expression after hCut
      show after.length < (c :: rest).length
      have hSplit := congrArg List.length (Text.eq_append_of_breakOn hCut)
      have hClosing := List.length_pos_iff.mpr d.closing_ne_nil
      simp only [List.length_drop, List.length_append] at hSplit
      omega

/-- Every segment uses up at least one character. -/
theorem first_length (m : Markup) (c : Char) (rest : Text) :
    (m.first c rest).2.length < (c :: rest).length := by
  simp only [first]
  split
  · exact m.firstUnescaped_length c rest
  · rename_i marker hMarker
    split
    · exact m.firstUnescaped_length c rest
    · rename_i after hAfter
      have hSplit := congrArg List.length (Text.eq_append_of_isPrefixOf? hAfter)
      have hPos : 0 < marker.length :=
        List.length_pos_iff.mpr fun hNil => m.escape.marker_ne_nil (hNil ▸ hMarker)
      simp only [List.length_append] at hSplit
      split <;> simp only [List.length_drop] <;> omega

/-- The segments of a text, from left to right. -/
def segments (m : Markup) : Text → List Segment
  | [] => []
  | c :: rest => (m.first c rest).1 :: m.segments (m.first c rest).2
termination_by text => text.length
decreasing_by exact m.first_length c rest

end Markup

end Placeholder
