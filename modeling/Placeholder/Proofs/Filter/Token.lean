import Placeholder.Proofs.Filter.Rendering
/-!
A placeholder on its own. The characters of a placeholder that was recognised in a text are, as a
text, that placeholder and nothing else, so it makes no difference whether a filter hands on the
whole token or the expression inside.
-/
namespace Placeholder

/-- A recognised placeholder, read as a text of its own. -/
theorem Markup.segments_wrap {m : Markup} {text rest : Text} {d : Delimiter} {expression : Text}
    (hEscaped : m.escapedAt text = none)
    (hFound : m.placeholderAt text = some (d, expression, rest)) :
    m.segments (d.wrap expression) = [.placeholder d expression] := by
  obtain ⟨hText, hMatch, hBreak⟩ := eq_of_placeholderAt hFound
  have hOpening : d.opening <+: d.wrap expression :=
    ⟨expression ++ d.closing, by rw [Delimiter.wrap, List.append_assoc]⟩
  have hNoEscape : m.escapedAt (d.wrap expression) = none := by
    refine escapedAt_eq_none_iff.mpr fun marker hMarker hPrefix => ?_
    exact escapedAt_eq_none_iff.mp hEscaped marker hMarker
      (hPrefix.trans (hText ▸ List.prefix_append _ _))
  have hAlone : m.delimiters.longestMatch (d.wrap expression) = some d :=
    DelimiterSet.longestMatch_of_append (hText ▸ hMatch) hOpening
  -- A closing token further left would be one in the text as well.
  have hBreakAlone : Text.breakOn d.closing ((d.wrap expression).drop d.opening.length) =
      some (expression, []) := by
    have hDrop : (d.wrap expression).drop d.opening.length = expression ++ d.closing := by
      rw [Delimiter.wrap, List.append_assoc, List.drop_left]
    rw [hDrop]
    refine Text.breakOn_eq_some_of_first d.closing_ne_nil (List.append_nil _).symm ?_
    intro b a hSplit
    refine Text.length_le_of_breakOn (a := a ++ rest) hBreak ?_
    rw [hText, List.drop_append_of_le_length hOpening.length_le, hDrop, hSplit, List.append_assoc]
  have hAt : m.placeholderAt (d.wrap expression) = some (d, expression, []) := by
    simp only [placeholderAt, hAlone, hBreakAlone, Option.map_some]
  cases hToken : d.wrap expression with
  | nil =>
      rw [hToken, List.prefix_nil] at hOpening
      exact absurd hOpening d.opening_ne_nil
  | cons c others =>
      rw [hToken] at hNoEscape hAt
      simp only [segments_cons, first_eq, hNoEscape, Option.getD_none, firstUnescaped_eq, hAt,
        segments_nil]

/-- Interpolating a token asks for its expression. -/
theorem Expander.interpolate_wrap {x : Expander} {d : Delimiter} {expression : Text}
    (hAlone : x.markup.segments (d.wrap expression) = [.placeholder d expression]) (s : Session) :
    x.interpolate s (d.wrap expression) = (x.resolve s expression).map
      fun answered => (answered.1.map (·.getD (d.wrap expression)), answered.2) := by
  rw [interpolate, hAlone, fillSegments]
  cases x.resolve s expression with
  | none => rfl
  | some resolved =>
      obtain ⟨result, after⟩ := resolved
      cases result with
      | error failure => rfl
      | ok answer =>
          simp only [Option.bind_eq_bind, Option.bind_some, fillSegments, Except.map,
            List.append_nil, Option.map_some, Option.pure_def]

/-- Handing on the whole token gives what the expression alone gives. -/
theorem FilterStream.answer_eq {f : FilterStream} {d : Delimiter} {expression : Text}
    (hAlone : f.expander.markup.segments (d.wrap expression) = [.placeholder d expression]) :
    (f.answer (d.wrap expression) expression).map
        (fun answered => (answered.1.map (·.getD (d.wrap expression)), answered.2)) =
      (f.expander.resolve f.session expression).map
        (fun answered => (answered.1.map (·.getD (d.wrap expression)), answered.2)) := by
  rw [answer]
  split
  · rw [Expander.interpolate_wrap hAlone]
    cases f.expander.resolve f.session expression with
    | none => rfl
    | some resolved =>
        obtain ⟨result, after⟩ := resolved
        cases result with
        | error failure => rfl
        | ok answer =>
            simp only [Option.bind_eq_bind, Option.bind_some, Except.map, Option.map_some,
              Option.pure_def]
            -- A value that is the token itself is not told from no value, and stands for both.
            by_cases hSame : answer.getD (d.wrap expression) = d.wrap expression
            · rw [if_pos hSame, Option.getD_none, hSame]
            · rw [if_neg hSame, Option.getD_some]
  · rfl

end Placeholder
