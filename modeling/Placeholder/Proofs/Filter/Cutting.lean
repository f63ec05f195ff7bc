import Placeholder.Filter.Options
import Placeholder.Proofs.Markup.Segments
/-!
How a filter cuts a whole text into segments. At each place an escape string is looked for first,
then a placeholder that is closed within reach; where neither stands, one character passes. Nothing
here marks, goes back or waits: a place is the text from there on.
-/
namespace Placeholder

/-- What a filter looks for: its markup, how many characters a placeholder may take up, and whether
it may span lines. -/
structure FilterRules where
  markup : Markup
  reach : Nat
  multiLine : Bool

namespace FilterRules

/-- Whether a placeholder is recognised: all of it lies within reach, and no line ends behind its
opening token unless it may span lines. -/
def recognises (rules : FilterRules) (d : Delimiter) (expression : Text) : Bool :=
  d.opening.length + expression.length + d.closing.length ≤ rules.reach &&
    (rules.multiLine || !(expression ++ d.closing).contains '\n')

/-- The placeholder at the front of a text, if it is recognised. -/
def placeholderAt (rules : FilterRules) (text : Text) : Option (Delimiter × Text × Text) :=
  (rules.markup.placeholderAt text).filter fun found => rules.recognises found.1 found.2.1

/-- The segment at the front of a text, and what follows it. -/
def first (rules : FilterRules) (c : Char) (rest : Text) : Segment × Text :=
  match rules.markup.escapedAt (c :: rest) with
  | some cut => cut
  | none =>
    match rules.placeholderAt (c :: rest) with
    | some (d, expression, after) => (.placeholder d expression, after)
    | none => (.literal [c], rest)

/-- A recognised placeholder stands at the front of the text, within reach. -/
theorem eq_of_placeholderAt {rules : FilterRules} {text after : Text} {d : Delimiter}
    {expression : Text} (h : rules.placeholderAt text = some (d, expression, after)) :
    rules.markup.placeholderAt text = some (d, expression, after) ∧
      text = d.wrap expression ++ after ∧ rules.recognises d expression = true := by
  obtain ⟨hFound, hRecognised⟩ := Option.filter_eq_some_iff.mp h
  exact ⟨hFound, (Markup.eq_of_placeholderAt hFound).1, hRecognised⟩

/-- Every segment uses up at least one character. -/
theorem first_length (rules : FilterRules) (c : Char) (rest : Text) :
    (rules.first c rest).2.length < (c :: rest).length := by
  rw [first]
  cases hEscaped : rules.markup.escapedAt (c :: rest) with
  | some cut => exact (Markup.escapedAt_literal hEscaped).2.2
  | none =>
      cases hFound : rules.placeholderAt (c :: rest) with
      | none => simp
      | some found =>
          obtain ⟨d, expression, after⟩ := found
          obtain ⟨_, hText, _⟩ := eq_of_placeholderAt hFound
          have hPos := d.opening_pos
          rw [hText, Delimiter.wrap]
          simp only [List.length_append]
          omega

/-- The segments of a text, from left to right. -/
def cut (rules : FilterRules) : Text → List Segment
  | [] => []
  | c :: rest => (rules.first c rest).1 :: rules.cut (rules.first c rest).2
termination_by text => text.length
decreasing_by exact rules.first_length c rest

theorem cut_nil (rules : FilterRules) : rules.cut [] = [] := by rw [cut]

theorem cut_cons (rules : FilterRules) (c : Char) (rest : Text) :
    rules.cut (c :: rest) = (rules.first c rest).1 :: rules.cut (rules.first c rest).2 := by
  rw [cut]

theorem cut_of_escapedAt {rules : FilterRules} {text after : Text} {segment : Segment}
    (h : rules.markup.escapedAt text = some (segment, after)) :
    rules.cut text = segment :: rules.cut after := by
  cases text with
  | nil => exact absurd (Markup.escapedAt_literal h).2.2 (Nat.not_lt_zero _)
  | cons c rest => simp only [cut_cons, first, h]

theorem cut_of_placeholderAt {rules : FilterRules} {text after : Text} {d : Delimiter}
    {expression : Text} (hEscaped : rules.markup.escapedAt text = none)
    (h : rules.placeholderAt text = some (d, expression, after)) :
    rules.cut text = .placeholder d expression :: rules.cut after := by
  cases text with
  | nil =>
      obtain ⟨_, hText, _⟩ := eq_of_placeholderAt h
      rw [Delimiter.wrap] at hText
      exact absurd hText.symm (by simp [d.opening_ne_nil])
  | cons c rest => simp only [cut_cons, first, hEscaped, h]

theorem cut_of_neither {rules : FilterRules} {c : Char} {rest : Text}
    (hEscaped : rules.markup.escapedAt (c :: rest) = none)
    (h : rules.placeholderAt (c :: rest) = none) :
    rules.cut (c :: rest) = .literal [c] :: rules.cut rest := by
  simp only [cut_cons, first, hEscaped, h]

/-- In a text that fits and whose lines do not matter, every placeholder is recognised. -/
theorem first_eq_first {rules : FilterRules} {c : Char} {rest : Text}
    (hLine : rules.multiLine = true ∨ '\n' ∉ c :: rest)
    (hReach : (c :: rest).length ≤ rules.reach) :
    rules.first c rest = rules.markup.first c rest := by
  rw [first, Markup.first_eq]
  cases rules.markup.escapedAt (c :: rest) with
  | some cut => rfl
  | none =>
      rw [Option.getD_none, Markup.firstUnescaped_eq, placeholderAt]
      cases hFound : rules.markup.placeholderAt (c :: rest) with
      | none => rfl
      | some found =>
          obtain ⟨d, expression, after⟩ := found
          have hRecognised : rules.recognises d expression = true := by
            rw [(Markup.eq_of_placeholderAt hFound).1, Delimiter.wrap] at hLine hReach
            simp only [recognises, Bool.and_eq_true, decide_eq_true_eq, Bool.or_eq_true,
              Bool.not_eq_true', List.contains_eq_mem, decide_eq_false_iff_not]
            simp only [List.length_append, List.mem_append, not_or] at hReach hLine ⊢
            exact ⟨by omega, hLine.imp id fun hNone => ⟨hNone.1.1.2, hNone.1.2⟩⟩
          simp only [Option.filter_some, hRecognised, if_true]

/-- The segments of such a text are those of its markup. -/
theorem cut_eq_segments {rules : FilterRules} {text : Text}
    (hLine : rules.multiLine = true ∨ '\n' ∉ text) (hReach : text.length ≤ rules.reach) :
    rules.cut text = rules.markup.segments text := by
  induction text using cut.induct rules with
  | case1 => rw [cut_nil, Markup.segments_nil]
  | case2 c rest ih =>
      have hShorter := rules.first_length c rest
      have hRest := rules.markup.first_suffix c rest
      have hFirst := first_eq_first hLine hReach
      rw [cut_cons, Markup.segments_cons, ih ?_ (by omega), hFirst]
      rw [hFirst]
      exact hLine.imp id fun hNone hMem => hNone (hRest.subset hMem)

end FilterRules

/-- What a filter with these switches looks for. -/
def FilterOptions.rules (options : FilterOptions) (markup : Markup) : FilterRules where
  markup := markup
  reach := options.reach markup
  multiLine := options.multiLine

end Placeholder
