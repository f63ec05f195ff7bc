import Placeholder.Markup
import Placeholder.Proofs.Delimiters.LongestMatch
import Placeholder.Proofs.Text.Search
/-!
The front of a marked text. An escape string is looked for first, then a placeholder; what either
covers stands there as written, and the segments that follow are those of an end of the text.
-/
namespace Placeholder

theorem Escape.length_of_marker {escape : Escape} {marker : Text}
    (h : escape.marker = some marker) : escape.length = marker.length := by
  rw [length, h]
  rfl

theorem Escape.marker_pos {escape : Escape} {marker : Text} (h : escape.marker = some marker) :
    0 < marker.length := by
  apply List.length_pos_iff.mpr
  intro hNil
  exact escape.marker_ne_nil (hNil ▸ h)

/-- A segment as it stands in the text. -/
def Segment.written : Segment → Text
  | literal text => text
  | placeholder d expression => d.wrap expression

namespace Markup

/-- The escape string at the front of a text, with what follows the segment. It takes the opening
token after it along as plain text, or else the one character after it. -/
def escapedAt (m : Markup) (text : Text) : Option (Segment × Text) :=
  match m.escape.marker with
  | none => none
  | some marker =>
    match marker.isPrefixOf? text with
    | none => none
    | some after =>
      match m.delimiters.longestMatch after with
      | some d => some (.literal (m.escape.kept marker ++ d.opening), after.drop d.opening.length)
      | none => some (.literal (marker ++ after.take 1), after.drop 1)

/-- The delimiter and the expression of the placeholder at the front of a text, up to the first
closing token, with what follows it. -/
def placeholderAt (m : Markup) (text : Text) : Option (Delimiter × Text × Text) :=
  match m.delimiters.longestMatch text with
  | none => none
  | some d =>
    (Text.breakOn d.closing (text.drop d.opening.length)).map fun cut => (d, cut.1, cut.2)

variable {m : Markup} {text : Text}

theorem escapedAt_of_off (h : m.escape.marker = none) (text : Text) : m.escapedAt text = none := by
  simp only [escapedAt, h]

theorem escapedAt_of_absent {marker : Text} (h : m.escape.marker = some marker)
    (hText : ¬ marker <+: text) : m.escapedAt text = none := by
  simp only [escapedAt, h, Text.isPrefixOf?_eq_none_iff.mpr hText]

theorem escapedAt_of_match {marker after : Text} {d : Delimiter}
    (h : m.escape.marker = some marker) (hMatch : m.delimiters.longestMatch after = some d) :
    m.escapedAt (marker ++ after) =
      some (.literal (m.escape.kept marker ++ d.opening), after.drop d.opening.length) := by
  simp only [escapedAt, h, Text.isPrefixOf?_append, hMatch]

theorem escapedAt_of_no_match {marker after : Text} (h : m.escape.marker = some marker)
    (hMatch : m.delimiters.longestMatch after = none) :
    m.escapedAt (marker ++ after) = some (.literal (marker ++ after.take 1), after.drop 1) := by
  simp only [escapedAt, h, Text.isPrefixOf?_append, hMatch]

theorem escapedAt_eq_none_iff :
    m.escapedAt text = none ↔ ∀ marker, m.escape.marker = some marker → ¬ marker <+: text := by
  constructor
  · rintro hNone marker hMarker ⟨after, rfl⟩
    cases hMatch : m.delimiters.longestMatch after with
    | some d => cases hNone.symm.trans (escapedAt_of_match hMarker hMatch)
    | none => cases hNone.symm.trans (escapedAt_of_no_match hMarker hMatch)
  · intro hAll
    cases hMarker : m.escape.marker with
    | none => exact escapedAt_of_off hMarker text
    | some marker => exact escapedAt_of_absent hMarker (hAll marker hMarker)

theorem eq_append_of_escapedAt {cut : Segment × Text} (h : m.escapedAt text = some cut) :
    ∃ marker after, m.escape.marker = some marker ∧ text = marker ++ after := by
  simp only [escapedAt] at h
  split at h
  · cases h
  · rename_i marker hMarker
    split at h
    · cases h
    · rename_i after hAfter
      exact ⟨marker, after, hMarker, Text.eq_append_of_isPrefixOf? hAfter⟩

/-- An escape string turns into plain text, at least one character of it, and what follows is an end
of the text. -/
theorem escapedAt_literal {cut : Segment × Text} (h : m.escapedAt text = some cut) :
    (∃ front, cut.1 = .literal front) ∧ cut.2 <:+ text ∧ cut.2.length < text.length := by
  obtain ⟨marker, after, hMarker, rfl⟩ := eq_append_of_escapedAt h
  have hPos := Escape.marker_pos hMarker
  have hDrop : ∀ n, after.drop n <:+ marker ++ after := fun n =>
    (List.drop_suffix n after).trans (List.suffix_append marker after)
  cases hMatch : m.delimiters.longestMatch after with
  | some d =>
      obtain rfl := Option.some.inj ((escapedAt_of_match hMarker hMatch).symm.trans h)
      refine ⟨⟨_, rfl⟩, hDrop _, ?_⟩
      rw [List.length_append, List.length_drop]
      omega
  | none =>
      obtain rfl := Option.some.inj ((escapedAt_of_no_match hMarker hMatch).symm.trans h)
      refine ⟨⟨_, rfl⟩, hDrop _, ?_⟩
      rw [List.length_append, List.length_drop]
      omega

/-- An escape string that escapes nothing is not dropped. -/
theorem append_of_escapedAt {cut : Segment × Text} (h : m.escapedAt text = some cut)
    (hNone : ∀ after, after <:+ text → m.delimiters.longestMatch after = none) :
    ∃ front, cut.1 = .literal front ∧ text = front ++ cut.2 := by
  obtain ⟨marker, after, hMarker, rfl⟩ := eq_append_of_escapedAt h
  rw [escapedAt_of_no_match hMarker (hNone after (List.suffix_append marker after))] at h
  obtain rfl := Option.some.inj h
  refine ⟨marker ++ after.take 1, rfl, ?_⟩
  rw [List.append_assoc, List.take_append_drop]

/-- A placeholder that is found stands at the front of the text. -/
theorem eq_of_placeholderAt {d : Delimiter} {expression after : Text}
    (h : m.placeholderAt text = some (d, expression, after)) :
    text = d.wrap expression ++ after ∧ m.delimiters.longestMatch text = some d ∧
      Text.breakOn d.closing (text.drop d.opening.length) = some (expression, after) := by
  simp only [placeholderAt] at h
  split at h
  · cases h
  · rename_i e hMatch
    obtain ⟨⟨before, rest⟩, hBreak, hEq⟩ := Option.map_eq_some_iff.mp h
    obtain ⟨rfl, rfl, rfl⟩ : e = d ∧ before = expression ∧ rest = after := by simpa using hEq
    refine ⟨?_, hMatch, hBreak⟩
    obtain ⟨back, hText⟩ := DelimiterSet.opening_prefix_of_longestMatch hMatch
    have hBody := Text.eq_append_of_breakOn hBreak
    rw [← hText, List.drop_left] at hBody
    rw [← hText, hBody, Delimiter.wrap]
    simp only [List.append_assoc]

theorem firstUnescaped_eq (m : Markup) (c : Char) (rest : Text) :
    m.firstUnescaped c rest =
      match m.placeholderAt (c :: rest) with
      | none => (.literal [c], rest)
      | some (d, expression, after) => (.placeholder d expression, after) := by
  rw [firstUnescaped, placeholderAt]
  cases m.delimiters.longestMatch (c :: rest) with
  | none => rfl
  | some d =>
      simp only []
      cases Text.breakOn d.closing ((c :: rest).drop d.opening.length) <;> rfl

/-- An escape string is looked for first. -/
theorem first_eq (m : Markup) (c : Char) (rest : Text) :
    m.first c rest = (m.escapedAt (c :: rest)).getD (m.firstUnescaped c rest) := by
  simp only [first, escapedAt]
  cases m.escape.marker with
  | none => rfl
  | some marker =>
      cases hPrefix : marker.isPrefixOf? (c :: rest) with
      | none => simp only [hPrefix, Option.getD_none]
      | some after =>
          cases hMatch : m.delimiters.longestMatch after <;>
            simp only [hPrefix, hMatch, Option.getD_some]

/-- What can stand at the front: plain text, or a placeholder as it is written. -/
theorem first_cases (m : Markup) (c : Char) (rest : Text) :
    ((∃ front, (m.first c rest).1 = .literal front) ∧ (m.first c rest).2 <:+ c :: rest) ∨
      ∃ d expression, (m.first c rest).1 = .placeholder d expression ∧
        d ∈ m.delimiters.members ∧ c :: rest = d.wrap expression ++ (m.first c rest).2 := by
  rw [first_eq]
  cases hEscaped : m.escapedAt (c :: rest) with
  | some cut =>
      obtain ⟨hLiteral, hSuffix, _⟩ := escapedAt_literal hEscaped
      exact Or.inl ⟨hLiteral, hSuffix⟩
  | none =>
      rw [Option.getD_none, firstUnescaped_eq]
      cases hFound : m.placeholderAt (c :: rest) with
      | none => exact Or.inl ⟨⟨[c], rfl⟩, List.suffix_cons c rest⟩
      | some found =>
          obtain ⟨d, expression, after⟩ := found
          obtain ⟨hText, hMatch, _⟩ := eq_of_placeholderAt hFound
          exact Or.inr ⟨d, expression, rfl, DelimiterSet.mem_of_longestMatch hMatch, hText⟩

theorem first_suffix (m : Markup) (c : Char) (rest : Text) : (m.first c rest).2 <:+ c :: rest := by
  rcases m.first_cases c rest with ⟨_, hSuffix⟩ | ⟨d, expression, _, _, hText⟩
  · exact hSuffix
  · exact hText ▸ List.suffix_append _ _

theorem segments_nil (m : Markup) : m.segments [] = [] := by rw [segments]

theorem segments_cons (m : Markup) (c : Char) (rest : Text) :
    m.segments (c :: rest) = (m.first c rest).1 :: m.segments (m.first c rest).2 := by
  rw [segments]

/-- A placeholder among the segments stands in the text, between its delimiters. -/
theorem infix_of_mem_segments {d : Delimiter} {expression : Text}
    (h : .placeholder d expression ∈ m.segments text) :
    d ∈ m.delimiters.members ∧ d.wrap expression <:+: text := by
  induction text using segments.induct m with
  | case1 => simp [segments_nil] at h
  | case2 c rest ih =>
      rw [segments_cons, List.mem_cons] at h
      rcases h with hFirst | hLater
      · rcases m.first_cases c rest with ⟨⟨front, hLiteral⟩, _⟩ | ⟨e, other, hHere, hMem, hText⟩
        · cases hFirst.trans hLiteral
        · obtain ⟨rfl, rfl⟩ : d = e ∧ expression = other := by simpa using hFirst.trans hHere
          exact ⟨hMem, hText ▸ (List.prefix_append _ _).isInfix⟩
      · obtain ⟨hMem, hInfix⟩ := ih hLater
        exact ⟨hMem, hInfix.trans (m.first_suffix c rest).isInfix⟩

/-- Nothing of a text is dropped: there is no escape string, or it is kept. -/
def Keeps (m : Markup) : Prop :=
  m.escape.marker = none ∨ m.escape.preserve = true

theorem Keeps.kept {m : Markup} (h : m.Keeps) {marker : Text}
    (hMarker : m.escape.marker = some marker) : m.escape.kept marker = marker := by
  rcases h with hOff | hPreserve
  · cases hOff.symm.trans hMarker
  · rw [Escape.kept, if_pos hPreserve]

/-- Where nothing is dropped, the front segment is the front of the text as it is written. -/
theorem first_written {m : Markup} (h : m.Keeps) (c : Char) (rest : Text) :
    (m.first c rest).1.written ++ (m.first c rest).2 = c :: rest := by
  rw [first_eq]
  cases hEscaped : m.escapedAt (c :: rest) with
  | some cut =>
      obtain ⟨marker, after, hMarker, hText⟩ := eq_append_of_escapedAt hEscaped
      rw [hText] at hEscaped ⊢
      cases hMatch : m.delimiters.longestMatch after with
      | some d =>
          obtain rfl := Option.some.inj ((escapedAt_of_match hMarker hMatch).symm.trans hEscaped)
          obtain ⟨back, rfl⟩ := DelimiterSet.opening_prefix_of_longestMatch hMatch
          rw [Option.getD_some, h.kept hMarker, List.drop_left]
          exact List.append_assoc marker d.opening back
      | none =>
          obtain rfl := Option.some.inj ((escapedAt_of_no_match hMarker hMatch).symm.trans hEscaped)
          rw [Option.getD_some, Segment.written, List.append_assoc, List.take_append_drop]
  | none =>
      rw [Option.getD_none, firstUnescaped_eq]
      cases hFound : m.placeholderAt (c :: rest) with
      | none => rfl
      | some found =>
          obtain ⟨d, expression, after⟩ := found
          exact (eq_of_placeholderAt hFound).1.symm

theorem flatMap_written_segments {m : Markup} (h : m.Keeps) (text : Text) :
    (m.segments text).flatMap Segment.written = text := by
  induction text using segments.induct m with
  | case1 =>
      rw [segments_nil]
      rfl
  | case2 c rest ih => rw [segments_cons, List.flatMap_cons, ih, first_written h]

end Markup

end Placeholder
