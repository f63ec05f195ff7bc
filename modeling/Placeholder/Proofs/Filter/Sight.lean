import Placeholder.Proofs.Filter.Body
import Placeholder.Proofs.Filter.Rendering
/-!
What a filter sees is what stands there. A window that is wide enough for the escape string and an
opening token shows the segment at the front of the text, although the filter looks at no more
characters than it needs and may take a segment in two steps.
-/
namespace Placeholder

/-- The window holds an escape string with an opening token behind it, and a character behind an
escape string. -/
structure FilterRules.WideEnough (rules : FilterRules) : Prop where
  tokens : rules.markup.escape.length + rules.markup.delimiters.maxOpening ≤ rules.reach
  beyond : rules.markup.escape.length < rules.reach

theorem FilterOptions.wideEnough (options : FilterOptions) (markup : Markup) :
    (options.rules markup).WideEnough := by
  constructor <;> simp only [rules, reach, lookahead] <;> omega

namespace Sight

/-- How many characters of the input it covers. -/
def extent : Sight → Nat
  | ended => 0
  | literal text => text.length
  | escaped _ consumed => consumed
  | placeholder token _ => token.length

/-- What is seen at the front of a text is right: passing it on leaves the output as it is. -/
inductive Fits (rules : FilterRules) (text : Text) : Sight → Prop
  | ended (hEnd : text = []) : Fits rules text ended
  | literal {front rest : Text} (hText : text = front ++ rest) (hFront : front ≠ [])
      (hRest : ∀ (x : Expander) (s : Session),
        x.render s (rules.cut text) = (x.render s (rules.cut rest)).behind front) :
      Fits rules text (literal front)
  | escaped {front : Text} {consumed : Nat} (hSome : 0 < consumed)
      (hCut : rules.cut text = .literal front :: rules.cut (text.drop consumed)) :
      Fits rules text (escaped front consumed)
  | placeholder {d : Delimiter} {expression rest : Text}
      (hEscaped : rules.markup.escapedAt text = none)
      (hFound : rules.placeholderAt text = some (d, expression, rest)) :
      Fits rules text (placeholder (d.wrap expression) expression)

variable {rules : FilterRules} {l : Lookahead} {text : Text}

/-- The body that is followed within the window is the one of the placeholder at the front. -/
theorem track_window {d : Delimiter} (hMatch : rules.markup.delimiters.longestMatch text = some d)
    (hOpening : d.opening.length ≤ rules.reach) :
    track rules.multiLine d.closing [] ((text.take rules.reach).drop d.opening.length) =
      (rules.placeholderAt text).map fun found => (found.2.1 ++ d.closing).reverse := by
  have hSeen : ∀ b a : Text, ([] : Text).reverse ≠ b ++ d.closing ++ a := by
    intro b a hEq
    exact d.closing_ne_nil
      (List.append_eq_nil_iff.mp (List.append_eq_nil_iff.mp hEq.symm).1).2
  rw [track_eq_breakOn d.closing_ne_nil _ [] hSeen (Or.inr (List.not_mem_nil)), List.reverse_nil,
    List.nil_append, List.drop_take, Text.breakOn_take d.closing_ne_nil, FilterRules.placeholderAt,
    Markup.placeholderAt]
  simp only [hMatch]
  cases Text.breakOn d.closing (text.drop d.opening.length) with
  | none => rfl
  | some cut =>
      obtain ⟨expression, rest⟩ := cut
      by_cases hFits : expression.length + d.closing.length ≤ rules.reach - d.opening.length
      · have hReach : d.opening.length + expression.length + d.closing.length ≤ rules.reach := by
          omega
        simp only [Option.bind_some, if_pos hFits, Option.map_some, Option.filter_some,
          FilterRules.recognises, decide_eq_true hReach, Bool.true_and]
        split <;> rfl
      · have hReach : ¬ d.opening.length + expression.length + d.closing.length ≤ rules.reach := by
          omega
        simp only [Option.bind_some, if_neg hFits, Option.map_some, Option.filter_some,
          FilterRules.recognises, decide_eq_false hReach, Bool.false_and]
        rfl

/-- A look from the front of `text` fails nowhere; what it sees is right and lies in the window. -/
def Shows (rules : FilterRules) (text : Text) (look : Except Failure Sight × Lookahead) : Prop :=
  ∃ (sight : Sight) (after : Lookahead) (shown : Nat), look = (.ok sight, after) ∧
    after.At text shown ∧ after.limit = rules.reach ∧ Fits rules text sight ∧
    sight.extent ≤ (text.take rules.reach).length

/-- Where neither an escape string nor a placeholder is, passing one character is right. -/
theorem shows_single {shown : Nat} {window : Text} (h : l.At text shown)
    (hLimit : l.limit = rules.reach) (hWindow : window = text.take window.length)
    (hSome : 0 < window.length) (hReach : 0 < rules.reach)
    (hEscaped : rules.markup.escapedAt text = none) (hNone : rules.placeholderAt text = none) :
    Shows rules text (.ok (.literal (window.take 1)), l) := by
  rw [hWindow, List.take_take, Nat.min_eq_left hSome]
  cases text with
  | nil => rw [List.take_nil] at hWindow; simp [hWindow] at hSome
  | cons c rest =>
      refine ⟨_, _, _, rfl, h, hLimit, .literal rfl (List.cons_ne_nil _ _) fun x s => ?_, ?_⟩
      · rw [FilterRules.cut_of_neither hEscaped hNone]
        rfl
      · simp only [extent, List.length_take, List.length_cons]
        omega

theorem ofOpening_shows {shown : Nat} {d : Delimiter} (h : l.At text shown)
    (hLimit : l.limit = rules.reach) (hEscaped : rules.markup.escapedAt text = none)
    (hMatch : rules.markup.delimiters.longestMatch text = some d)
    (hShown : d.opening.length ≤ shown) :
    Shows rules text (ofOpening rules.multiLine d (text.take shown) l) := by
  have hReach := h.le_limit
  have hInText := h.inText
  have hSome := d.opening_pos
  obtain ⟨after, further, hFollow, hAt, hLimit'⟩ :=
    followBody_eq rules.multiLine d.closing h d.opening.length hShown
  rw [ofOpening, hFollow, Lookahead.window, hLimit, track_window hMatch (by omega)]
  cases hFound : rules.placeholderAt text with
  | none =>
      refine shows_single hAt (hLimit'.trans hLimit) ?_ ?_ (by omega) hEscaped hFound
      · rw [List.length_take, Nat.min_eq_left hInText]
      · rw [List.length_take, Nat.min_eq_left hInText]
        omega
  | some found =>
      obtain ⟨e, expression, rest⟩ := found
      obtain ⟨hHere, hText, hRecognised⟩ := FilterRules.eq_of_placeholderAt hFound
      obtain rfl : d = e := Option.some.inj (hMatch.symm.trans (Markup.eq_of_placeholderAt hHere).2.1)
      have hToken : d.opening ++ ((expression ++ d.closing).reverse).reverse = d.wrap expression := by
        rw [List.reverse_reverse, Delimiter.wrap, List.append_assoc]
      refine ⟨.placeholder (d.wrap expression) expression, after, further, ?_, hAt,
        hLimit'.trans hLimit, .placeholder hEscaped hFound, ?_⟩
      · simp only [Option.map_some, hToken, reverse_drop_body]
      · simp only [FilterRules.recognises, Bool.and_eq_true, decide_eq_true_eq] at hRecognised
        have hWhole := congrArg List.length hText
        simp only [Delimiter.wrap, List.length_append] at hWhole
        simp only [extent, Delimiter.wrap, List.length_append, List.length_take]
        omega

theorem ofUnescaped_shows {taken : Nat} (h : l.At text taken) (hLimit : l.limit = rules.reach)
    (hWide : rules.WideEnough) (hTaken : 0 < taken)
    (hEscaped : rules.markup.escapedAt text = none) :
    Shows rules text (ofUnescaped rules.markup rules.multiLine (text.take taken) l) := by
  have hTokens := hWide.tokens
  have hReach := h.le_limit
  have hInText := h.inText
  obtain ⟨after, shown, hFill, hAt, hLimit', hShown⟩ :=
    h.fill rules.markup.delimiters.maxOpening
  have hLength : (text.take shown).length = shown := by
    rw [List.length_take, Nat.min_eq_left hAt.inText]
  simp only [ofUnescaped, hFill]
  rw [DelimiterSet.longestMatch_window (by omega)]
  cases hMatch : rules.markup.delimiters.longestMatch text with
  | none =>
      refine shows_single hAt (hLimit'.trans hLimit) (by rw [hLength]) (by omega) (by omega)
        hEscaped ?_
      simp only [FilterRules.placeholderAt, Markup.placeholderAt, hMatch, Option.filter_none]
  | some d =>
      -- The window showed the opening token, so it holds all of it.
      have hOpens := DelimiterSet.opening_prefix_of_longestMatch
        ((DelimiterSet.longestMatch_window (n := shown) (by omega)).trans hMatch)
      exact ofOpening_shows hAt (hLimit'.trans hLimit) hEscaped hMatch
        (hLength ▸ hOpens.length_le)

/-- An escape string that no opening token follows passes with the character after it. Without
delimiters the window does not reach that character, but then the whole text passes. -/
theorem fits_marker {n : Nat} {marker back : Text}
    (hMarker : rules.markup.escape.marker = some marker) (hText : text = marker ++ back)
    (hMatch : rules.markup.delimiters.longestMatch back = none) (hShown : marker.length ≤ n)
    (hEnough : marker.length < n ∨ back = [] ∨ rules.markup.delimiters.maxOpening = 0) :
    Fits rules text (.literal ((text.take n).take (marker.length + 1))) := by
  have hPos := Escape.marker_pos hMarker
  have hFront : (text.take n).take (marker.length + 1) =
      marker ++ back.take (min (marker.length + 1) n - marker.length) := by
    rw [List.take_take, hText, List.take_append, List.take_of_length_le (by omega)]
  have hWhole : text = marker ++ back.take (min (marker.length + 1) n - marker.length) ++
      back.drop (min (marker.length + 1) n - marker.length) := by
    rw [hText, List.append_assoc, List.take_append_drop]
  rw [hFront]
  refine .literal hWhole ?_ fun x s => ?_
  · exact fun hNil => absurd (List.append_eq_nil_iff.mp hNil).1 (List.length_pos_iff.mp hPos)
  · have hCut := FilterRules.cut_of_escapedAt
      (hText ▸ Markup.escapedAt_of_no_match (m := rules.markup) hMarker hMatch)
    rcases hEnough with hLong | hEnd | hNone
    · have hOne : min (marker.length + 1) n - marker.length = 1 := by omega
      rw [hOne, hCut, Expander.render]
    · subst hEnd
      rw [hCut, Expander.render, List.take_nil, List.drop_nil, List.take_nil, List.drop_nil]
    · have hNever := DelimiterSet.longestMatch_of_maxOpening hNone
      rw [Expander.render_cut_of_no_match hNever, Expander.render_cut_of_no_match hNever,
        Rendering.behind, List.append_assoc, List.take_append_drop, hText]

theorem ofEscaped_shows {taken : Nat} {marker back : Text} (h : l.At text taken)
    (hLimit : l.limit = rules.reach) (hWide : rules.WideEnough)
    (hMarker : rules.markup.escape.marker = some marker) (hText : text = marker ++ back) :
    Shows rules text (ofEscaped rules.markup marker (text.take taken) l) := by
  have hTokens := hWide.tokens
  have hBeyond := hWide.beyond
  have hMarkerLength := Escape.length_of_marker hMarker
  have hTextLength : text.length = marker.length + back.length := by
    rw [hText, List.length_append]
  obtain ⟨after, shown, hFill, hAt, hLimit', hShown⟩ :=
    h.fill (marker.length + rules.markup.delimiters.maxOpening)
  have hBack : (text.take shown).drop marker.length = back.take (shown - marker.length) := by
    rw [List.drop_take, hText, List.drop_left]
  simp only [ofEscaped, hFill, hBack]
  rw [DelimiterSet.longestMatch_window (by omega)]
  cases hMatch : rules.markup.delimiters.longestMatch back with
  | some d =>
      have hPos := d.opening_pos
      have hOpens := (DelimiterSet.opening_prefix_of_longestMatch hMatch).length_le
      have hMax := DelimiterSet.opening_length_le (DelimiterSet.mem_of_longestMatch hMatch)
      refine ⟨_, after, shown, rfl, hAt, hLimit'.trans hLimit, .escaped (by omega) ?_, ?_⟩
      · rw [FilterRules.cut_of_escapedAt
          (hText ▸ Markup.escapedAt_of_match (m := rules.markup) hMarker hMatch), ← List.drop_drop,
          hText, List.drop_left]
      · simp only [extent, List.length_take]
        omega
  | none =>
      have hEnough : marker.length < shown ∨ back = [] ∨
          rules.markup.delimiters.maxOpening = 0 := by
        rw [← List.length_eq_zero_iff]
        omega
      refine ⟨_, after, shown, rfl, hAt, hLimit'.trans hLimit,
        fits_marker hMarker hText hMatch (by omega) hEnough, ?_⟩
      have hReach := hAt.le_limit
      simp only [extent, List.length_take]
      omega

theorem ofWindow_shows {taken : Nat} {c : Char} {rest : Text} (h : l.At (c :: rest) taken)
    (hLimit : l.limit = rules.reach) (hWide : rules.WideEnough) (hTaken : 0 < taken) :
    Shows rules (c :: rest)
      (ofWindow rules.markup rules.multiLine c ((c :: rest).take taken) l) := by
  have hBeyond := hWide.beyond
  cases hMarker : rules.markup.escape.marker with
  | none =>
      simp only [ofWindow, hMarker]
      exact ofUnescaped_shows h hLimit hWide hTaken (Markup.escapedAt_of_off hMarker _)
  | some marker =>
      have hMarkerLength := Escape.length_of_marker hMarker
      simp only [ofWindow, hMarker]
      by_cases hHead : marker.head? = some c
      · obtain ⟨after, shown, hFill, hAt, hLimit', hShown⟩ := h.fill marker.length
        rw [if_pos hHead, hFill]
        -- All of the escape string is shown, or the text is too short for it.
        have hSame : marker.isPrefixOf ((c :: rest).take shown) = true ↔ marker <+: c :: rest := by
          rw [List.isPrefixOf_iff_prefix, List.prefix_take_iff]
          refine ⟨fun hBoth => hBoth.1, fun hPrefix => ⟨hPrefix, ?_⟩⟩
          have hFits := hPrefix.length_le
          omega
        simp only []
        by_cases hThere : marker <+: c :: rest
        · obtain ⟨back, hBack⟩ := id hThere
          rw [if_pos (hSame.mpr hThere)]
          exact ofEscaped_shows hAt (hLimit'.trans hLimit) hWide hMarker hBack.symm
        · rw [if_neg fun hShows => hThere (hSame.mp hShows)]
          have hReach := h.le_limit
          have hInText := h.inText
          exact ofUnescaped_shows hAt (hLimit'.trans hLimit) hWide (by omega)
            (Markup.escapedAt_of_absent hMarker hThere)
      · rw [if_neg hHead]
        refine ofUnescaped_shows h hLimit hWide hTaken
          (Markup.escapedAt_of_absent hMarker fun hPrefix => hHead ?_)
        obtain ⟨back, hBack⟩ := hPrefix
        cases marker with
        | nil => exact absurd hMarker rules.markup.escape.marker_ne_nil
        | cons first marker => rw [List.head?_cons, (List.cons.inj hBack).1]

/-- What a filter sees from a mark is what stands there. -/
theorem ofInput_shows (h : l.At text 0) (hLimit : l.limit = rules.reach)
    (hWide : rules.WideEnough) :
    Shows rules text (ofInput rules.markup rules.multiLine l) := by
  have hBeyond := hWide.beyond
  obtain ⟨after, shown, hFill, hAt, hLimit', hShown⟩ := h.fill 1
  rw [List.take_zero] at hFill
  rw [ofInput, hFill]
  cases text with
  | nil =>
      rw [List.take_nil]
      exact ⟨.ended, after, shown, rfl, hAt, hLimit'.trans hLimit, .ended rfl, Nat.zero_le _⟩
  | cons c rest =>
      rw [List.length_cons] at hShown
      obtain rfl : shown = 1 := by omega
      exact ofWindow_shows hAt (hLimit'.trans hLimit) hWide (Nat.one_pos)

end Sight

end Placeholder
