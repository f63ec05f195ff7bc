import Placeholder.Proofs.Filter.Agreement
import Placeholder.Proofs.Filter.Causality
import Placeholder.Proofs.Session.Remembering
/-!
How long an expression may be. A filter looks at a window that holds the longest tokens, an escape
string and a longest expression; what the tokens in front of it do not take up is left to the
expression. The limit that is set is met exactly where the tokens are the longest and nothing can be
escaped, and otherwise longer expressions are recognised as well.
-/
namespace Placeholder

/-- The longest expression that is recognised between the tokens of `d`. -/
def FilterOptions.longest (options : FilterOptions) (markup : Markup) (d : Delimiter) : Nat :=
  options.maxExpression + (markup.escape.length +
    (markup.delimiters.maxOpening - d.opening.length) +
    (markup.delimiters.maxClosing - d.closing.length))

variable {options : FilterOptions} {markup : Markup} {text after expression : Text} {d : Delimiter}
  {stop : Option Failure}

/-- What lies within reach is no longer than that, and lines end where they may. -/
theorem FilterOptions.recognises_iff (h : d ∈ markup.delimiters.members)
    (hLine : options.multiLine = true ∨ '\n' ∉ expression ++ d.closing) :
    (options.rules markup).recognises d expression = true ↔
      expression.length ≤ options.longest markup d := by
  have hOpening := DelimiterSet.opening_length_le h
  have hClosing := DelimiterSet.closing_length_le h
  have hPos := d.opening_pos
  have hReach : (options.rules markup).reach = max (markup.escape.length +
      markup.delimiters.maxOpening + options.maxExpression + markup.delimiters.maxClosing)
      (markup.escape.length + 1) := rfl
  have hUnbroken : ((options.rules markup).multiLine ||
      !(expression ++ d.closing).contains '\n') = true := by
    rcases hLine with hMulti | hNone
    · exact Bool.or_eq_true_iff.mpr (.inl hMulti)
    · simpa using Or.inr hNone
  rw [FilterRules.recognises, hUnbroken, Bool.and_true, decide_eq_true_iff, hReach, longest]
  omega

/-- It is the limit that is set only where nothing can be escaped and the tokens are the longest. -/
theorem FilterOptions.longest_eq_iff (h : d ∈ markup.delimiters.members) :
    options.longest markup d = options.maxExpression ↔ markup.escape.length = 0 ∧
      d.opening.length = markup.delimiters.maxOpening ∧
      d.closing.length = markup.delimiters.maxClosing := by
  have hOpening := DelimiterSet.opening_length_le h
  have hClosing := DelimiterSet.closing_length_le h
  rw [longest]
  omega

namespace Sight

variable {multiLine : Bool} {cut : Option Failure} {window : Text}

/-- Where a body is followed at all, it is followed to its first closing token. -/
theorem followed_eq_track {closing seen : Text} {found : Option Text}
    (h : followed multiLine closing cut seen window = .ok found) :
    found = track multiLine closing seen window := by
  rw [← List.append_nil window, track_append]
  simp only [followed] at h
  cases hFollow : followWindow multiLine closing seen window with
  | none =>
      rw [hFollow] at h
      exact (Except.ok.inj h).symm
  | some result =>
      rw [hFollow] at h
      cases result with
      | inl body => exact (Except.ok.inj h).symm
      | inr further =>
          cases cut with
          | some failure => cases h
          | none => exact (Except.ok.inj h).symm

/-- Where no escape string stands, a window that shows something shows it as if nothing could be
escaped. -/
theorem shownUnescaped_of_shown {sight : Sight} (hSome : window ≠ [])
    (hEscaped : markup.escapedAt window = none) (h : shown markup multiLine cut window = .ok sight) :
    shownUnescaped markup multiLine cut window = .ok sight := by
  cases window with
  | nil => exact absurd rfl hSome
  | cons c rest =>
      rw [shown, shownFrom] at h
      split at h
      · exact h
      · rename_i marker hMarker
        split at h
        · obtain ⟨_, hShown⟩ := of_needing h
          have hAbsent := Markup.escapedAt_eq_none_iff.mp hEscaped marker hMarker
          rwa [if_neg (mt List.isPrefixOf_iff_prefix.mp hAbsent)] at hShown
        · exact h

end Sight

/-- What is seen at an opening token, where a closing token follows. -/
theorem FilterRules.shown_of_placeholderAt {rules : FilterRules} (hWide : rules.WideEnough)
    (hEscaped : rules.markup.escapedAt text = none)
    (hFound : rules.markup.placeholderAt text = some (d, expression, after)) {sight : Sight}
    (h : rules.shown text stop = .ok sight) :
    sight = if rules.recognises d expression then .placeholder (d.wrap expression) expression
      else .literal (text.take 1) := by
  obtain ⟨hText, hMatch, _⟩ := Markup.eq_of_placeholderAt hFound
  have hMem := DelimiterSet.mem_of_longestMatch hMatch
  have hTokens := hWide.tokens
  have hBeyond := hWide.beyond
  have hOpening := DelimiterSet.opening_length_le hMem
  have hPos := d.opening_pos
  have hSome : text.take rules.reach ≠ [] := by
    have hPrefix := DelimiterSet.opening_prefix_of_longestMatch hMatch
    have hLength := hPrefix.length_le
    rw [ne_eq, List.take_eq_nil_iff, ← List.length_eq_zero_iff]
    omega
  -- An escape string in the window would be one at the front of the text.
  have hWindow : rules.markup.escapedAt (text.take rules.reach) = none := by
    refine Markup.escapedAt_eq_none_iff.mpr fun marker hMarker hPrefix => ?_
    exact Markup.escapedAt_eq_none_iff.mp hEscaped marker hMarker
      (hPrefix.trans (List.take_prefix _ _))
  obtain ⟨_, hMatched⟩ := Sight.of_needing (Sight.shownUnescaped_of_shown hSome hWindow h)
  rw [DelimiterSet.longestMatch_window (.inl (by omega)), hMatch] at hMatched
  have hTrack := Sight.track_window hMatch (by omega)
  simp only [Sight.shownOpening] at hMatched
  split at hMatched
  · cases hMatched
  · rename_i hFollowed
    rw [← Sight.followed_eq_track hFollowed, placeholderAt, hFound, Option.filter_some] at hTrack
    split at hTrack
    · cases hTrack
    · rename_i hLong
      rw [if_neg hLong, ← Except.ok.inj hMatched, List.take_take, Nat.min_eq_left (by omega)]
  · rename_i body hFollowed
    rw [← Sight.followed_eq_track hFollowed, placeholderAt, hFound, Option.filter_some] at hTrack
    split at hTrack
    · rename_i hShort
      obtain rfl : body = (expression ++ d.closing).reverse := Option.some.inj hTrack
      rw [if_pos hShort, ← Except.ok.inj hMatched, Sight.reverse_drop_body, List.reverse_reverse,
        Delimiter.wrap, List.append_assoc]
    · cases hTrack

namespace FilterStream

variable {f g : FilterStream}

theorem multiLine_of_reaches {segments : List Text} (hReach : 0 < f.reach)
    (h : f.Reaches segments g) : g.multiLine = f.multiLine := by
  induction h with
  | start => rfl
  | handOut _ _ ih => exact ih
  | scan hReaches hPending hEnded hScan ih =>
      rename_i segments g after
      have hScanned := g.scanned ((hReaches.followed hReach).reach ▸ hReach)
      rw [hScan] at hScanned
      cases hScanned <;> exact ih

/-- The input fails before the filter can decide. -/
def Breaks (f : FilterStream) (stop : Option Failure) : Prop :=
  ∃ failure, stop = some failure ∧ f.decision = some (.error failure, f.session)

/-- What a filter decides at a placeholder that may be this long. -/
structure Limits (f : FilterStream) (text : Text) (stop : Option Failure) (d : Delimiter)
    (expression : Text) (limit : Nat) : Prop where
  /-- An expression that is not longer is handed to the expander, and its answer takes the place of the
  whole placeholder. -/
  handed : expression.length ≤ limit → f.Breaks stop ∨
    f.decision = (f.expander.resolve f.session expression).map fun resolved =>
      (resolved.1.map fun value =>
        .replace (value.getD (d.wrap expression)) (d.wrap expression).length, resolved.2)
  /-- Of a longer one the first character passes as it is, and nothing is asked. -/
  passed : limit < expression.length → f.Breaks stop ∨
    f.decision = some (.ok (.pass (text.take 1)), f.session)

/-- A filter in front of an opening token that is not escaped and has its closing token behind it: what
decides is the length of the expression, measured by all that the window has room for. -/
theorem limits_of_reaches {options : FilterOptions} {markup : Markup} {x : Expander} {s : Session}
    {reader : TextReader} {segments : List Text} (hMarkup : options.markup = .ok markup)
    (hFits : options.lookahead markup < pow2 64) (hMake : make options x s reader = .ok f)
    (hReaches : f.Reaches segments g) (hPending : g.pending = []) (hEnded : g.ended = false)
    (hCourse : g.input.reader.Course text stop) (hEscaped : markup.escapedAt text = none)
    (hFound : markup.placeholderAt text = some (d, expression, after))
    (hLine : options.multiLine = true ∨ '\n' ∉ expression ++ d.closing) :
    g.Limits text stop d expression (options.longest markup d) := by
  have hReach := reach_of_make hMake
  have hFollowed := hReaches.followed hReach
  have hMultiLine := multiLine_of_reaches hReach hReaches
  obtain ⟨other, hOther, hParts⟩ := eq_of_make hMake
  obtain rfl := Except.ok.inj
    ((options.measured_eq_ok_iff.mpr ⟨hMarkup, hFits⟩).symm.trans hOther)
  have hRules : g.rules = options.rules markup := by
    rw [rules, hFollowed.expander, hFollowed.reach, hMultiLine, hParts]
    rfl
  have hFaces : g.Faces text stop :=
    ⟨hCourse, hFollowed.reach ▸ hReach, hPending, hEnded, by rw [hFollowed.poisoned, hParts]⟩
  have hDecision : g.decision = g.judgedOn ((options.rules markup).shown text stop) := by
    rw [hFaces.decision, judged, hRules]
  have hMem := DelimiterSet.mem_of_longestMatch (Markup.eq_of_placeholderAt hFound).2.1
  have hRecognises := FilterOptions.recognises_iff hMem hLine
  cases hShown : (options.rules markup).shown text stop with
  | error failure =>
      rw [hShown] at hDecision
      have hBreaks : g.Breaks stop := ⟨failure, FilterRules.stop_of_error hShown, hDecision⟩
      exact ⟨fun _ => .inl hBreaks, fun _ => .inl hBreaks⟩
  | ok sight =>
      have hWide := options.wideEnough markup
      have hSight := FilterRules.shown_of_placeholderAt hWide hEscaped hFound hShown
      rw [hShown, hSight] at hDecision
      constructor
      · intro hShort
        rw [if_pos (hRecognises.mpr hShort)] at hDecision
        exact .inr hDecision
      · intro hLong
        rw [if_neg (fun hHere => absurd (hRecognises.mp hHere) (Nat.not_le_of_lt hLong))] at hDecision
        exact .inr hDecision

/-- Beside the longer token `$` and brace, one more character has room between two `@`. -/
theorem limits_of_reaches_slack :
    let options : FilterOptions := { FilterOptions.standard with maxExpression := 3 }
    let x : Expander := ⟨[.single ['a', 'b', 'c', 'd'] ['V']], [], .standard, true, false⟩
    let text : Text := ['@', 'a', 'b', 'c', 'd', '@']
    ∃ f : FilterStream,
      make options x (.fresh .empty) (.ofFeed (.ofBytes (Utf8.encodeText text))) = .ok f ∧
      f.Limits text none .atSign ['a', 'b', 'c', 'd'] 4 := by
  intro options x text
  have hGives := TextReader.gives_text text
  obtain ⟨f, hMake⟩ : ∃ f, make options x (.fresh .empty)
      (.ofFeed (.ofBytes (Utf8.encodeText text))) = .ok f := ⟨_, rfl⟩
  have hFaces := faces_of_make hGives.course hMake
  have hMarkup : options.markup = .ok .standard := rfl
  have hFound : Markup.standard.placeholderAt text = some (.atSign, ['a', 'b', 'c', 'd'], []) := rfl
  exact ⟨f, hMake, limits_of_reaches hMarkup (by decide) hMake .start hFaces.drained hFaces.goesOn
    hFaces.course rfl hFound (.inr (by decide))⟩

/-- An expression of four characters is handed to the sources, although three is the limit that is
set. -/
theorem longer_expression_recognised :
    let options : FilterOptions := { FilterOptions.standard with maxExpression := 3 }
    let x : Expander := ⟨[.single ['a', 'b', 'c', 'd'] ['V']], [], .standard, true, false⟩
    options.maxExpression < ['a', 'b', 'c', 'd'].length ∧
      ∃ after, filterText options x (.fresh .empty) ['@', 'a', 'b', 'c', 'd', '@'] =
          some (.ok ['V'], after) ∧
        .asked 0 ['a', 'b', 'c', 'd'] ∈ after.events := by
  intro options x
  have hCut : (options.rules .standard).cut ['@', 'a', 'b', 'c', 'd', '@'] =
      [.placeholder .atSign ['a', 'b', 'c', 'd']] := by
    with_unfolding_all rfl
  have hValue : x.valueSegments ['V'] = [.literal ['V']] := by
    with_unfolding_all rfl
  have hAsk : x.ask ['a', 'b', 'c', 'd'] = (.ok (some ['V']), [.asked 0 ['a', 'b', 'c', 'd']]) := rfl
  obtain ⟨inner, hExpansion, hResult, hAsked⟩ : ∃ inner,
      x.resolveIn .empty ['a', 'b', 'c', 'd'] = some inner ∧ inner.result = .ok (some ['V']) ∧
        .asked 0 ['a', 'b', 'c', 'd'] ∈ inner.events := by
    rw [Expander.resolveIn]
    simp only [hAsk, hValue]
    rw [Expander.expandIn, Expander.expandIn]
    exact ⟨_, rfl, rfl, by decide⟩
  obtain ⟨after, hResolve, hEvents⟩ :=
    x.resolve_of_resolveIn (s := (Session.fresh .empty).onEmptyChain) rfl rfl hExpansion hResult
  refine ⟨by decide, after, filterText_of_cut rfl (by decide) hCut hResolve, ?_⟩
  rw [hEvents]
  exact hAsked

end FilterStream

end Placeholder
