import Placeholder.Proofs.Filter.Pieces
import Placeholder.Proofs.Session.Remembering
/-!
Lines are filtered one by one. Where an expression may not span lines and no line ends inside an
opening token or the escape string, a filter never looks across the end of a line to decide what stands
in front of it, so a text is filtered by filtering its lines in turn.
-/
namespace Placeholder

/-- No line ends inside an opening token or the escape string. Closing tokens may hold line ends. -/
structure Markup.OpensInLine (m : Markup) : Prop where
  opening : ∀ d ∈ m.delimiters.members, '\n' ∉ d.opening
  marker : ∀ marker, m.escape.marker = some marker → '\n' ∉ marker

/-- A token without line ends does not reach behind one. -/
theorem Text.prefix_append_iff_of_line {token window : Text} (hToken : '\n' ∉ token)
    (hLine : '\n' ∈ window) (back : Text) : token <+: window ++ back ↔ token <+: window := by
  refine ⟨fun hLong => ?_, fun hHere => hHere.trans (List.prefix_append window back)⟩
  rcases List.prefix_or_prefix_of_prefix hLong (List.prefix_append window back) with hHere | hOver
  · exact hHere
  · exact absurd (hOver.subset hLine) hToken

namespace Sight

variable {markup : Markup} {closing window : Text}

/-- A body breaks off at the end of a line. -/
theorem followWindow_of_line (hLine : '\n' ∈ window) (seen back : Text) :
    followWindow false closing seen (window ++ back) = followWindow false closing seen window := by
  induction window generalizing seen with
  | nil => cases hLine
  | cons c window ih =>
      rw [List.cons_append, followWindow, followWindow]
      cases hJudge : judge false closing seen c with
      | broken => rfl
      | closed => rfl
      | further =>
          have hOther : c ≠ '\n' := by
            rintro rfl
            cases hJudge
          exact ih ((List.mem_cons.mp hLine).resolve_left fun hSame => hOther hSame.symm) (c :: seen)

theorem longestMatch_of_line {set : DelimiterSet} (h : ∀ d ∈ set.members, '\n' ∉ d.opening)
    (hLine : '\n' ∈ window) (back : Text) :
    set.longestMatch (window ++ back) = set.longestMatch window :=
  DelimiterSet.longestMatch_congr fun d hMem => Text.prefix_append_iff_of_line (h d hMem) hLine back

/-- Behind a token without line ends the line still ends. -/
theorem mem_drop_of_line {token : Text} (hToken : '\n' ∉ token) (hLine : '\n' ∈ window)
    (hHere : token <+: window) : '\n' ∈ window.drop token.length := by
  obtain ⟨rest, rfl⟩ := hHere
  rw [List.drop_left]
  exact (List.mem_append.mp hLine).resolve_left hToken

theorem shownUnescaped_of_line (h : markup.OpensInLine) (hLine : '\n' ∈ window) (back : Text) :
    shownUnescaped markup false none (window ++ back) = shownUnescaped markup false none window := by
  have hSome := List.length_pos_of_mem hLine
  rw [shownUnescaped, shownUnescaped, needing_none, needing_none,
    longestMatch_of_line h.opening hLine back, List.take_append_of_le_length hSome]
  cases hMatch : markup.delimiters.longestMatch window with
  | none => rfl
  | some d =>
      have hHere := DelimiterSet.opening_prefix_of_longestMatch hMatch
      have hBody := mem_drop_of_line (h.opening d (DelimiterSet.mem_of_longestMatch hMatch)) hLine hHere
      simp only [shownOpening, followed, List.drop_append_of_le_length hHere.length_le,
        followWindow_of_line hBody, List.take_append_of_le_length hSome]

theorem shownEscaped_of_line (h : markup.OpensInLine) {marker : Text}
    (hMarker : markup.escape.marker = some marker) (hLine : '\n' ∈ window)
    (hHere : marker <+: window) (back : Text) :
    shownEscaped markup marker none (window ++ back) = shownEscaped markup marker none window := by
  have hBehind := mem_drop_of_line (h.marker marker hMarker) hLine hHere
  have hLength := List.length_pos_of_mem hBehind
  rw [List.length_drop] at hLength
  rw [shownEscaped, shownEscaped, needing_none, needing_none,
    List.drop_append_of_le_length hHere.length_le, longestMatch_of_line h.opening hBehind back,
    List.take_append_of_le_length (by omega)]

/-- What a window shows in which a line ends does not depend on what comes behind. -/
theorem shown_of_line (h : markup.OpensInLine) (hLine : '\n' ∈ window) (back : Text) :
    shown markup false none (window ++ back) = shown markup false none window := by
  cases window with
  | nil => cases hLine
  | cons c rest =>
      have hUnescaped := shownUnescaped_of_line h hLine back
      rw [List.cons_append, shown, shown, shownFrom, shownFrom, ← List.cons_append]
      cases hMarker : markup.escape.marker with
      | none => exact hUnescaped
      | some marker =>
          have hPrefix : marker.isPrefixOf (c :: rest ++ back) = marker.isPrefixOf (c :: rest) := by
            rw [Bool.eq_iff_iff, List.isPrefixOf_iff_prefix, List.isPrefixOf_iff_prefix]
            exact Text.prefix_append_iff_of_line (h.marker marker hMarker) hLine back
          simp only [needing_none, hPrefix, hUnescaped]
          by_cases hHere : marker.isPrefixOf (c :: rest) = true
          · rw [if_pos hHere, if_pos hHere,
              shownEscaped_of_line h hMarker hLine (List.isPrefixOf_iff_prefix.mp hHere) back]
          · rw [if_neg hHere, if_neg hHere]

end Sight

namespace FilterRules

variable {rules : FilterRules}

/-- What stands in front of the end of a line does not depend on the next line. -/
theorem shown_line (h : rules.markup.OpensInLine) (hSingle : rules.multiLine = false)
    (front back : Text) :
    rules.shown (front ++ '\n' :: back) none = rules.shown (front ++ ['\n']) none := by
  have hSplit : front ++ '\n' :: back = (front ++ ['\n']) ++ back := by simp
  rw [shown_none, shown_none, hSingle, hSplit, List.take_append]
  -- The window holds the line with its end, or it ends before and never shows the next line.
  by_cases hWhole : (front ++ ['\n']).length ≤ rules.reach
  · rw [List.take_of_length_le hWhole]
    exact Sight.shown_of_line h (by simp) _
  · rw [Nat.sub_eq_zero_of_le (by omega), List.take_zero, List.append_nil]

/-- The segments of a text are those of its lines. -/
theorem pieces_line (rules : FilterRules) (h : rules.markup.OpensInLine)
    (hSingle : rules.multiLine = false) (hReach : 0 < rules.reach) (front back : Text) :
    rules.pieces (front ++ '\n' :: back) none =
      rules.pieces (front ++ ['\n']) none ++ rules.pieces back none := by
  induction hLeft : front.length using Nat.strongRecOn generalizing front with
  | ind n ih =>
      subst hLeft
      have hSame := rules.shown_line h hSingle front back
      cases hShown : rules.shown (front ++ ['\n']) none with
      | error failure => cases stop_of_error hShown
      | ok sight =>
          have hGoesOn : sight ≠ .ended := by
            rintro rfl
            exact absurd (stop_of_ended hReach hShown).1 (by simp)
          have hPos := (Sight.seen_of_shown hShown).extent_pos hGoesOn
          have hFits := extent_of_shown hShown
          rw [hShown] at hSame
          rw [pieces_of_shown hSame hGoesOn, pieces_of_shown hShown hGoesOn, List.append_assoc]
          congr 1
          simp only [List.length_take, List.length_append, List.length_singleton] at hFits
          by_cases hInside : sight.extent ≤ front.length
          · rw [List.drop_append_of_le_length hInside, List.drop_append_of_le_length hInside]
            exact ih _ (by rw [List.length_drop]; omega) _ rfl
          · -- The line is used up with its end.
            have hAll : sight.extent = (front ++ ['\n']).length := by
              rw [List.length_append, List.length_singleton]
              omega
            have hSplit : front ++ '\n' :: back = (front ++ ['\n']) ++ back := by simp
            rw [hAll, List.drop_length, hSplit, List.drop_left, pieces_nil, List.nil_append]

end FilterRules

/-- What comes of two texts in turn: both outputs, or the failure of the first that fails. -/
def inTurn (first second : Option (Except Failure Text)) : Option (Except Failure Text) :=
  match first with
  | none => none
  | some (.error failure) => some (.error failure)
  | some (.ok text) => second.map (Except.map (text ++ ·))

theorem inTurn_map (front : Text) (first second : Option (Except Failure Text)) :
    inTurn (first.map (Except.map (front ++ ·))) second =
      (inTurn first second).map (Except.map (front ++ ·)) := by
  cases first with
  | none => rfl
  | some first =>
      cases first with
      | error failure => rfl
      | ok text =>
          cases second with
          | none => rfl
          | some second => cases second <;> simp [inTurn, Except.map]

/-- On one chain, segments are put together in turn. -/
theorem Expander.fillOn_append (x : Expander) (chain : Chain) (front back : List Segment) :
    x.fillOn chain (front ++ back) = inTurn (x.fillOn chain front) (x.fillOn chain back) := by
  induction front with
  | nil =>
      rw [List.nil_append, fillOn, inTurn]
      cases x.fillOn chain back with
      | none => rfl
      | some filled => cases filled <;> rfl
  | cons segment front ih =>
      rw [List.cons_append]
      cases segment with
      | literal text => rw [fillOn, fillOn, ih, inTurn_map]
      | placeholder d expression =>
          rw [fillOn, fillOn]
          cases x.answerOn chain expression with
          | none => rfl
          | some answer =>
              cases answer with
              | error failure => rfl
              | ok value => simp only [ih, inTurn_map]

/-- What a filter makes of a text when nothing was asked before. -/
def filtered (options : FilterOptions) (x : Expander) (text : Text) : Option (Except Failure Text) :=
  (filterText options x (.fresh .empty) text).map Prod.fst

/-- Filtering a text puts together its segments. What was answered on the way makes no difference. -/
theorem filtered_eq_fillOn {options : FilterOptions} {markup : Markup}
    (hMeasured : options.measured = .ok markup) (x : Expander) (text : Text) :
    filtered options x text = ({ x with markup := markup } : Expander).fillOn .empty
      ((options.rules markup).pieces text none) := by
  rw [filtered, FilterStream.filterText_eq_fillSegments hMeasured]
  have hFaithful := Expander.faithful_empty { x with markup := markup } []
  exact (hFaithful.fillSegments (s := (Session.fresh .empty).onEmptyChain) _).map_fst

/-- Lines are filtered in turn. Where an expression may not span lines, a text in whose middle a line
ends is filtered as the part up to that end and the part behind it are, one after the other, each with
nothing asked before. -/
theorem filtered_line {options : FilterOptions} (hSingle : options.multiLine = false)
    (hWithin : ∀ markup, options.markup = .ok markup → markup.OpensInLine) (x : Expander)
    (front back : Text) :
    filtered options x (front ++ '\n' :: back) =
      inTurn (filtered options x (front ++ ['\n'])) (filtered options x back) := by
  cases hMeasured : options.measured with
  | error failure =>
      have hFails : ∀ text, filtered options x text = some (.error failure) := by
        intro text
        simp only [filtered, filterText, FilterStream.make, hMeasured]
        rfl
      rw [hFails, hFails, hFails, inTurn]
  | ok markup =>
      obtain ⟨hMarkup, _⟩ := FilterOptions.measured_eq_ok_iff.mp hMeasured
      have hLines := FilterRules.pieces_line (options.rules markup) (hWithin markup hMarkup) hSingle
        (options.reach_pos markup) front back
      rw [filtered_eq_fillOn hMeasured, filtered_eq_fillOn hMeasured, filtered_eq_fillOn hMeasured,
        hLines, Expander.fillOn_append]

/-- A token that is cut by the end of a line, behind an escape string, with a closing token that holds
one. -/
theorem filtered_line_cut_token :
    let options : FilterOptions := { FilterOptions.standard with
      delimiters := [['<', '*', '\n', '>'], ['@']]
      escapeString := some ['!'] }
    let x : Expander := ⟨[.single ['a'] ['1']], [], .standard, true, false⟩
    filtered options x (['!', '@', '<', 'a', '@'] ++ '\n' :: ['>', '@', 'a', '@']) =
      inTurn (filtered options x (['!', '@', '<', 'a', '@'] ++ ['\n']))
        (filtered options x ['>', '@', 'a', '@']) := by
  intro options x
  apply filtered_line rfl
  intro markup hMarkup
  obtain rfl := Except.ok.inj hMarkup
  constructor
  · decide
  · rintro marker hMarker
    obtain rfl := Option.some.inj hMarker
    decide

end Placeholder
