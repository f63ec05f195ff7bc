import Placeholder.Proofs.Expansion.Rescanning
import Placeholder.Proofs.Filter.Pieces
/-!
Texts that are left alone. Where no opening token stands, all that a window can show is characters
that pass through; so the filter and the expander hand such a text on as it is, and ask for nothing.
-/
namespace Placeholder

namespace Sight

variable {markup : Markup} {window : Text}

theorem shownUnescaped_of_absent (h : markup.delimiters.Absent window) (multiLine : Bool) :
    shownUnescaped markup multiLine none window = .ok (.literal (window.take 1)) := by
  rw [shownUnescaped, needing_none, h.longestMatch]

/-- Behind an escape string nothing opens, so it is not dropped. -/
theorem shownEscaped_of_absent (h : markup.delimiters.Absent window) (marker : Text) :
    shownEscaped markup marker none window =
      .ok (.literal (window.take (marker.length + min 1 markup.delimiters.maxOpening))) := by
  have hBehind := h.part (List.drop_suffix marker.length window).isInfix
  rw [shownEscaped, needing_none, hBehind.longestMatch]

/-- A window without opening tokens shows characters that pass through. -/
theorem shown_of_absent {c : Char} {rest : Text} (h : markup.delimiters.Absent (c :: rest))
    (multiLine : Bool) :
    ∃ front, front <+: c :: rest ∧
      shown markup multiLine none (c :: rest) = .ok (.literal front) := by
  cases hEscaped : markup.escapedAt (c :: rest) with
  | none =>
      rw [shown_unescaped hEscaped, shownUnescaped_of_absent h]
      exact ⟨_, List.take_prefix _ _, rfl⟩
  | some cut =>
      obtain ⟨marker, after, hMarker, hWindow⟩ := Markup.eq_append_of_escapedAt hEscaped
      rw [hWindow] at h ⊢
      rw [shown_marker hMarker, shownEscaped_of_absent h]
      exact ⟨_, List.take_prefix _ _, rfl⟩

end Sight

namespace FilterRules

variable {rules : FilterRules} {text : Text}

/-- However narrow the window is, it shows some of the text. -/
theorem shown_of_absent {c : Char} {rest : Text} (hReach : 0 < rules.reach)
    (h : rules.markup.delimiters.Absent (c :: rest)) :
    ∃ front, front <+: c :: rest ∧ rules.shown (c :: rest) none = .ok (.literal front) := by
  obtain ⟨width, hWidth⟩ := Nat.exists_eq_succ_of_ne_zero hReach.ne'
  have hWindow : (c :: rest).take rules.reach = c :: rest.take width := by
    rw [hWidth, List.take_succ_cons]
  have hPart := List.take_prefix rules.reach (c :: rest)
  rw [hWindow] at hPart
  obtain ⟨front, hFront, hShown⟩ := Sight.shown_of_absent (h.part hPart.isInfix) rules.multiLine
  exact ⟨front, hFront.trans hPart, by rw [shown_none, hWindow, hShown]⟩

/-- The pieces of a text without opening tokens are characters only, with any window. -/
theorem plain_pieces (hReach : 0 < rules.reach) (h : rules.markup.delimiters.Absent text) :
    Plain (rules.pieces text none) text := by
  induction hLeft : text.length using Nat.strongRecOn generalizing text with
  | ind n ih =>
      subst hLeft
      cases text with
      | nil =>
          rw [pieces_nil]
          exact .nil
      | cons c rest =>
          obtain ⟨front, ⟨back, hText⟩, hShown⟩ := shown_of_absent hReach h
          have hBack : (c :: rest).drop front.length = back := by rw [← hText, List.drop_left]
          have hLess := drop_length hShown (by simp)
          rw [Sight.extent, hBack] at hLess
          have hPlain := ih _ hLess (h.part ⟨front, [], by rw [List.append_nil, hText]⟩) rfl
          rw [pieces_of_shown hShown (by simp), Sight.extent, hBack, ← hText]
          exact hPlain.literal front

end FilterRules

/-- The expander and the filter leave the text as it is, with all sources, finishers, chains and
remembered answers and with all other switches: nothing is looked up, no frame is opened and no
circle is met. -/
structure Markup.LeavesAlone (m : Markup) (text : Text) : Prop where
  interpolated : ∀ (x : Expander) (s : Session), x.markup = m →
    x.interpolate s text = some (.ok text, s)
  filtered : ∀ (options : FilterOptions) (x : Expander) (s : Session), options.markup = .ok m →
    options.lookahead m < pow2 64 → filterText options x s text = some (.ok text, s.onEmptyChain)
  /-- A filter whose lookahead overflows gives nothing. -/
  overflowing : ∀ (options : FilterOptions) (x : Expander) (s : Session), options.markup = .ok m →
    pow2 64 ≤ options.lookahead m →
    filterText options x s text = some (.error .overflow, s.onEmptyChain)

/-- Nothing that looks for opening tokens finds one, so characters are all that there is. -/
theorem Markup.leavesAlone {m : Markup} {text : Text} (h : m.delimiters.Absent text) :
    m.LeavesAlone text where
  interpolated := by
    rintro x s rfl
    exact (plain_segments h).fillSegments x s
  filtered := by
    intro options x s hMarkup hFits
    rw [FilterStream.filterText_eq_fillSegments (options.measured_eq_ok_iff.mpr ⟨hMarkup, hFits⟩)]
    exact (FilterRules.plain_pieces (options.reach_pos m) h).fillSegments _ _
  overflowing := by
    intro options x s hMarkup hLong
    exact FilterStream.filterText_of_refused (options.measured_eq_overflow hMarkup hLong) x s text

/-- A text is tested for opening tokens by looking for them as parts of it, and it is read by
looking for them at the front of what is left. Both agree on what a text without them is, and such a
text is left alone, with every escape string in it, whether escape strings are preserved or not, by an
expander and by every filter whose lookahead does not overflow. So an expander that reads every
value for placeholders, whatever the test says, answers every question in the same way. -/
theorem untouched_without_openings (m : Markup) (text : Text) :
    (m.delimiters.opensIn text = false ↔ m.delimiters.Absent text) ∧
      (m.delimiters.Absent text → m.LeavesAlone text) ∧
      ∀ (x : Expander) (s : Session) (expression : Text),
        x.resolve s expression = x.rescan s expression :=
  ⟨DelimiterSet.opensIn_eq_false_iff, Markup.leavesAlone, Expander.resolve_eq_rescan⟩

/-- Escape strings that overlap, stand between the characters of an opening token and end the text,
with a source that would fail, in a window without room for any expression. -/
theorem untouched_overlapping_escapes :
    let options : FilterOptions := { FilterOptions.standard with
      escapeString := some ['!', '!']
      preserveEscape := true
      maxExpression := 0 }
    let m : Markup := ⟨.standard, ⟨some ['!', '!'], true, by decide⟩⟩
    let x : Expander := ⟨[.failing ['a'] ['n', 'o'], .constant ['@', 'a', '@']],
      [fun _ _ => some ['f']], m, true, true⟩
    let s : Session := ⟨⟨[['p', '.']], [['a']]⟩, .ofList [(['b'], ['c'])], [.asked 0 ['b']]⟩
    let text : Text := ['!', '!', '!', '$', '!', '!', '\x7b', 'a', '\x7d', '!', '!', '!']
    options.markup = .ok m ∧ m.delimiters.Absent text ∧
      x.interpolate s text = some (.ok text, s) ∧
      filterText options x s text = some (.ok text, s.onEmptyChain) ∧
      x.resolve s ['b'] = x.rescan s ['b'] := by
  intro options m x s text
  have hMarkup : options.markup = .ok m := rfl
  obtain ⟨hTest, hAlone, hRescan⟩ := untouched_without_openings m text
  have hAbsent : m.delimiters.Absent text := hTest.mp (by decide)
  exact ⟨hMarkup, hAbsent, (hAlone hAbsent).interpolated x s rfl,
    (hAlone hAbsent).filtered options x s hMarkup (by decide), hRescan x s ['b']⟩

/-- A text without opening tokens does not come out where the sum for the lookahead overflows. -/
theorem plain_text_lost_to_overflow :
    let options : FilterOptions := { FilterOptions.standard with
      escapeString := some ['!', '!']
      maxExpression := pow2 64 - 5 }
    let m : Markup := ⟨.standard, ⟨some ['!', '!'], false, by decide⟩⟩
    let x : Expander := ⟨[], [], .standard, true, false⟩
    options.markup = .ok m ∧ m.delimiters.Absent ['a', '!', '!'] ∧
      filterText options x (.fresh .empty) ['a', '!', '!'] =
        some (.error .overflow, .fresh .empty) := by
  intro options m x
  have hMarkup : options.markup = .ok m := rfl
  have hLong : pow2 64 ≤ options.lookahead m := by decide
  exact ⟨hMarkup, DelimiterSet.opensIn_eq_false_iff.mp (by decide),
    FilterStream.filterText_of_refused (options.measured_eq_overflow hMarkup hLong) x _ _⟩

end Placeholder
