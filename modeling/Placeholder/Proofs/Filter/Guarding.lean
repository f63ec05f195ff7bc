import Placeholder.Proofs.Filter.Pieces
import Placeholder.Proofs.Filter.Streaming
import Placeholder.Proofs.Markup.Guarding
/-!
The filter in front of a guarded text. A window that holds the escape string and an opening token
shows each of the escape strings at work, so what comes out is the text. The window of a filter is that
long; but there is no filter where the sum for its lookahead overflows.
-/
namespace Placeholder

open DelimiterSet

namespace FilterRules

variable {rules : FilterRules} {first : Char} {others text : Text}

/-- What is seen where no opening token stands in the text. -/
theorem shown_guarded (others : Text) {c : Char} {rest : Text}
    (h : rules.markup.Guards first others) (hReach : 0 < rules.reach) (hOther : c ≠ first)
    (hNone : rules.markup.delimiters.longestMatch (c :: rest) = none) :
    rules.shown (c :: rules.markup.delimiters.guarded (first :: others) rest) none =
      .ok (.literal [c]) := by
  obtain ⟨width, hWidth⟩ := Nat.exists_eq_succ_of_ne_zero hReach.ne'
  have hWindow : rules.markup.delimiters.longestMatch
      (c :: (rules.markup.delimiters.guarded (first :: others) rest).take width) = none := by
    have hWhole := longestMatch_eq_none_iff.mp (longestMatch_guarded others h.apart hNone)
    refine longestMatch_eq_none_iff.mpr fun d hMem hOpens => hWhole d hMem (hOpens.trans ?_)
    exact List.cons_prefix_cons.mpr ⟨rfl, List.take_prefix ..⟩
  rw [shown_none, hWidth, List.take_succ_cons, Sight.shown_unescaped (h.escapedAt_cons hOther _),
    Sight.shownUnescaped, Sight.needing_none, hWindow]
  rfl

/-- What is seen where one does. -/
theorem shown_opening_guarded (others : Text) {d : Delimiter} {rest : Text}
    (h : rules.markup.Guards first others)
    (hReach : rules.markup.escape.length + rules.markup.delimiters.maxOpening ≤ rules.reach)
    (hMatch : rules.markup.delimiters.longestMatch (d.opening ++ rest) = some d) :
    rules.shown (first :: others ++
      (d.opening ++ rules.markup.delimiters.guarded (first :: others) rest)) none =
      .ok (.escaped d.opening ((first :: others).length + d.opening.length)) := by
  have hLength := Escape.length_of_marker h.marker
  rw [shown_none, List.take_append, List.take_of_length_le (by omega), Sight.shown_marker h.marker,
    Sight.shownEscaped, Sight.needing_none, List.drop_left, longestMatch_take (by omega),
    longestMatch_opening_guarded others h.apart hMatch]
  simp only [h.kept, List.nil_append]

/-- The pieces of the guarded text are characters only, and they are the text. -/
theorem plain_pieces_guarded (h : rules.markup.Guards first others) (hText : first ∉ text)
    (hReach : rules.markup.escape.length + rules.markup.delimiters.maxOpening ≤ rules.reach) :
    Plain (rules.pieces (rules.markup.delimiters.guarded (first :: others) text) none) text := by
  have hSome : 0 < rules.reach := by
    have hLength := Escape.length_of_marker h.marker
    rw [List.length_cons] at hLength
    omega
  induction text using rules.markup.delimiters.guarded_induction with
  | nil =>
      rw [guarded_nil, pieces_nil]
      exact .nil
  | plain c rest hNone ih =>
      have hOther : c ≠ first := fun hSame => hText (hSame ▸ List.mem_cons_self ..)
      have hShown := shown_guarded others h hSome hOther hNone
      have hRest := ih fun hMem => hText (List.mem_cons_of_mem _ hMem)
      rw [guarded_of_none hNone, pieces_of_shown hShown (by simp)]
      exact hRest.literal [c]
  | opening d rest hMatch ih =>
      have hShown := shown_opening_guarded others h hReach hMatch
      have hRest := ih fun hMem => hText (List.mem_append_right _ hMem)
      rw [guarded_of_some hMatch, pieces_of_shown hShown (by simp), Sight.extent,
        ← List.append_assoc, List.drop_left' (List.length_append ..)]
      exact hRest.literal d.opening

end FilterRules

/-- The guarded text comes out as the text, with all sources, finishers, chains and remembered
answers and with all other switches. Nothing is looked up, no frame is opened and no circle is
met. -/
structure Markup.Protects (m : Markup) (marker text : Text) : Prop where
  interpolated : ∀ (x : Expander) (s : Session), x.markup = m →
    x.interpolate s (m.delimiters.guarded marker text) = some (.ok text, s)
  filtered : ∀ (options : FilterOptions) (x : Expander) (s : Session), options.markup = .ok m →
    options.lookahead m < pow2 64 →
    filterText options x s (m.delimiters.guarded marker text) = some (.ok text, s.onEmptyChain)
  /-- A filter whose lookahead overflows gives nothing. -/
  overflowing : ∀ (options : FilterOptions) (x : Expander) (s : Session), options.markup = .ok m →
    pow2 64 ≤ options.lookahead m →
    filterText options x s (m.delimiters.guarded marker text) =
      some (.error .overflow, s.onEmptyChain)

/-- Escaping protects any text. With an escape string that is dropped where it escapes and begins
with a character that is neither in an opening token nor in the text, the guarded text comes out as
the text. -/
theorem protects_of_guards {m : Markup} {first : Char} {others text : Text}
    (h : m.Guards first others) (hText : first ∉ text) : m.Protects (first :: others) text where
  interpolated := by
    rintro x s rfl
    exact (h.plain_segments hText).fillSegments x s
  filtered := by
    intro options x s hMarkup hFits
    rw [FilterStream.filterText_eq_fillSegments (options.measured_eq_ok_iff.mpr ⟨hMarkup, hFits⟩)]
    exact (FilterRules.plain_pieces_guarded h hText (options.wideEnough m).tokens).fillSegments _ _
  overflowing := by
    intro options x s hMarkup hLong
    exact FilterStream.filterText_of_refused (options.measured_eq_overflow hMarkup hLong) x s _

/-- Opening tokens of which one begins another, an opening token that also closes and ends the
escape string, and answers that are never used. -/
theorem protects_of_guards_overlapping :
    let options : FilterOptions := { FilterOptions.standard with
      delimiters := [['<', '*', '>'], ['<', '<', '*', '>'], ['@']]
      escapeString := some ['!', '@'] }
    let single : Delimiter := ⟨['<'], ['>'], by decide, by decide⟩
    let double : Delimiter := ⟨['<', '<'], ['>'], by decide, by decide⟩
    let m : Markup := ⟨⟨[single, double, .atSign], by decide⟩, ⟨some ['!', '@'], false, by decide⟩⟩
    let x : Expander := ⟨[.failing ['a'] ['n', 'o'], .constant ['v']], [], m, true, true⟩
    let s : Session := .fresh ⟨[], [['a']]⟩
    let text : Text := ['<', '<', '<', 'a', '>', '@', 'a', '@']
    let guarded : Text :=
      ['!', '@', '<', '<', '!', '@', '<', 'a', '>', '!', '@', '@', 'a', '!', '@', '@']
    m.Guards '!' ['@'] ∧ '!' ∉ text ∧ m.delimiters.guarded ['!', '@'] text = guarded ∧
      x.interpolate s guarded = some (.ok text, s) ∧
      filterText options x s guarded = some (.ok text, s.onEmptyChain) := by
  intro options single double m x s text guarded
  have hGuards : m.Guards '!' ['@'] := ⟨rfl, rfl, by decide⟩
  have hText : '!' ∉ text := by decide
  have hGuarded : m.delimiters.guarded ['!', '@'] text = guarded := by with_unfolding_all rfl
  have hMarkup : options.markup = .ok m := rfl
  obtain ⟨hInterpolated, hFiltered, _⟩ := protects_of_guards hGuards hText
  rw [hGuarded] at hInterpolated hFiltered
  exact ⟨hGuards, hText, hGuarded, hInterpolated x s rfl,
    hFiltered options x s hMarkup (by decide)⟩

/-- A guarded opening token does not come out where the sum for the lookahead overflows. -/
theorem guarded_text_lost_to_overflow :
    let options : FilterOptions := { FilterOptions.standard with
      delimiters := [['$', '\x7b', '*', '\x7d']]
      escapeString := some ['\\']
      maxExpression := pow2 64 - 2 }
    let m : Markup := ⟨⟨[.dollarBrace], by decide⟩, ⟨some ['\\'], false, by decide⟩⟩
    let x : Expander := ⟨[], [], .standard, true, false⟩
    let s : Session := .fresh .empty
    options.markup = .ok m ∧ m.Guards '\\' [] ∧ '\\' ∉ ['$', '\x7b'] ∧
      m.delimiters.guarded ['\\'] ['$', '\x7b'] = ['\\', '$', '\x7b'] ∧
      filterText options x s ['\\', '$', '\x7b'] = some (.error .overflow, s) := by
  intro options m x s
  have hMarkup : options.markup = .ok m := rfl
  have hLong : pow2 64 ≤ options.lookahead m := by decide
  have hGuarded : m.delimiters.guarded ['\\'] ['$', '\x7b'] = ['\\', '$', '\x7b'] := by
    with_unfolding_all rfl
  exact ⟨hMarkup, ⟨rfl, rfl, by decide⟩, by decide, hGuarded,
    FilterStream.filterText_of_refused (options.measured_eq_overflow hMarkup hLong) x s _⟩

end Placeholder
