import Placeholder.Markup
import Placeholder.Powers
/-!
The switches of the filter, as a user writes them: the delimiters and the escape string still in
their written form.
-/
namespace Placeholder

/-- The switches of the filter. -/
structure FilterOptions where
  delimiters : List Text
  escapeString : Option Text
  /-- Whether the output keeps an escape string that did its work. -/
  preserveEscape : Bool
  /-- Whether an expression may span lines. -/
  multiLine : Bool
  /-- Whether a placeholder is handed on whole, delimiters included. -/
  wholeToken : Bool
  /-- The longest expression that is recognised, in characters. -/
  maxExpression : Nat
deriving DecidableEq

namespace FilterOptions

/-- The switches when nothing is said about them. -/
def standard : FilterOptions where
  delimiters := DelimiterSet.standard.members.map Delimiter.display
  escapeString := none
  preserveEscape := false
  multiLine := false
  wholeToken := true
  maxExpression := 255

/-- Reads the delimiters, then the escape string. -/
def markup (options : FilterOptions) : Except Failure Markup := do
  let delimiters ← DelimiterSet.parse options.delimiters
  let escape ← Escape.make options.escapeString options.preserveEscape
  return ⟨delimiters, escape⟩

/-- How many characters an escape string, an opening token, an expression and a closing token have
together, each as long as may be. -/
def lookahead (options : FilterOptions) (markup : Markup) : Nat :=
  markup.escape.length + markup.delimiters.maxOpening + options.maxExpression +
    markup.delimiters.maxClosing

/-- Reads the markup, and makes sure that the lookahead has no more than sixty-four bits. -/
def measured (options : FilterOptions) : Except Failure Markup := do
  let markup ← options.markup
  if options.lookahead markup < pow2 64 then return markup else throw .overflow

/-- How far a scan may look ahead; at least one character beyond the escape string. -/
def reach (options : FilterOptions) (markup : Markup) : Nat :=
  max (options.lookahead markup) (markup.escape.length + 1)

variable {options : FilterOptions} {markup : Markup}

theorem reach_pos (options : FilterOptions) (markup : Markup) : 0 < options.reach markup := by
  rw [reach]
  omega

theorem measured_eq_ok_iff : options.measured = .ok markup ↔
    options.markup = .ok markup ∧ options.lookahead markup < pow2 64 := by
  rw [measured]
  cases options.markup with
  | error failure => simp [bind, Except.bind]
  | ok found =>
      simp only [bind, Except.bind]
      split
      · rename_i hFits
        constructor
        · intro hSame
          obtain rfl := Except.ok.inj hSame
          exact ⟨rfl, hFits⟩
        · exact fun hBoth => hBoth.1
      · rename_i hLong
        constructor
        · intro hSame
          cases hSame
        · rintro ⟨hSame, hFits⟩
          obtain rfl := Except.ok.inj hSame
          exact absurd hFits hLong

/-- Switches whose lookahead has more bits are refused, whatever the markup. -/
theorem measured_eq_overflow (hMarkup : options.markup = .ok markup)
    (hLong : pow2 64 ≤ options.lookahead markup) : options.measured = .error .overflow := by
  rw [measured, hMarkup]
  exact if_neg (Nat.not_lt.mpr hLong)

theorem measured_eq_error {failure : Failure} (h : options.markup = .error failure) :
    options.measured = .error failure := by
  rw [measured, h]
  rfl

/-- There is no other reason to refuse switches. -/
theorem measured_eq_error_iff {failure : Failure} : options.measured = .error failure ↔
    options.markup = .error failure ∨
      failure = .overflow ∧ ∃ markup, options.markup = .ok markup ∧ pow2 64 ≤ options.lookahead markup := by
  constructor
  · intro hRefused
    cases hMarkup : options.markup with
    | error met => exact .inl (congrArg _ (Except.error.inj ((measured_eq_error hMarkup).symm.trans hRefused)))
    | ok markup =>
        by_cases hFits : options.lookahead markup < pow2 64
        · cases hRefused.symm.trans (measured_eq_ok_iff.mpr ⟨hMarkup, hFits⟩)
        · have hLong := Nat.le_of_not_lt hFits
          have hOverflow := (measured_eq_overflow hMarkup hLong).symm.trans hRefused
          exact .inr ⟨(Except.error.inj hOverflow).symm, markup, rfl, hLong⟩
  · rintro (hMarkup | ⟨rfl, markup, hMarkup, hLong⟩)
    · exact measured_eq_error hMarkup
    · exact measured_eq_overflow hMarkup hLong

end FilterOptions

end Placeholder
