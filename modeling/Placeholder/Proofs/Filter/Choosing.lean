import Placeholder.Proofs.Filter.Deciding
import Placeholder.Proofs.Filter.Streaming
/-!
Which delimiter opens a placeholder. A set of delimiters chooses by the opening tokens at the front of a
window, and between equal ones by their order. Where the window is cut off makes no difference, if it
has room for every opening token. So the window that a filter fills, the placeholder alone and the rest
of a whole text have the same choice.
-/
namespace Placeholder

namespace DelimiterSet

/-- Filling a window for the opening tokens behind its first `offset` characters shows what the text
chooses there, unless a failure comes before the window is wide enough. -/
def ChoosesBehind (set : DelimiterSet) (text : Text) (stop : Option Failure) (offset : Nat) :
    Except Failure Text → Prop
  | .ok window => set.longestMatch (window.drop offset) = set.longestMatch (text.drop offset)
  | .error failure => stop = some failure ∧ text.length < offset + set.maxOpening

/-- What a set of delimiters chooses, and what makes no difference to it. -/
structure ChoosesLongest (set : DelimiterSet) : Prop where
  /-- There is nothing to choose just where no opening token is at the front. -/
  none_iff : ∀ window, set.longestMatch window = none ↔ ∀ d ∈ set.members, ¬ d.opening <+: window
  /-- Otherwise it is the first declared of those with the longest opening token there. -/
  first : ∀ window, set.longestMatch window =
    set.members.find? fun d => decide (set.IsLongest window d)
  rearranged : ∀ other, set.Rearranged other → ∀ window,
    other.longestMatch window = set.longestMatch window
  cut : ∀ window count, set.maxOpening ≤ count →
    set.longestMatch (window.take count) = set.longestMatch window
  extended : ∀ window more, set.maxOpening ≤ window.length →
    set.longestMatch (window ++ more) = set.longestMatch window
  /-- The front of a text has the choice of the text if it holds the token that is chosen. -/
  alone : ∀ text front d, front <+: text → d.opening <+: front →
    set.longestMatch text = some d → set.longestMatch front = some d
  /-- The window that a filter fills, in front of an opening token or of an escape string. -/
  filled : ∀ (l : Lookahead) text stop taken, l.Amid text stop taken →
    ∀ offset, offset + set.maxOpening ≤ l.limit →
      set.ChoosesBehind text stop offset (l.fill (text.take taken) (offset + set.maxOpening)).1
  /-- The placeholder that a filter sees in front of a text. -/
  seen : ∀ (f : FilterStream) text stop, f.expander.markup.delimiters = set →
    f.input.reader.Course text stop → set.maxOpening ≤ f.reach →
    ∀ token expression, f.look.1 = .ok (.placeholder token expression) →
      ∃ d : Delimiter, token = d.wrap expression ∧ token <+: text ∧
        set.longestMatch (text.take f.reach) = some d ∧ set.longestMatch token = some d ∧
        set.longestMatch text = some d
  /-- Every filter looks that far; where the sum for it overflows, there is none. -/
  inReach : ∀ options x s reader f, FilterStream.make options x s reader = .ok f →
    f.expander.markup.delimiters = set →
    f.expander.markup.escape.length + set.maxOpening ≤ f.reach

end DelimiterSet

open DelimiterSet (ChoosesBehind ChoosesLongest)

variable {set : DelimiterSet} {text : Text} {stop : Option Failure}

theorem Lookahead.Amid.choosesBehind {l : Lookahead} {taken : Nat} (h : l.Amid text stop taken)
    (offset : Nat) (hReach : offset + set.maxOpening ≤ l.limit) :
    set.ChoosesBehind text stop offset (l.fill (text.take taken) (offset + set.maxOpening)).1 := by
  have hFills := h.fill (offset + set.maxOpening)
  rw [Fills] at hFills
  split at hFills
  · rename_i failure hShort
    obtain ⟨after, hFill⟩ := hFills
    rw [hFill]
    rw [shortOf, cutOff, List.length_take] at hShort
    split at hShort
    · split at hShort
      · exact ⟨hShort, by omega⟩
      · cases hShort
    · cases hShort
  · obtain ⟨after, shown, hFill, hAfter, _, hShown⟩ := hFills
    rw [hFill]
    show set.longestMatch ((text.take shown).drop offset) = _
    rw [List.drop_take]
    apply DelimiterSet.longestMatch_window
    rw [List.length_drop]
    omega

/-- The placeholder at the front of a window is opened by what the window, the text and the
placeholder itself choose. -/
theorem FilterStream.chosen_of_look {f : FilterStream} {token expression : Text}
    (hReach : f.expander.markup.delimiters.maxOpening ≤ f.reach)
    (hCourse : f.input.reader.Course text stop)
    (hLook : f.look.1 = .ok (.placeholder token expression)) :
    ∃ d : Delimiter, token = d.wrap expression ∧ token <+: text ∧
      f.expander.markup.delimiters.longestMatch (text.take f.reach) = some d ∧
      f.expander.markup.delimiters.longestMatch token = some d ∧
      f.expander.markup.delimiters.longestMatch text = some d := by
  have hFinds := (look_finds hCourse).1
  rw [hLook] at hFinds
  obtain ⟨d, rfl, hToken, hMatch⟩ := (Sight.seen_of_shown hFinds.symm).chosen
  have hOpens : d.opening <+: d.wrap expression :=
    ⟨expression ++ d.closing, by rw [Delimiter.wrap, List.append_assoc]⟩
  refine ⟨d, rfl, hToken.trans (List.take_prefix _ _), hMatch, ?_, ?_⟩
  · obtain ⟨after, hWindow⟩ := hToken
    exact DelimiterSet.longestMatch_of_append (hWindow ▸ hMatch) hOpens
  · rw [← DelimiterSet.longestMatch_take hReach]
    exact hMatch

/-- For every set of delimiters and every window, the first declared of those with the longest opening
token at the front is chosen. The order of delimiters with different opening tokens makes no
difference, nor does anything behind as many characters as the longest opening token has. So the
choice is the same for the window that a filter fills, for the placeholder alone and for the rest of
a whole text. -/
theorem chooses_longest (set : DelimiterSet) : set.ChoosesLongest where
  none_iff _ := DelimiterSet.longestMatch_eq_none_iff
  first := set.longestMatch_eq_find?
  rearranged _ hRearranged := hRearranged.longestMatch_eq
  cut window _ hWide := DelimiterSet.longestMatch_take hWide window
  extended _ more hWide := DelimiterSet.longestMatch_append hWide more
  alone := by
    rintro text front d ⟨back, rfl⟩ hOpens hMatch
    exact DelimiterSet.longestMatch_of_append hMatch hOpens
  filled _ _ _ _ hAmid := hAmid.choosesBehind
  seen := by
    rintro f text stop rfl hCourse hReach token expression hLook
    exact FilterStream.chosen_of_look hReach hCourse hLook
  inReach := by
    rintro options x s reader f hMake rfl
    obtain ⟨markup, _, rfl⟩ := FilterStream.eq_of_make hMake
    exact (options.wideEnough markup).tokens

/-- Two delimiters that open with the same token and one that opens with two of it. The latter may be
declared anywhere, and windows may be cut behind two characters. -/
theorem chooses_longest_rearranged :
    let angle : Delimiter := ⟨['<'], ['>'], by decide, by decide⟩
    let square : Delimiter := ⟨['<'], [']'], by decide, by decide⟩
    let double : Delimiter := ⟨['<', '<'], ['>'], by decide, by decide⟩
    let set : DelimiterSet := ⟨[angle, square, double], by decide⟩
    let other : DelimiterSet := ⟨[double, angle, square], by decide⟩
    set.Rearranged other ∧ set.maxOpening ≤ 2 ∧ other.longestMatch ['<', 'a', ']'] = some angle ∧
      set.longestMatch (['<', '<', 'a'].take 2) = some double := by
  intro angle square double set other
  have hRearranged : set.Rearranged other := by
    have hPerm : ([angle, square] ++ [double]).Perm ([double] ++ [angle, square]) :=
      List.perm_append_comm
    refine ⟨hPerm, fun opening => ?_⟩
    by_cases hSingle : ['<'] = opening
    · subst hSingle
      rfl
    · by_cases hDouble : ['<', '<'] = opening
      · subst hDouble
        rfl
      · simp [set, other, angle, square, double, hSingle, hDouble]
  have hWide : set.maxOpening ≤ 2 := by decide
  have hChooses := chooses_longest set
  refine ⟨hRearranged, hWide, ?_, ?_⟩
  · rw [hChooses.rearranged other hRearranged]
    decide
  · rw [hChooses.cut _ 2 hWide]
    decide

end Placeholder
