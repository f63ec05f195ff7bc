import Placeholder.Proofs.Filter.Streaming
/-!
The filter against interpolation in memory. With room for the whole text in its window, and no line
that could break a placeholder off, a filter cuts a text exactly as its markup alone does; so it gives
the same result, asks the same sources in the same order and meets the same circular references.
-/
namespace Placeholder

namespace FilterStream

/-- Reading to the end or to the first failure gives the output as a whole. -/
theorem collectOnto_of_poised {f : FilterStream} {rules : FilterRules} {text : Text}
    (h : f.Poised rules text) (hWide : rules.WideEnough) (seen : Text) :
    (collectOnto seen f).map (fun collected => (resultOf collected.1, collected.2.session)) =
      ((f.output rules text).behind seen.reverse).whole := by
  induction hLength : (f.output rules text).text.length using Nat.strongRecOn
    generalizing f text seen with
  | ind n ih =>
      subst hLength
      have hYields := readChar_yields h hWide
      rw [collectOnto]
      cases hRead : f.readChar with
      | none =>
          rw [hRead] at hYields
          rw [hYields]
          rfl
      | some read =>
          rw [hRead] at hYields
          obtain ⟨result, after⟩ := read
          cases result with
          | error failure =>
              rw [hYields.1]
              rfl
          | ok char =>
              cases char with
              | none =>
                  rw [hYields.1, Rendering.behind, List.append_nil]
                  rfl
              | some c =>
                  obtain ⟨left, rest, hFront, hPoised, hOutput⟩ := hYields
                  have hLess : (after.output rules rest).text.length <
                      (f.output rules text).text.length := by
                    rw [hOutput, hFront]
                    exact Nat.lt_succ_self _
                  have hCollect := ih _ hLess hPoised (c :: seen) rfl
                  rw [hOutput, List.reverse_cons] at hCollect
                  rw [hFront]
                  simpa [Rendering.behind] using hCollect

/-- Filtering a text in memory gives the output for its segments as a whole. -/
theorem filterText_eq_whole {options : FilterOptions} {markup : Markup}
    (hMarkup : options.markup = .ok markup) (hFits : options.lookahead markup < pow2 64)
    (x : Expander) (s : Session) (text : Text) :
    filterText options x s text =
      (({ x with markup := markup } : Expander).render s.onEmptyChain
        ((options.rules markup).cut text)).whole := by
  have hGives := TextReader.gives_text text
  obtain ⟨f, hMake, hPoised, hOutput⟩ := exists_of_make hMarkup hFits x s.onEmptyChain hGives
  have hCollect := collectOnto_of_poised hPoised (options.wideEnough markup) []
  rw [hOutput, List.reverse_nil, Rendering.behind_nil] at hCollect
  rw [filterText, hMake, ← hCollect]
  simp only [collect]
  cases collectOnto [] f with
  | none => rfl
  | some collected =>
      obtain ⟨⟨whole, failure?⟩, after⟩ := collected
      cases failure? <;> rfl

/-- A text that is cut into one placeholder gives the answer to it. -/
theorem filterText_of_cut {options : FilterOptions} {markup : Markup}
    (hMarkup : options.markup = .ok markup) (hFits : options.lookahead markup < pow2 64)
    {x : Expander} {s after : Session} {text expression value : Text} {d : Delimiter}
    (hCut : (options.rules markup).cut text = [.placeholder d expression])
    (hResolve : ({ x with markup := markup } : Expander).resolve s.onEmptyChain expression =
      some (.ok (some value), after)) :
    filterText options x s text = some (.ok value, after) := by
  rw [filterText_eq_whole hMarkup hFits, hCut, Expander.render, hResolve]
  show some (Except.ok (value ++ []), after) = _
  rw [List.append_nil]

end FilterStream

/-- With room for the whole text, and lines that do not matter, filtering a text in memory is
interpolating it with the same markup: same result or failure, same questions to the sources in the
same order, same circular references, same remembered answers. -/
theorem filterText_eq_interpolate {options : FilterOptions} {markup : Markup}
    (hMarkup : options.markup = .ok markup) (hFits : options.lookahead markup < pow2 64)
    (x : Expander) (s : Session) {text : Text}
    (hLine : options.multiLine = true ∨ '\n' ∉ text)
    (hLong : text.length ≤ options.maxExpression) :
    filterText options x s text =
      ({ x with markup := markup } : Expander).interpolate s.onEmptyChain text := by
  have hReach : text.length ≤ (options.rules markup).reach := by
    simp only [FilterOptions.rules, FilterOptions.reach, FilterOptions.lookahead]
    omega
  rw [FilterStream.filterText_eq_whole hMarkup hFits, Expander.interpolate,
    Expander.fillSegments_eq_whole, FilterRules.cut_eq_segments hLine hReach]
  rfl

/-- The standard switches on one line of text. -/
theorem filterText_eq_interpolate_line :
    filterText .standard ⟨[.single ['a'] ['@', 'b', '@'], .failing ['b'] ['n', 'o']], [], .standard,
        true, true⟩ (.fresh .empty) ['x', '@', 'a', '@'] =
      Expander.interpolate ⟨[.single ['a'] ['@', 'b', '@'], .failing ['b'] ['n', 'o']], [],
        .standard, true, true⟩ (.fresh .empty) ['x', '@', 'a', '@'] :=
  filterText_eq_interpolate (rfl : FilterOptions.standard.markup = .ok .standard) (by decide) _ _ (Or.inr (by decide))
    (by decide)

end Placeholder
