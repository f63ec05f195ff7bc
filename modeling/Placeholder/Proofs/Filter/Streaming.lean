import Placeholder.Proofs.Filter.Sight
import Placeholder.Proofs.Filter.Token
/-!
The streaming filter against the whole text. Between two reads a filter is poised in front of a text:
what it has pending, with the output for the segments of that text behind it, is what it still gives.
One scan keeps that output and leaves less to do.
-/
namespace Placeholder.FilterStream

/-- The filter has not failed, follows these rules and still has `text` to read. -/
structure Poised (f : FilterStream) (rules : FilterRules) (text : Text) : Prop where
  markup : f.expander.markup = rules.markup
  multiLine : f.multiLine = rules.multiLine
  reach : f.reach = rules.reach
  gives : f.input.reader.Gives text
  sound : f.poisoned = false
  drained : f.ended = true → text = []

/-- What a filter in front of `text` is to give. -/
def output (f : FilterStream) (rules : FilterRules) (text : Text) : Rendering :=
  (f.expander.render f.session (rules.cut text)).behind f.pending

/-- What is left for a filter to do: characters to read, and the end of the input to notice. -/
def remaining (f : FilterStream) (text : Text) : Nat :=
  text.length + if f.ended then 0 else 1

/-- What a scan brings about when `r` is to be given and `n` is left to do. -/
def Carries (rules : FilterRules) (r : Rendering) (n : Nat) :
    Option (Except Failure Unit × FilterStream) → Prop
  | none => r = ⟨[], .endless⟩
  | some (.error failure, after) => r = ⟨[], .failed failure after.session⟩
  | some (.ok (), after) =>
    ∃ rest, after.Poised rules rest ∧ after.output rules rest = r ∧ after.remaining rest < n

variable {f : FilterStream} {rules : FilterRules} {text : Text}

/-- Stepping over what was decided leaves the filter poised behind it. -/
theorem settle_carries {input : Lookahead} {session : Session} {shown count : Nat} {front : Text}
    {r : Rendering} (h : f.Poised rules text) (hEnded : f.ended = false)
    (hAt : input.At text shown) (hLimit : input.limit = rules.reach) (hSome : 0 < count)
    (hFits : count ≤ (text.take rules.reach).length)
    (hOutput : r = (f.expander.render session (rules.cut (text.drop count))).behind front) :
    Carries rules r (f.remaining text)
      (some (settle { f with input := input, session := session } front count)) := by
  obtain ⟨after, hConsume, hGives⟩ := hAt.consume count (by rwa [Lookahead.window, hLimit])
  rw [settle, hConsume]
  refine ⟨text.drop count, ⟨h.markup, h.multiLine, h.reach, hGives, h.sound, ?_⟩, hOutput.symm, ?_⟩
  · intro hTrue
    exact absurd (hEnded.symm.trans hTrue) Bool.false_ne_true
  · rw [List.length_take] at hFits
    simp only [remaining, List.length_drop]
    omega

/-- One scan in front of a text. -/
theorem scan_carries (h : f.Poised rules text) (hWide : rules.WideEnough)
    (hEnded : f.ended = false) (hPending : f.pending = []) :
    Carries rules (f.output rules text) (f.remaining text) f.scan := by
  have hAt := Lookahead.at_mark h.gives f.reach
  obtain ⟨sight, after, shown, hLook, hAfter, hLimit, hFits, hExtent⟩ :=
    Sight.ofInput_shows hAt h.reach hWide
  have hOutput : f.output rules text = f.expander.render f.session (rules.cut text) := by
    rw [output, hPending, Rendering.behind_nil]
  rw [← h.markup, ← h.multiLine] at hLook
  rw [hOutput]
  cases hFits with
  | ended hEnd =>
      subst hEnd
      have hScan : f.scan = some (.ok (), { f with input := after, ended := true }) := by
        simp only [scan, decide, hLook]
        rfl
      rw [hScan]
      refine ⟨[], ⟨h.markup, h.multiLine, h.reach, ?_, h.sound, fun _ => rfl⟩, ?_, ?_⟩
      · simpa using hAfter.gives
      · rw [output, hPending]
        rfl
      · simp [remaining, hEnded]
  | literal hText hFront hRest =>
      rename_i front rest
      have hScan : f.scan = some (settle { f with input := after } front front.length) := by
        simp only [scan, decide, hLook]
        rfl
      rw [hScan, hRest]
      refine settle_carries h hEnded hAfter hLimit (List.length_pos_iff.mpr hFront) hExtent ?_
      rw [hText, List.drop_left]
  | escaped hSome hCut =>
      rename_i front consumed
      have hScan : f.scan = some (settle { f with input := after } front consumed) := by
        simp only [scan, decide, hLook]
        rfl
      rw [hScan, hCut, Expander.render]
      exact settle_carries h hEnded hAfter hLimit hSome hExtent rfl
  | placeholder hEscaped hFound =>
      rename_i d expression rest
      have hAlone : f.expander.markup.segments (d.wrap expression) = [.placeholder d expression] := by
        rw [h.markup]
        exact Markup.segments_wrap hEscaped (FilterRules.eq_of_placeholderAt hFound).1
      have hScan : f.scan =
          ((f.answer (d.wrap expression) expression).map fun answered =>
            (answered.1.map (·.getD (d.wrap expression)), answered.2)).map fun filled =>
              carryOut { f with input := after, session := filled.2 }
                (filled.1.map fun text => .replace text (d.wrap expression).length) := by
        simp only [scan, decide, hLook]
        change (Option.bind (Option.bind (f.answer _ _) _) _ = _)
        cases f.answer (d.wrap expression) expression with
        | none => rfl
        | some answered =>
            obtain ⟨result, session⟩ := answered
            cases result <;> rfl
      rw [hScan, answer_eq hAlone, FilterRules.cut_of_placeholderAt hEscaped hFound,
        Expander.render]
      cases f.expander.resolve f.session expression with
      | none => rfl
      | some resolved =>
          obtain ⟨result, session⟩ := resolved
          cases result with
          | error failure => rfl
          | ok value =>
              obtain ⟨_, hText, _⟩ := FilterRules.eq_of_placeholderAt hFound
              refine settle_carries h hEnded hAfter hLimit ?_ hExtent ?_
              · have hPos := d.opening_pos
                simp only [Delimiter.wrap, List.length_append]
                omega
              · rw [hText, List.drop_left]

/-- What a read brings about when `r` is to be given. -/
def Yields (rules : FilterRules) (r : Rendering) :
    Option (Except Failure (Option Char) × FilterStream) → Prop
  | none => r = ⟨[], .endless⟩
  | some (.error failure, after) => r = ⟨[], .failed failure after.session⟩ ∧ after.poisoned = true
  | some (.ok none, after) =>
    r = ⟨[], .ended after.session⟩ ∧ ∃ rest, after.Poised rules rest ∧ after.output rules rest = r
  | some (.ok (some c), after) =>
    ∃ left rest, r = ⟨c :: left, r.stop⟩ ∧ after.Poised rules rest ∧
      after.output rules rest = ⟨left, r.stop⟩

/-- A read gives the next character of the output, or how it ends. Scans that decide on an empty text
come in between, and each leaves less to do. -/
theorem next_yields (h : f.Poised rules text) (hWide : rules.WideEnough) :
    Yields rules (f.output rules text) f.next := by
  induction hLeft : f.remaining text using Nat.strongRecOn generalizing f text with
  | ind n ih =>
      subst hLeft
      rw [next]
      cases hPending : f.pending with
      | cons c rest =>
          refine ⟨rest ++ (f.expander.render f.session (rules.cut text)).text, text, ?_,
            ⟨h.markup, h.multiLine, h.reach, h.gives, h.sound, h.drained⟩, rfl⟩
          rw [output, hPending]
          rfl
      | nil =>
          cases hEnded : f.ended with
          | true =>
              have hText := h.drained hEnded
              subst hText
              refine ⟨?_, [], h, rfl⟩
              rw [output, hPending, FilterRules.cut_nil]
              rfl
          | false =>
              have hCarries := scan_carries h hWide hEnded hPending
              simp only [Bool.false_eq_true, if_false]
              cases hScan : f.scan with
              | none =>
                  rw [hScan] at hCarries
                  exact hCarries
              | some scanned =>
                  rw [hScan] at hCarries
                  obtain ⟨result, after⟩ := scanned
                  cases result with
                  | error failure => exact ⟨hCarries, rfl⟩
                  | ok done =>
                      obtain ⟨rest, hPoised, hOutput, hLess⟩ := hCarries
                      have hNext := ih _ hLess hPoised rfl
                      rw [hOutput] at hNext
                      exact hNext

theorem readChar_yields (h : f.Poised rules text) (hWide : rules.WideEnough) :
    Yields rules (f.output rules text) f.readChar := by
  rw [readChar, h.sound, if_neg Bool.false_ne_true]
  exact next_yields h hWide

/-- Whatever the number of reads, they give the output and how it ends. -/
theorem reads_of_poised (h : f.Poised rules text) (hWide : rules.WideEnough) (count : Nat) :
    f.reads count = (f.output rules text).reads count := by
  induction count generalizing f text with
  | zero => rfl
  | succ count ih =>
      have hYields := readChar_yields h hWide
      rw [reads]
      cases hRead : f.readChar with
      | none =>
          rw [hRead] at hYields
          rw [hYields]
          rfl
      | some read =>
          rw [hRead] at hYields
          obtain ⟨result, after⟩ := read
          cases result with
          | error failure =>
              obtain ⟨hOutput, hPoisoned⟩ := hYields
              rw [hOutput]
              simp only [Option.bind_eq_bind, Option.bind_some, reads_of_poisoned hPoisoned]
              rfl
          | ok char =>
              cases char with
              | none =>
                  obtain ⟨hEnd, rest, hPoised, hOutput⟩ := hYields
                  simp only [Option.bind_eq_bind, Option.bind_some, ih hPoised, hOutput]
                  rw [hEnd]
                  cases count <;> rfl
              | some c =>
                  obtain ⟨left, rest, hFront, hPoised, hOutput⟩ := hYields
                  rw [hFront]
                  simp only [Option.bind_eq_bind, Option.bind_some, ih hPoised, hOutput]
                  cases hReads : Rendering.reads count ⟨left, (f.output rules text).stop⟩ <;>
                    simp [Rendering.reads, hReads]

/-- A new filter is poised in front of its whole input. -/
theorem exists_of_make {options : FilterOptions} {markup : Markup}
    (hMarkup : options.markup = .ok markup) (hFits : options.lookahead markup < pow2 64)
    (x : Expander) (s : Session) {reader : TextReader} (hGives : reader.Gives text) :
    ∃ f : FilterStream, make options x s reader = .ok f ∧ f.Poised (options.rules markup) text ∧
      f.output (options.rules markup) text =
        ({ x with markup := markup } : Expander).render s ((options.rules markup).cut text) := by
  have hMeasured := FilterOptions.measured_eq_ok_iff.mpr ⟨hMarkup, hFits⟩
  refine ⟨_, by simp only [make, hMeasured]; rfl, ⟨rfl, rfl, rfl, ?_, rfl, ?_⟩, rfl⟩
  · exact hGives.mark _
  · exact fun hEnded => absurd hEnded Bool.false_ne_true

/-- Reading from a filter gives what cutting its whole input into segments and resolving them from
left to right gives, character by character, and it ends the same way: at the end of the input, at
the first failure, or in an expansion that never ends. -/
theorem reads_make {options : FilterOptions} {markup : Markup}
    (hMarkup : options.markup = .ok markup) (hFits : options.lookahead markup < pow2 64)
    (x : Expander) (s : Session) {reader : TextReader} (hGives : reader.Gives text) :
    ∃ f : FilterStream, make options x s reader = .ok f ∧
      ∀ count, f.reads count =
        (({ x with markup := markup } : Expander).render s
          ((options.rules markup).cut text)).reads count := by
  obtain ⟨f, hMake, hPoised, hOutput⟩ := exists_of_make hMarkup hFits x s hGives
  refine ⟨f, hMake, fun count => ?_⟩
  rw [reads_of_poised hPoised (options.wideEnough markup) count, hOutput]

/-- A filter on a short input that came in two deliveries. -/
theorem reads_make_two_deliveries :
    ∃ f : FilterStream,
      make .standard ⟨[.single ['a'] ['1']], [], .standard, true, false⟩ (.fresh .empty)
        (.ofFeed ⟨[.bytes 0x78 [0x40], .interrupted, .bytes 0x61 [0x40]], .closed⟩) = .ok f ∧
      ∀ count, f.reads count =
        (Expander.render ⟨[.single ['a'] ['1']], [], .standard, true, false⟩ (.fresh .empty)
          ((FilterOptions.standard.rules .standard).cut ['x', '@', 'a', '@'])).reads count :=
  reads_make (rfl : FilterOptions.standard.markup = .ok .standard) (by decide) _ _
    (TextReader.gives_ofFeed ⟨rfl, by simp⟩ (by decide))

end Placeholder.FilterStream
