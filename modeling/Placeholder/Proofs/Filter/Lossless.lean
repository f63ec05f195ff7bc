import Placeholder.Proofs.Expansion.Silence
import Placeholder.Proofs.Filter.Scanning
import Placeholder.Proofs.Reading.TextToCome
/-!
Filtering with sources that know nothing. As long as no escape string is dropped, a filter hands on
exactly the characters that its scans step over, however far it looks; so a text comes out as it
went in.
-/
namespace Placeholder

/-- On a reader that gives a text, nothing can fail, and what was passed is its front. -/
theorem TextReader.Passed.gives {r after : TextReader} {front text : Text}
    (h : r.Passed front after) (hGives : r.Gives text) : ∃ rest, text = front ++ rest ∧ after.Gives rest := by
  obtain ⟨hCalm, hText, hWellFormed⟩ := gives_iff.mp hGives
  obtain ⟨hClosed, hNone⟩ := Feed.calm_iff.mp hCalm
  refine ⟨after.toCome, hText.symm.trans h.text, gives_iff.mpr ⟨?_, rfl, ?_⟩⟩
  · exact Feed.calm_iff.mpr ⟨h.ending.trans hClosed, List.suffix_nil.mp (hNone ▸ h.failures)⟩
  · exact h.wellFormed.mpr hWellFormed

theorem TextReader.Gives.not_mayFail {r : TextReader} {text : Text} {failure : Failure}
    (h : r.Gives text) : ¬ r.MayFail failure := by
  obtain ⟨hCalm, _, hWellFormed⟩ := gives_iff.mp h
  obtain ⟨hClosed, hNone⟩ := Feed.calm_iff.mp hCalm
  intro hMay
  cases hMay with
  | request hMet =>
      rcases hMet with hMem | hBroken
      · rw [hNone] at hMem
        cases hMem
      · cases hClosed.symm.trans hBroken
  | illFormed hIllFormed => exact hIllFormed hWellFormed

namespace FilterStream

/-- Nothing is known and nothing is dropped, and `rest` is still to be read. -/
structure Echoes (f : FilterStream) (rest : Text) : Prop where
  silent : f.expander.Silent
  keeps : f.expander.markup.Keeps
  forgotten : f.session.answers = .empty
  reach : 0 < f.reach
  sound : f.poisoned = false
  gives : f.input.reader.Gives rest
  drained : f.ended = true → rest = []

variable {f : FilterStream} {rest : Text}

/-- A placeholder without an answer stays as it is. -/
theorem Echoes.answer (h : f.Echoes rest) (d : Delimiter) (expression : Text) :
    ∃ session, f.answer (d.wrap expression) expression = some (.ok none, session) ∧
      session.answers = .empty := by
  rw [FilterStream.answer]
  by_cases hWhole : f.wholeToken = true
  · obtain ⟨after, hFilled, hAfter⟩ :=
      h.silent.interpolate h.keeps h.forgotten (d.wrap expression)
    refine ⟨after, ?_, hAfter⟩
    rw [if_pos hWhole, hFilled]
    simp only [Option.bind_eq_bind, Option.bind_some, Except.map, if_true]
    rfl
  · rw [if_neg hWhole]
    exact h.silent.resolve h.forgotten expression

/-- A scan has exactly the characters handed out that it steps over, or the input has ended. -/
theorem Echoes.scan (h : f.Echoes rest) (hPending : f.pending = []) (hEnded : f.ended = false) :
    ∃ after later, f.scan = some (.ok (), after) ∧ after.Echoes later ∧
      rest = after.pending ++ later ∧ (after.pending ≠ [] ∨ after.ended = true) := by
  have hScanned := f.scanned h.reach
  generalize f.scan = outcome at hScanned
  -- The segment that is handed out as it is leaves a filter that goes on like this one.
  have hMoves : ∀ (segment : Text) (input : Lookahead) (session : Session), segment ≠ [] →
      f.Takes segment input → session.answers = .empty →
      ∃ after later, some (Except.ok (), { f with
          input := input, session := session, pending := segment }) =
          some (Except.ok (ε := Failure) (), after) ∧ after.Echoes later ∧
        rest = after.pending ++ later ∧ (after.pending ≠ [] ∨ after.ended = true) := by
    intro segment input session hSome hTakes hForgotten
    obtain ⟨later, hText, hGives⟩ := hTakes.passed.gives h.gives
    refine ⟨_, later, rfl, ⟨h.silent, h.keeps, hForgotten, h.reach, h.sound, hGives, ?_⟩, hText,
      .inl hSome⟩
    intro hTrue
    exact absurd (hEnded.symm.trans hTrue) Bool.false_ne_true
  cases hScanned with
  | ended hEnd hTakes =>
      rename_i input
      have hRest : rest = [] := (TextReader.gives_iff.mp h.gives).2.1.symm.trans hEnd
      obtain ⟨later, hText, hGives⟩ := hTakes.passed.gives h.gives
      obtain rfl : later = [] := hText.symm.trans hRest
      refine ⟨_, [], rfl, ⟨h.silent, h.keeps, h.forgotten, h.reach, h.sound, hGives, fun _ => rfl⟩,
        ?_, .inr rfl⟩
      rw [hRest, hPending]
      rfl
  | literal hSome hTakes => exact hMoves _ _ f.session hSome hTakes h.forgotten
  | escaped hMarker hTakes =>
      rename_i marker d input
      rw [h.keeps.kept hMarker]
      refine hMoves _ _ f.session (fun hNil => ?_) hTakes h.forgotten
      exact d.opening_ne_nil (List.append_eq_nil_iff.mp hNil).2
  | answered hTakes hAnswer =>
      rename_i d expression value session input
      obtain ⟨after, hNone, hForgotten⟩ := h.answer d expression
      obtain ⟨hValue, rfl⟩ := Prod.mk.inj (Option.some.inj (hNone.symm.trans hAnswer))
      obtain rfl := Except.ok.inj hValue
      refine hMoves _ _ after (fun hNil => ?_) hTakes hForgotten
      exact d.closing_ne_nil (List.append_eq_nil_iff.mp hNil).2
  | unread hFails => exact absurd hFails h.gives.not_mayFail
  | unanswered hAnswer =>
      rename_i d expression _ _ _ _ _
      obtain ⟨after, hNone, _⟩ := h.answer d expression
      cases hNone.symm.trans hAnswer
  | endless hAnswer =>
      rename_i d expression
      obtain ⟨after, hNone, _⟩ := h.answer d expression
      cases hNone.symm.trans hAnswer

/-- What a read of such a filter gives: the next character, or the end. -/
def Repeats (text : Text) (read : Option (Except Failure (Option Char) × FilterStream)) : Prop :=
  ∃ after later, read = some (.ok text.head?, after) ∧ after.Echoes later ∧
    text.tail = after.pending ++ later

theorem Echoes.next_of_decided (h : f.Echoes rest) (hSome : f.pending ≠ [] ∨ f.ended = true) :
    Repeats (f.pending ++ rest) f.next := by
  cases hPending : f.pending with
  | cons c more =>
      exact ⟨{ f with pending := more }, rest, next_of_pending hPending,
        ⟨h.silent, h.keeps, h.forgotten, h.reach, h.sound, h.gives, h.drained⟩, rfl⟩
  | nil =>
      have hEnded := hSome.resolve_left fun hNonempty => hNonempty hPending
      obtain rfl := h.drained hEnded
      refine ⟨f, [], next_of_ended hPending hEnded, h, ?_⟩
      rw [hPending]
      rfl

theorem Echoes.readChar (h : f.Echoes rest) : Repeats (f.pending ++ rest) f.readChar := by
  rw [readChar_of_sound h.sound]
  by_cases hSome : f.pending ≠ [] ∨ f.ended = true
  · exact h.next_of_decided hSome
  · rw [not_or, not_not, Bool.not_eq_true] at hSome
    obtain ⟨hPending, hEnded⟩ := hSome
    obtain ⟨after, later, hScan, hEchoes, hText, hNonempty⟩ := h.scan hPending hEnded
    rw [next_of_scan hPending hEnded hScan, hPending, List.nil_append, hText]
    exact hEchoes.next_of_decided hNonempty

theorem Echoes.collectOnto (h : f.Echoes rest) (seen : Text) :
    ∃ after, FilterStream.collectOnto seen f =
      some ((seen.reverse ++ (f.pending ++ rest), none), after) := by
  induction hText : f.pending ++ rest generalizing f rest seen with
  | nil =>
      obtain ⟨after, later, hRead, _⟩ := h.readChar
      rw [hText, List.head?_nil] at hRead
      refine ⟨after, ?_⟩
      rw [FilterStream.collectOnto, hRead, List.append_nil]
      rfl
  | cons c text ih =>
      obtain ⟨after, later, hRead, hEchoes, hTail⟩ := h.readChar
      rw [hText, List.head?_cons] at hRead
      rw [hText, List.tail_cons] at hTail
      obtain ⟨final, hCollect⟩ := ih hEchoes (c :: seen) hTail.symm
      refine ⟨final, ?_⟩
      rw [FilterStream.collectOnto, hRead]
      simp only [Option.bind_eq_bind, Option.bind_some, hCollect, List.reverse_cons,
        List.append_assoc, List.singleton_append]

theorem echoes_of_make {options : FilterOptions} {markup : Markup} {x : Expander} {s : Session}
    {reader : TextReader} {text : Text} (hMeasured : options.measured = .ok markup)
    (hKeeps : markup.Keeps) (hSilent : x.Silent) (hForgotten : s.answers = .empty)
    (hGives : reader.Gives text) :
    ∃ f, make options x s reader = .ok f ∧ f.Echoes text ∧ f.pending = [] := by
  obtain ⟨f, hMake⟩ := exists_make hMeasured x s reader
  obtain ⟨other, hOther, rfl⟩ := eq_of_make hMake
  obtain rfl := Except.ok.inj (hMeasured.symm.trans hOther)
  refine ⟨_, hMake, ⟨hSilent, hKeeps, hForgotten, options.reach_pos _, rfl, hGives.mark _, ?_⟩, rfl⟩
  exact fun hEnded => absurd hEnded Bool.false_ne_true

end FilterStream

/-- Switches that drop no escape string make a markup that drops none. -/
theorem FilterOptions.keeps_of_markup {options : FilterOptions} {markup : Markup}
    (h : options.markup = .ok markup)
    (hKeeps : options.escapeString = none ∨ options.preserveEscape = true) : markup.Keeps := by
  rw [FilterOptions.markup] at h
  cases hDelimiters : DelimiterSet.parse options.delimiters with
  | error failure =>
      rw [hDelimiters] at h
      cases h
  | ok delimiters =>
      rw [hDelimiters, Escape.make] at h
      by_cases hEmpty : options.escapeString = some []
      · rw [dif_pos hEmpty] at h
        cases h
      · rw [dif_neg hEmpty] at h
        obtain rfl := Except.ok.inj h
        exact hKeeps

/-- Where no source knows or refuses anything, and no escape string is dropped, a text comes out as
it went in: of a filter with any switches, unless they are refused, and of an expander on any chain.
Switches are refused for their markup, or because the sum for the lookahead overflows. -/
theorem unchanged_of_silent {x : Expander} {s : Session} (hSilent : x.Silent)
    (hForgotten : s.answers = .empty) :
    (∀ (options : FilterOptions) (text : Text),
      options.escapeString = none ∨ options.preserveEscape = true →
      ∃ after, filterText options x s text = some (options.markup.bind fun markup =>
        if options.lookahead markup < pow2 64 then .ok text else .error .overflow, after)) ∧
    (x.markup.Keeps → ∀ (chain : Chain) (text : Text),
      ∃ after, x.interpolate { s with chain := chain } text = some (.ok text, after)) := by
  constructor
  · intro options text hKeeps
    cases hMarkup : options.markup with
    | error failure =>
        exact ⟨_, FilterStream.filterText_of_refused (options.measured_eq_error hMarkup) x s text⟩
    | ok markup =>
        show ∃ after, filterText options x s text =
          some (if options.lookahead markup < pow2 64 then .ok text else .error .overflow, after)
        split
        · rename_i hFits
          have hGives := TextReader.gives_text text
          obtain ⟨f, hMake, hEchoes, hPending⟩ :=
            FilterStream.echoes_of_make (s := s.onEmptyChain)
              (options.measured_eq_ok_iff.mpr ⟨hMarkup, hFits⟩)
              (options.keeps_of_markup hMarkup hKeeps) hSilent hForgotten hGives
          obtain ⟨after, hCollect⟩ := hEchoes.collectOnto []
          refine ⟨after.session, ?_⟩
          rw [filterText, hMake]
          simp only [FilterStream.collect, hCollect, hPending, Option.bind_eq_bind, Option.bind_some]
          rfl
        · rename_i hLong
          exact ⟨_, FilterStream.filterText_of_refused
            (options.measured_eq_overflow hMarkup (Nat.le_of_not_lt hLong)) x s text⟩
  · intro hKeeps chain text
    obtain ⟨after, hSame, _⟩ :=
      hSilent.interpolate (s := { s with chain := chain }) hKeeps hForgotten text
    exact ⟨after, hSame⟩

/-- An empty table, an empty environment and a source behind a prefix. -/
theorem unchanged_of_silent_empty :
    let x : Expander := ⟨[.ofTable .empty, .ofEnvironment .empty, .prefixed [['p']] false
      (.ofTable .empty)], [], .standard, true, true⟩
    (∀ (options : FilterOptions) (text : Text),
      options.escapeString = none ∨ options.preserveEscape = true →
      ∃ after, filterText options x (.fresh .empty) text = some (options.markup.bind fun markup =>
        if options.lookahead markup < pow2 64 then .ok text else .error .overflow, after)) ∧
    (x.markup.Keeps → ∀ (chain : Chain) (text : Text),
      ∃ after, x.interpolate { Session.fresh .empty with chain := chain } text =
        some (.ok text, after)) := by
  refine unchanged_of_silent (fun source hMem expression => ?_) rfl
  simp only [List.mem_cons, List.not_mem_nil, or_false] at hMem
  rcases hMem with rfl | rfl | rfl
  · rfl
  · simp only [ValueSource.ofEnvironment, ValueSource.ofAnswers]
    cases List.isPrefixOf? ValueSource.environmentPrefix expression <;> rfl
  · simp only [ValueSource.prefixed]
    cases dropAccepted [['p']] expression <;> rfl

/-- No text comes out where expressions may be so long that the sum for the lookahead overflows,
although nothing is known, no escape string is dropped and the text is a single character. -/
theorem silent_text_lost_to_overflow :
    let options : FilterOptions := { FilterOptions.standard with maxExpression := pow2 64 - 1 }
    let x : Expander := ⟨[], [], .standard, true, false⟩
    x.Silent ∧ options.escapeString = none ∧ options.markup = .ok .standard ∧
      filterText options x (.fresh .empty) ['x'] = some (.error .overflow, .fresh .empty) := by
  intro options x
  have hMarkup : options.markup = .ok .standard := rfl
  have hLong : pow2 64 ≤ options.lookahead .standard := by decide
  refine ⟨fun _ hMem => ?_, rfl, hMarkup,
    FilterStream.filterText_of_refused (options.measured_eq_overflow hMarkup hLong) x _ ['x']⟩
  cases hMem

end Placeholder
