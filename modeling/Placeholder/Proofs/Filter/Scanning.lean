import Placeholder.Filter.Stream
import Placeholder.Proofs.Filter.Looking
/-!
One scan of a filter, on any input and with any window that holds a character. `scanned` says once
what a scan can do: it notices the end of the input, or steps over some of its characters, at least
one, and has what they turn into handed out; or an answer fails, a read does, or an expansion never
ends.
-/
namespace Placeholder

/-- How many characters of the input a decision uses up. -/
def Decision.count : Decision → Nat
  | ended => 0
  | pass text => text.length
  | replace _ consumed => consumed

namespace FilterStream

/-- A new filter has its whole input in front of it. -/
theorem eq_of_make {options : FilterOptions} {x : Expander} {s : Session} {reader : TextReader}
    {f : FilterStream} (h : make options x s reader = .ok f) :
    ∃ markup, options.measured = .ok markup ∧
      f = ⟨.ofReader reader (options.reach markup), { x with markup := markup }, s,
        options.multiLine, options.wholeToken, options.reach markup, [], [], false, false, none⟩ := by
  rw [make] at h
  cases hMarkup : options.measured with
  | error failure =>
      rw [hMarkup] at h
      cases h
  | ok markup =>
      rw [hMarkup] at h
      exact ⟨markup, rfl, (Except.ok.inj h).symm⟩

/-- A filter is made of any switches that can be measured. -/
theorem exists_make {options : FilterOptions} {markup : Markup}
    (hMeasured : options.measured = .ok markup) (x : Expander) (s : Session) (reader : TextReader) :
    ∃ f, make options x s reader = .ok f :=
  ⟨_, by rw [make, hMeasured]; rfl⟩

/-- Switches that are refused leave nothing to filter with. -/
theorem make_of_refused {options : FilterOptions} {failure : Failure}
    (h : options.measured = .error failure) (x : Expander) (s : Session) (reader : TextReader) :
    make options x s reader = .error failure := by
  rw [make, h]
  rfl

theorem filterText_of_refused {options : FilterOptions} {failure : Failure}
    (h : options.measured = .error failure) (x : Expander) (s : Session) (text : Text) :
    filterText options x s text = some (.error failure, s.onEmptyChain) := by
  rw [filterText, make_of_refused h]

theorem reach_of_make {options : FilterOptions} {x : Expander} {s : Session} {reader : TextReader}
    {f : FilterStream} (h : make options x s reader = .ok f) : 0 < f.reach := by
  obtain ⟨markup, _, rfl⟩ := eq_of_make h
  exact options.reach_pos markup

/-- What the next scan sees, and where it stops looking. -/
def look (f : FilterStream) : Except Failure Sight × Lookahead :=
  Sight.ofInput f.expander.markup f.multiLine (f.input.mark f.reach)

/-- The characters that the next scan steps over. -/
def taken (f : FilterStream) : Text :=
  match { f with input := f.input.mark f.reach }.decide with
  | some (.ok decision, decided) => decided.input.reset.2.passing decision.count
  | _ => []

/-- The scan steps over `segment`, within its reach, and `input` is what follows. -/
structure Takes (f : FilterStream) (segment : Text) (input : Lookahead) : Prop where
  taken : f.taken = segment
  fits : segment.length ≤ f.reach
  passed : f.input.reader.Passed segment input.reader

/-- What a scan can do. -/
inductive Scanned (f : FilterStream) : Option (Except Failure Unit × FilterStream) → Prop
  | ended {input : Lookahead} (hEnd : f.input.reader.toCome = []) (hTakes : f.Takes [] input) :
      Scanned f (some (.ok (), { f with input := input, ended := true }))
  | literal {front : Text} {input : Lookahead} (hSome : front ≠ []) (hTakes : f.Takes front input) :
      Scanned f (some (.ok (), { f with input := input, pending := front }))
  | escaped {marker : Text} {d : Delimiter} {input : Lookahead}
      (hMarker : f.expander.markup.escape.marker = some marker)
      (hTakes : f.Takes (marker ++ d.opening) input) :
      Scanned f (some (.ok (),
        { f with input := input, pending := f.expander.markup.escape.kept marker ++ d.opening }))
  | answered {d : Delimiter} {expression : Text} {value : Option Text} {session : Session}
      {input : Lookahead} (hTakes : f.Takes (d.wrap expression) input)
      (hAnswer : f.answer (d.wrap expression) expression = some (.ok value, session)) :
      Scanned f (some (.ok (), { f with
        input := input, session := session, pending := value.getD (d.wrap expression) }))
  | unread {failure : Failure} {seen : Text} {input : Lookahead}
      (hFails : f.input.reader.MayFail failure) (hPassed : f.input.reader.Passed seen input.reader) :
      Scanned f (some (.error failure, { f with input := input }))
  | unanswered {d : Delimiter} {expression seen : Text} {failure : Failure} {session : Session}
      {input : Lookahead}
      (hAnswer : f.answer (d.wrap expression) expression = some (.error failure, session))
      (hPassed : f.input.reader.Passed seen input.reader) :
      Scanned f (some (.error failure, { f with input := input, session := session }))
  | endless {d : Delimiter} {expression : Text}
      (hAnswer : f.answer (d.wrap expression) expression = none) : Scanned f none

/-- A scan looks no further than its reach. -/
theorem look_since (f : FilterStream) (hReach : 0 < f.reach) :
    ∃ seen, f.look.2.Since f.input.reader f.reach seen := by
  have hLooks := Sight.ofInput_looks f.expander.markup f.multiLine f.input hReach
  rw [look]
  cases hLook : Sight.ofInput f.expander.markup f.multiLine (f.input.mark f.reach) with
  | mk result after =>
      rw [hLook] at hLooks
      cases hLooks with
      | answered _ hSince _ => exact ⟨_, hSince⟩
      | failed _ hSince _ => exact ⟨_, hSince⟩

/-- An answer does not depend on the input. -/
theorem answer_of_input (f : FilterStream) (input : Lookahead) (token expression : Text) :
    { f with input := input }.answer token expression = f.answer token expression := rfl

theorem scan_of_decide {f decided : FilterStream} {result : Except Failure Decision}
    (h : { f with input := f.input.mark f.reach }.decide = some (result, decided)) :
    f.scan = some (decided.carryOut result) := by
  rw [scan, h]
  rfl

/-- A decision on the front of what was seen takes just that. -/
theorem scan_settles {f decided : FilterStream} {decision : Decision} {front seen text : Text}
    (hDecide : { f with input := f.input.mark f.reach }.decide = some (.ok decision, decided))
    (hSince : decided.input.Since f.input.reader f.reach seen) (hFront : front <+: seen)
    (hCarry : decided.carryOut (.ok decision) = decided.settle text decision.count)
    (hCount : decision.count = front.length) :
    ∃ input, f.scan = some (.ok (), { decided with input := input, pending := text }) ∧
      f.Takes front input := by
  obtain ⟨back, hSeen⟩ := hFront
  obtain ⟨hPassing, after, hConsume, hPassed⟩ := hSince.consume hSeen.symm
  refine ⟨after, ?_, ?_, ?_, hPassed⟩
  · rw [scan_of_decide hDecide, hCarry, settle, hCount, hConsume]
  · rw [taken, hDecide, ← hPassing, ← hCount]
  · exact Nat.le_trans (hSeen ▸ List.prefix_append front back).length_le hSince.length_le

/-- A scan that sees a placeholder comes to what its answer does. -/
theorem scanned_placeholder {f : FilterStream} {after : Lookahead} {d : Delimiter}
    {expression seen : Text}
    (hLook : f.look = (.ok (.placeholder (d.wrap expression) expression), after))
    (hSince : after.Since f.input.reader f.reach seen) (hFront : d.wrap expression <+: seen) :
    f.Scanned f.scan := by
  rw [look] at hLook
  have hDecide : { f with input := f.input.mark f.reach }.decide =
      (f.answer (d.wrap expression) expression).map fun answered =>
        (answered.1.map fun text =>
          .replace (text.getD (d.wrap expression)) (d.wrap expression).length,
          { f with input := after, session := answered.2 }) := by
    simp only [decide, hLook, answer_of_input]
    cases f.answer (d.wrap expression) expression <;> rfl
  cases hAnswer : f.answer (d.wrap expression) expression with
  | none =>
      rw [scan, hDecide, hAnswer]
      exact .endless hAnswer
  | some answered =>
      obtain ⟨result, session⟩ := answered
      rw [hAnswer, Option.map_some] at hDecide
      cases result with
      | error failure =>
          rw [scan_of_decide hDecide]
          exact .unanswered hAnswer hSince.passed
      | ok value =>
          obtain ⟨input, hScan, hTakes⟩ := scan_settles hDecide hSince hFront rfl rfl
          rw [hScan]
          exact .answered hTakes hAnswer

theorem scanned (f : FilterStream) (hReach : 0 < f.reach) : f.Scanned f.scan := by
  have hLooks := Sight.ofInput_looks f.expander.markup f.multiLine f.input hReach
  cases hLook : Sight.ofInput f.expander.markup f.multiLine (f.input.mark f.reach) with
  | mk result after =>
      rw [hLook] at hLooks
      cases hLooks with
      | failed _ hSince hFails =>
          rename_i failure _ _
          have hDecide : { f with input := f.input.mark f.reach }.decide =
              some (.error failure, { f with input := after }) := by
            simp only [decide, hLook]
          rw [scan_of_decide hDecide]
          exact .unread hFails hSince.passed
      | answered _ hSince hSees =>
          cases hSees with
          | ended hEnd =>
              have hDecide : { f with input := f.input.mark f.reach }.decide =
                  some (.ok .ended, { f with input := after }) := by
                simp only [decide, hLook]
              obtain ⟨rfl, _⟩ := List.append_eq_nil_iff.mp (hSince.passed.text.symm.trans hEnd)
              rw [scan_of_decide hDecide]
              refine .ended hEnd ⟨?_, Nat.zero_le _, hSince.passed⟩
              rw [taken, hDecide]
              rfl
          | literal hSome hFront =>
              rename_i front
              have hDecide : { f with input := f.input.mark f.reach }.decide =
                  some (.ok (.pass front), { f with input := after }) := by
                simp only [decide, hLook]
              obtain ⟨input, hScan, hTakes⟩ := scan_settles hDecide hSince hFront rfl rfl
              rw [hScan]
              exact .literal hSome hTakes
          | escaped hMarker hFront =>
              rename_i marker d
              have hDecide : { f with input := f.input.mark f.reach }.decide =
                  some (.ok (.replace (f.expander.markup.escape.kept marker ++ d.opening)
                    (marker.length + d.opening.length)), { f with input := after }) := by
                simp only [decide, hLook]
              obtain ⟨input, hScan, hTakes⟩ := scan_settles hDecide hSince hFront rfl
                List.length_append.symm
              rw [hScan]
              exact .escaped hMarker hTakes
          | placeholder hFront => exact scanned_placeholder hLook hSince hFront

/-! The ways a read of a filter that has not failed can go. -/

theorem readChar_of_sound {f : FilterStream} (h : f.poisoned = false) : f.readChar = f.next := by
  rw [readChar, h, if_neg Bool.false_ne_true]

theorem next_of_pending {f : FilterStream} {c : Char} {rest : Text} (h : f.pending = c :: rest) :
    f.next = some (.ok (some c), { f with pending := rest }) := by
  rw [next, h]

theorem next_of_ended {f : FilterStream} (hPending : f.pending = []) (hEnded : f.ended = true) :
    f.next = some (.ok none, f) := by
  rw [next, hPending, hEnded]
  rfl

variable {f after : FilterStream}

theorem next_of_endless (hPending : f.pending = []) (hEnded : f.ended = false)
    (hScan : f.scan = none) : f.next = none := by
  rw [next, hPending, hEnded, hScan]
  rfl

theorem next_of_failed {failure : Failure} (hPending : f.pending = []) (hEnded : f.ended = false)
    (hScan : f.scan = some (.error failure, after)) :
    f.next = some (.error failure, { after with poisoned := true }) := by
  rw [next, hPending, hEnded, hScan]
  rfl

theorem next_of_scan (hPending : f.pending = []) (hEnded : f.ended = false)
    (hScan : f.scan = some (.ok (), after)) : f.next = after.next := by
  rw [next, hPending, hEnded, hScan]
  rfl

end FilterStream

end Placeholder
