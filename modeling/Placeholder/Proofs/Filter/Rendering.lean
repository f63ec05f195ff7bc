import Placeholder.Filter.Stream
import Placeholder.Proofs.Filter.Cutting
/-!
What segments turn into when their expressions are resolved from left to right: the characters up to
the first failure, and how it ends. A reader of these characters meets a failure once; after that
every attempt is refused. Where an expansion never ends, the attempt has no outcome.
-/
namespace Placeholder

/-- How the characters end, and the session at that point. -/
inductive Stop where
  | ended (session : Session)
  | failed (failure : Failure) (session : Session)
  /-- The next expansion never ends. -/
  | endless

/-- The characters of an output and how they end. -/
structure Rendering where
  text : Text
  stop : Stop

/-- What each of the next attempts to read a character gives. -/
abbrev Readings := List (Except Failure (Option Char))

namespace Rendering

/-- The same with more characters in front. -/
def behind (front : Text) (r : Rendering) : Rendering := ⟨front ++ r.text, r.stop⟩

@[simp] theorem behind_nil (r : Rendering) : r.behind [] = r := rfl

theorem behind_behind (r : Rendering) (first second : Text) :
    (r.behind second).behind first = r.behind (first ++ second) := by
  rw [behind, behind, behind, List.append_assoc]

/-- The output taken as a whole: all of it or the failure, and the session at the end. -/
def whole : Rendering → Option (Except Failure Text × Session)
  | ⟨text, .ended session⟩ => some (.ok text, session)
  | ⟨_, .failed failure session⟩ => some (.error failure, session)
  | ⟨_, .endless⟩ => none

theorem whole_behind (front : Text) (r : Rendering) :
    (r.behind front).whole =
      r.whole.map fun filled => (filled.1.map (front ++ ·), filled.2) := by
  obtain ⟨text, stop⟩ := r
  cases stop <;> rfl

end Rendering

/-- What `count` attempts give when no characters are left. -/
def Stop.reads : Stop → Nat → Option Readings
  | _, 0 => some []
  | ended _, count + 1 => some (List.replicate (count + 1) (.ok none))
  | failed failure _, count + 1 => some (.error failure :: List.replicate count (.error .poisoned))
  | endless, _ + 1 => none

/-- What `count` attempts to read a character give. -/
def Rendering.reads : Nat → Rendering → Option Readings
  | 0, _ => some []
  | count + 1, ⟨[], stop⟩ => stop.reads (count + 1)
  | count + 1, ⟨c :: rest, stop⟩ => (reads count ⟨rest, stop⟩).map (.ok (some c) :: ·)

/-- The same for a filter. -/
def FilterStream.reads : Nat → FilterStream → Option Readings
  | 0, _ => some []
  | count + 1, f => do
    let read ← f.readChar
    let later ← reads count read.2
    return read.1 :: later

/-- A collected text as a result. -/
def FilterStream.resultOf : Text × Option Failure → Except Failure Text
  | (text, none) => .ok text
  | (_, some failure) => .error failure

/-- A filter that failed refuses every further read. -/
theorem FilterStream.reads_of_poisoned {f : FilterStream} (h : f.poisoned = true) (count : Nat) :
    f.reads count = some (List.replicate count (.error .poisoned)) := by
  induction count with
  | zero => rfl
  | succ count ih =>
      rw [reads, readChar, if_pos h]
      simp only [Option.bind_eq_bind, Option.bind_some, ih]
      rfl

/-- The output for segments: every expression is resolved when its turn comes, and a placeholder
without a value stays as it was written. -/
def Expander.render (x : Expander) (s : Session) : List Segment → Rendering
  | [] => ⟨[], .ended s⟩
  | .literal text :: rest => (x.render s rest).behind text
  | .placeholder d expression :: rest =>
    match x.resolve s expression with
    | none => ⟨[], .endless⟩
    | some (.error failure, after) => ⟨[], .failed failure after⟩
    | some (.ok answer, after) => (x.render after rest).behind (answer.getD (d.wrap expression))

/-- Putting segments together again gives the same output as a whole. -/
theorem Expander.fillSegments_eq_whole (x : Expander) (s : Session) (segments : List Segment) :
    x.fillSegments s segments = (x.render s segments).whole := by
  induction segments generalizing s with
  | nil => rfl
  | cons segment rest ih =>
      cases segment with
      | literal text =>
          rw [fillSegments, render, Rendering.whole_behind, ih]
          cases (x.render s rest).whole <;> rfl
      | placeholder d expression =>
          rw [fillSegments, render]
          cases x.resolve s expression with
          | none => rfl
          | some resolved =>
              obtain ⟨result, after⟩ := resolved
              cases result with
              | error failure => rfl
              | ok answer =>
                  simp only [Option.bind_eq_bind, Option.bind_some, ih, Rendering.whole_behind]
                  cases (x.render after rest).whole <;> rfl

/-- Without any delimiter every segment is the characters it covers. -/
theorem FilterRules.first_of_no_match {rules : FilterRules}
    (hNone : ∀ window, rules.markup.delimiters.longestMatch window = none) (c : Char) (rest : Text) :
    ∃ front, (rules.first c rest).1 = .literal front ∧
      c :: rest = front ++ (rules.first c rest).2 := by
  have hPlaceholder : rules.placeholderAt (c :: rest) = none := by
    simp only [placeholderAt, Markup.placeholderAt, hNone, Option.filter_none]
  rw [first]
  cases hEscaped : rules.markup.escapedAt (c :: rest) with
  | none =>
      rw [hPlaceholder]
      exact ⟨[c], rfl, rfl⟩
  | some cut =>
      exact Markup.append_of_escapedAt hEscaped fun after _ => hNone after

/-- Without any delimiter a text passes as it is, whatever is escaped. -/
theorem Expander.render_cut_of_no_match {rules : FilterRules}
    (hNone : ∀ window, rules.markup.delimiters.longestMatch window = none) (x : Expander)
    (s : Session) (text : Text) : x.render s (rules.cut text) = ⟨text, .ended s⟩ := by
  induction text using FilterRules.cut.induct rules with
  | case1 => rw [FilterRules.cut_nil, render]
  | case2 c rest ih =>
      obtain ⟨front, hFirst, hText⟩ := FilterRules.first_of_no_match hNone c rest
      rw [FilterRules.cut_cons, hFirst, render, ih, Rendering.behind, ← hText]

end Placeholder
