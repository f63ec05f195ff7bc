import Placeholder.Proofs.Filter.Finding
import Placeholder.Proofs.Filter.Output
/-!
A scan in front of a text. What is decided follows from what the window shows and from the answer, if
one is asked for; carrying it out leaves the filter in front of what comes behind the characters it
was decided on.
-/
namespace Placeholder

/-- What the next scan sees in front of a text that stops like this. -/
def FilterRules.shown (rules : FilterRules) (text : Text) (stop : Option Failure) :
    Except Failure Sight :=
  Sight.shown rules.markup rules.multiLine (Lookahead.cutOff rules.reach text stop)
    (text.take rules.reach)

namespace FilterRules

variable {rules : FilterRules} {text : Text} {stop : Option Failure} {sight : Sight}

/-- Nothing cuts a window off in front of a text that ends. -/
theorem shown_none (rules : FilterRules) (text : Text) :
    rules.shown text none =
      Sight.shown rules.markup rules.multiLine none (text.take rules.reach) := by
  rw [shown, Lookahead.cutOff, ite_self]

theorem extent_of_shown (h : rules.shown text stop = .ok sight) :
    sight.extent ≤ (text.take rules.reach).length :=
  (Sight.seen_of_shown h).extent_le

/-- A look fails where the window is cut off. -/
theorem stop_of_error {failure : Failure} (h : rules.shown text stop = .error failure) :
    stop = some failure := by
  have hCut := Sight.cut_of_shown h
  rw [Lookahead.cutOff] at hCut
  split at hCut
  · exact hCut
  · cases hCut

/-- The end is seen at the end of a text that nothing cuts off. -/
theorem stop_of_ended (hReach : 0 < rules.reach) (h : rules.shown text stop = .ok .ended) :
    text = [] ∧ stop = none := by
  have hWindow := (Sight.seen_of_shown h).window_nil
  obtain rfl := (List.take_eq_nil_iff.mp hWindow).resolve_left (by omega)
  rw [shown, List.take_nil, Sight.shown, Lookahead.cutOff, List.length_nil, if_pos hReach] at h
  refine ⟨rfl, ?_⟩
  obtain ⟨hEnough, _⟩ := Sight.of_needing h
  exact hEnough

end FilterRules

/-- The characters that a decision has handed out. -/
def Decision.text : Decision → Text
  | ended => []
  | pass text => text
  | replace text _ => text

namespace FilterStream

/-- The filter is about to scan, and this is what its input gives. -/
structure Faces (f : FilterStream) (text : Text) (stop : Option Failure) : Prop where
  course : f.input.reader.Course text stop
  reach : 0 < f.reach
  drained : f.pending = []
  goesOn : f.ended = false
  sound : f.poisoned = false

/-- What the filter looks for. -/
def rules (f : FilterStream) : FilterRules := ⟨f.expander.markup, f.reach, f.multiLine⟩

/-- What is decided on what is seen, and the session behind the answer. -/
def verdict (f : FilterStream) : Sight → Option (Except Failure Decision × Session)
  | .ended => some (.ok .ended, f.session)
  | .literal text => some (.ok (.pass text), f.session)
  | .escaped text consumed => some (.ok (.replace text consumed), f.session)
  | .placeholder token expression =>
    (f.expander.resolve f.session expression).map fun resolved =>
      (resolved.1.map fun value => .replace (value.getD token) token.length, resolved.2)

/-- What is decided when a look comes to this. -/
def judgedOn (f : FilterStream) : Except Failure Sight → Option (Except Failure Decision × Session)
  | .error failure => some (.error failure, f.session)
  | .ok sight => f.verdict sight

/-- What is decided in front of this text. -/
def judged (f : FilterStream) (text : Text) (stop : Option Failure) :
    Option (Except Failure Decision × Session) :=
  f.judgedOn (f.rules.shown text stop)

/-- The filter behind a decision. -/
def behind (f : FilterStream) (decision : Decision) (input : Lookahead) (session : Session) :
    FilterStream :=
  { f with
    input := input
    session := session
    pending := decision.text
    ended := decision = .ended }

variable {f : FilterStream} {text : Text} {stop : Option Failure}

/-- Looking finds what is in reach of the text to come. -/
theorem look_finds {f : FilterStream} {text : Text} {stop : Option Failure}
    (h : f.input.reader.Course text stop) :
    Sight.Finds text stop f.reach (f.rules.shown text stop) f.look :=
  Sight.ofInput_finds f.expander.markup f.multiLine (Lookahead.amid_mark h f.reach)

/-- A token that a filter sees is one placeholder, with just this expression. -/
theorem segments_of_look (f : FilterStream) {token expression : Text}
    (h : f.look.1 = .ok (.placeholder token expression)) :
    ∃ d : Delimiter, token = d.wrap expression ∧
      f.expander.markup.segments token = [.placeholder d expression] := by
  obtain ⟨text, stop, hCourse⟩ := f.input.reader.exists_course
  have hFinds := (look_finds hCourse).1
  rw [h] at hFinds
  exact (Sight.seen_of_shown hFinds.symm).segments_token

/-- The decision on a placeholder, from the answer to it. -/
theorem decide_placeholder {f : FilterStream} {token expression : Text} {input : Lookahead}
    (h : f.look = (.ok (.placeholder token expression), input)) :
    decide { f with input := f.input.mark f.reach } =
      ((f.answer token expression).map fun answered =>
        (answered.1.map (·.getD token), answered.2)).map fun filled =>
          (filled.1.map (.replace · token.length),
            { f with input := input, session := filled.2 }) := by
  rw [look] at h
  simp only [decide, h, answer_of_input]
  cases f.answer token expression with
  | none => rfl
  | some answered =>
      obtain ⟨result, session⟩ := answered
      cases result <;> rfl

/-- A decision is what the look comes to. -/
theorem decide_of_look {result : Except Failure Sight} {input : Lookahead}
    (h : f.look = (result, input)) :
    decide { f with input := f.input.mark f.reach } =
      (f.judgedOn result).map fun judged =>
        (judged.1, { f with input := input, session := judged.2 }) := by
  cases result with
  | error failure =>
      rw [look] at h
      simp only [decide, h, judgedOn, Option.map_some]
  | ok sight =>
      cases sight with
      | placeholder token expression =>
          obtain ⟨d, rfl, hAlone⟩ := f.segments_of_look (congrArg Prod.fst h)
          rw [decide_placeholder h, answer_eq hAlone, judgedOn, verdict]
          cases f.expander.resolve f.session expression with
          | none => rfl
          | some resolved =>
              obtain ⟨answer, session⟩ := resolved
              cases answer <;> rfl
      | _ =>
          rw [look] at h
          simp only [decide, h, judgedOn, verdict, Option.map_some]

/-- A scan looks, decides and makes the decision good. -/
theorem exists_judged_of_scan {result : Except Failure Unit} {after : FilterStream}
    (h : f.scan = some (result, after)) :
    ∃ decided session, f.judgedOn f.look.1 = some (decided, session) ∧
      FilterStream.carryOut { f with input := f.look.2, session := session } decided =
        (result, after) := by
  have hDecide : decide { f with input := f.input.mark f.reach } =
      (f.judgedOn f.look.1).map fun judged =>
        (judged.1, { f with input := f.look.2, session := judged.2 }) :=
    decide_of_look rfl
  rw [scan, hDecide] at h
  cases hJudged : f.judgedOn f.look.1 with
  | none =>
      rw [hJudged] at h
      cases h
  | some judged =>
      rw [hJudged] at h
      exact ⟨judged.1, judged.2, rfl, Option.some.inj h⟩

/-- What making a decision good leaves as it is. -/
theorem same_of_carryOut (f : FilterStream) (result : Except Failure Decision) :
    (f.carryOut result).2.session = f.session ∧ (f.carryOut result).2.expander = f.expander ∧
      (f.carryOut result).2.multiLine = f.multiLine ∧ (f.carryOut result).2.reach = f.reach := by
  have hSettle : ∀ text count, (f.settle text count).2.session = f.session ∧
      (f.settle text count).2.expander = f.expander ∧
      (f.settle text count).2.multiLine = f.multiLine ∧
      (f.settle text count).2.reach = f.reach := by
    intro text count
    rw [settle]
    split <;> exact ⟨rfl, rfl, rfl, rfl⟩
  cases result with
  | error failure => exact ⟨rfl, rfl, rfl, rfl⟩
  | ok decision =>
      cases decision with
      | ended => exact ⟨rfl, rfl, rfl, rfl⟩
      | pass text => exact hSettle text text.length
      | replace text consumed => exact hSettle text consumed

theorem count_of_verdict {sight : Sight} {decision : Decision} {session : Session}
    (h : f.verdict sight = some (.ok decision, session)) :
    decision.count = sight.extent ∧ (decision = .ended ↔ sight = .ended) := by
  cases sight with
  | ended =>
      cases h
      simp [Decision.count, Sight.extent]
  | literal text =>
      cases h
      simp [Decision.count, Sight.extent]
  | escaped text consumed =>
      cases h
      simp [Decision.count, Sight.extent]
  | placeholder token expression =>
      obtain ⟨⟨answer, after⟩, _, hSame⟩ := Option.map_eq_some_iff.mp h
      cases answer with
      | error failure => cases hSame
      | ok value =>
          cases hSame
          simp [Decision.count, Sight.extent]

theorem exists_sight_of_judged {decision : Decision} {session : Session}
    (h : f.judged text stop = some (.ok decision, session)) :
    ∃ sight, f.rules.shown text stop = .ok sight ∧ f.verdict sight = some (.ok decision, session) := by
  rw [judged] at h
  cases hShown : f.rules.shown text stop with
  | error failure =>
      rw [hShown] at h
      cases h
  | ok sight =>
      rw [hShown] at h
      exact ⟨sight, rfl, h⟩

/-- A decision takes characters of the window, and some unless the text is at its end. -/
theorem count_of_judged (hReach : 0 < f.reach) {decision : Decision} {session : Session}
    (h : f.judged text stop = some (.ok decision, session)) :
    decision.count ≤ (text.take f.reach).length ∧
      (decision = .ended ∧ text = [] ∨ decision ≠ .ended ∧ 0 < decision.count) := by
  obtain ⟨sight, hShown, hVerdict⟩ := exists_sight_of_judged h
  obtain ⟨hCount, hEnded⟩ := count_of_verdict hVerdict
  have hSeen := Sight.seen_of_shown hShown
  refine ⟨hCount ▸ hSeen.extent_le, ?_⟩
  by_cases hSight : sight = .ended
  · subst hSight
    exact .inl ⟨hEnded.mpr rfl, (FilterRules.stop_of_ended hReach hShown).1⟩
  · exact .inr ⟨fun hSame => hSight (hEnded.mp hSame), hCount ▸ hSeen.extent_pos hSight⟩

theorem carryOut_of_ne_ended {decision : Decision} (h : decision ≠ .ended) :
    f.carryOut (.ok decision) = f.settle decision.text decision.count := by
  cases decision with
  | ended => exact absurd rfl h
  | pass text => rfl
  | replace text consumed => rfl

theorem Faces.decide (h : f.Faces text stop) :
    decide { f with input := f.input.mark f.reach } =
      (f.judged text stop).map fun judged =>
        (judged.1, { f with input := f.look.2, session := judged.2 }) := by
  rw [judged, ← (look_finds h.course).1]
  exact decide_of_look rfl

/-- What a scan comes to in front of a text. -/
theorem Faces.scan (h : f.Faces text stop) :
    match f.judged text stop with
    | none => f.scan = none
    | some (.error failure, session) =>
      ∃ input, f.scan = some (.error failure, { f with input := input, session := session })
    | some (.ok decision, session) =>
      ∃ input, f.scan = some (.ok (), f.behind decision input session) ∧
        input.reader.Course (text.drop decision.count) stop := by
  have hDecide := h.decide
  cases hJudged : f.judged text stop with
  | none =>
      rw [hJudged, Option.map_none] at hDecide
      rw [FilterStream.scan, hDecide]
      rfl
  | some judged =>
      obtain ⟨result, session⟩ := judged
      rw [hJudged, Option.map_some] at hDecide
      have hScan := scan_of_decide hDecide
      cases result with
      | error failure => exact ⟨f.look.2, hScan⟩
      | ok decision =>
          obtain ⟨sight, hSight, _⟩ := exists_sight_of_judged hJudged
          obtain ⟨taken, hAmid, hLimit⟩ := (look_finds h.course).2 sight hSight
          obtain ⟨hFits, hCases⟩ := count_of_judged h.reach hJudged
          rw [hScan]
          rcases hCases with ⟨rfl, rfl⟩ | ⟨hGoesOn, _⟩
          · have hCourse := hAmid.course
            rw [List.drop_nil] at hCourse
            refine ⟨f.look.2, ?_, hCourse⟩
            rw [behind, Decision.text, ← h.drained]
            rfl
          · obtain ⟨after, hConsume, hCourse⟩ := hAmid.consume decision.count (hLimit ▸ hFits)
            refine ⟨after, ?_, hCourse⟩
            rw [carryOut_of_ne_ended hGoesOn, settle, hConsume, behind, decide_eq_false hGoesOn,
              ← h.goesOn]

/-- Behind a decision whose characters are handed out, the filter scans again. -/
theorem Faces.behind (h : f.Faces text stop) {decision : Decision} (hGoesOn : decision ≠ .ended)
    {input : Lookahead} {rest : Text} (hCourse : input.reader.Course rest stop)
    (session : Session) :
    Faces { f.behind decision input session with pending := [] } rest stop :=
  ⟨hCourse, h.reach, rfl, decide_eq_false hGoesOn, h.sound⟩

end FilterStream

end Placeholder
