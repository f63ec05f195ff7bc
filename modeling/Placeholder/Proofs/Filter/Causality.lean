import Placeholder.Proofs.Filter.Pieces
import Placeholder.Proofs.Reading.Beginning
/-!
A filter decides on what lies within its reach. Two inputs that begin with the same text are decided on
alike as long as the window lies in that text, however they go on: with other characters, with bytes
that are no text, with the end of the input or with a failure. And what was handed out before an input
broke off is the front of what every other continuation gives.
-/
namespace Placeholder

/-- How many characters of the input some decisions use up. -/
def Decision.covered : List Decision → Nat
  | [] => 0
  | decision :: later => decision.count + covered later

/-- The characters that some decisions have handed out. -/
def Decision.given (decisions : List Decision) : Text :=
  decisions.flatMap text

namespace FilterStream

/-- What the next scan decides, and the session behind the answer. -/
def decision (f : FilterStream) : Option (Except Failure Decision × Session) :=
  (decide { f with input := f.input.mark f.reach }).map fun decided =>
    (decided.1, decided.2.session)

/-- From one scan to another: these decisions were made and made good in between, one after the other,
and their characters handed out. -/
inductive Scans : FilterStream → List Decision → FilterStream → Prop
  | here {f : FilterStream} : Scans f [] f
  | scan {f next g : FilterStream} {decision : Decision} {session : Session}
      {later : List Decision} (hSound : f.poisoned = false) (hPending : f.pending = [])
      (hEnded : f.ended = false) (hDecision : f.decision = some (.ok decision, session))
      (hScan : f.scan = some (.ok (), next)) (hLater : Scans { next with pending := [] } later g) :
      Scans f (decision :: later) g

variable {f f' g : FilterStream} {text : Text} {stop : Option Failure} {decisions : List Decision}

theorem Faces.decision (h : f.Faces text stop) : f.decision = f.judged text stop := by
  rw [FilterStream.decision, h.decide, Option.map_map]
  exact Option.map_id_apply

/-- What a scan comes to that makes a decision good. -/
theorem Faces.eq_behind (h : f.Faces text stop) {decision : Decision} {session : Session}
    {next : FilterStream} (hDecision : f.decision = some (.ok decision, session))
    (hScan : f.scan = some (.ok (), next)) :
    ∃ input, next = f.behind decision input session ∧
      input.reader.Course (text.drop decision.count) stop := by
  have hScans := h.scan
  rw [← h.decision, hDecision] at hScans
  obtain ⟨input, hScanned, hCourse⟩ := hScans
  obtain ⟨_, rfl⟩ := Prod.mk.inj (Option.some.inj (hScan.symm.trans hScanned))
  exact ⟨input, rfl, hCourse⟩

/-- What was decided on the way comes first, and then the output from there. -/
theorem Scans.flows {out : Rendering} (h : f.Scans decisions g) (hReach : 0 < f.reach)
    (hFlows : g.Flows out) : f.Flows (out.behind (Decision.given decisions)) := by
  induction h with
  | here => exact hFlows
  | scan hSound hPending hEnded hDecision hScan _ ih =>
      rename_i f next g decision session later _
      -- Whatever the reader gives, it gives something that the filter is in front of.
      obtain ⟨text, stop, hCourse⟩ := f.input.reader.exists_course
      have hFaces : f.Faces text stop := ⟨hCourse, hReach, hPending, hEnded, hSound⟩
      obtain ⟨input, rfl, _⟩ := hFaces.eq_behind hDecision hScan
      have hLater := hFaces.flows_behind hScan (ih hReach hFlows)
      rwa [Rendering.behind_behind] at hLater

/-- Two filters of one kind with the same session are in front of inputs that begin with the same
text. -/
structure Abreast (f f' : FilterStream) (text : Text) : Prop where
  left : ∃ rest stop, f.Faces (text ++ rest) stop
  right : ∃ rest stop, f'.Faces (text ++ rest) stop
  expander : f'.expander = f.expander
  multiLine : f'.multiLine = f.multiLine
  reach : f'.reach = f.reach
  session : f'.session = f.session

theorem Abreast.rules (h : f.Abreast f' text) : f'.rules = f.rules := by
  rw [FilterStream.rules, FilterStream.rules, h.expander, h.reach, h.multiLine]

theorem Abreast.decision (h : f.Abreast f' text) (hReach : f.reach ≤ text.length) :
    f'.decision = f.decision := by
  obtain ⟨rest, stop, hLeft⟩ := h.left
  obtain ⟨rest', stop', hRight⟩ := h.right
  have hVerdict : f'.verdict = f.verdict := by
    funext sight
    cases sight <;> simp only [verdict, h.expander, h.session]
  rw [hLeft.decision, hRight.decision, judged, judged, h.rules,
    FilterRules.shown_of_reach hReach, FilterRules.shown_of_reach hReach]
  cases f.rules.shown text none with
  | error failure => simp only [judgedOn, h.session]
  | ok sight => exact congrFun hVerdict sight

/-- A scan whose window lies in the text is made on both sides, and decides on characters of it. -/
theorem Abreast.scan (h : f.Abreast f' text) (hReach : f.reach ≤ text.length) {decision : Decision}
    {session : Session} {next : FilterStream} (hDecision : f.decision = some (.ok decision, session))
    (hScan : f.scan = some (.ok (), next)) :
    ∃ next' : FilterStream, f'.scan = some (.ok (), next') ∧ next.reach = f.reach ∧
      Abreast { next with pending := [] } { next' with pending := [] } (text.drop decision.count) := by
  have hOther := (h.decision hReach).trans hDecision
  obtain ⟨rest, stop, hLeft⟩ := h.left
  obtain ⟨rest', stop', hRight⟩ := h.right
  obtain ⟨hFits, hCases⟩ := count_of_judged hLeft.reach (hLeft.decision.symm.trans hDecision)
  -- The window is full of the text, so the end of the input is not seen here.
  have hGoesOn : decision ≠ .ended := by
    rcases hCases with ⟨_, hNil⟩ | ⟨hGoesOn, _⟩
    · have hPos := hLeft.reach
      obtain ⟨rfl, _⟩ := List.append_eq_nil_iff.mp hNil
      exact absurd hReach (by rw [List.length_nil]; omega)
    · exact hGoesOn
  rw [List.length_take] at hFits
  have hDrop : ∀ more, (text ++ more).drop decision.count = text.drop decision.count ++ more :=
    fun more => List.drop_append_of_le_length (by omega)
  obtain ⟨input, rfl, hCourse⟩ := hLeft.eq_behind hDecision hScan
  have hScans := hRight.scan
  rw [← hRight.decision, hOther] at hScans
  obtain ⟨input', hScan', hCourse'⟩ := hScans
  rw [hDrop] at hCourse hCourse'
  exact ⟨_, hScan', rfl, ⟨rest, stop, hLeft.behind hGoesOn hCourse session⟩,
    ⟨rest', stop', hRight.behind hGoesOn hCourse' session⟩, h.expander, h.multiLine, h.reach, rfl⟩

/-- So are all scans up to the last whose window lies in the text. -/
theorem Abreast.scans (h : f.Abreast f' text) (hScans : f.Scans decisions g)
    (hReach : Decision.covered decisions + f.reach ≤ text.length) :
    ∃ g', f'.Scans decisions g' ∧ g.reach = f.reach ∧
      g.Abreast g' (text.drop (Decision.covered decisions)) := by
  induction hScans generalizing f' text with
  | here => exact ⟨f', .here, rfl, h⟩
  | scan hSound hPending hEnded hDecision hScan _ ih =>
      rename_i f next g decision session later _
      rw [Decision.covered] at hReach ⊢
      have hOther := h.decision (by omega)
      obtain ⟨next', hScan', hSame, hNext⟩ := h.scan (by omega) hDecision hScan
      obtain ⟨g', hScans', hThere, hLater⟩ := ih hNext (by
        rw [List.length_drop]
        show _ + next.reach ≤ _
        omega)
      obtain ⟨_, _, hRight⟩ := h.right
      refine ⟨g', ?_, hThere.trans hSame, by rwa [List.drop_drop] at hLater⟩
      exact .scan hRight.sound hRight.drained hRight.goesOn (hOther.trans hDecision) hScan' hScans'

/-- How a decision shows in an output, behind what was given before it. -/
def Shows (out : Rendering) (given : Text) : Option (Except Failure Decision × Session) → Prop
  | none => out = ⟨given, .endless⟩
  | some (.error failure, session) => out = ⟨given, .failed failure session⟩
  | some (.ok decision, _) => given ++ decision.text <+: out.text

theorem Faces.shows {later : Rendering} (h : f.Faces text stop) (hFlows : f.Flows later)
    (given : Text) : Shows (later.behind given) given f.decision := by
  have hScans := h.scan
  rw [h.decision]
  cases hJudged : f.judged text stop with
  | none =>
      rw [hJudged] at hScans
      rw [hFlows.unique (flows_of_endless h.sound h.drained h.goesOn hScans)]
      simp [Shows, Rendering.behind]
  | some judged =>
      obtain ⟨result, session⟩ := judged
      rw [hJudged] at hScans
      cases result with
      | error failure =>
          obtain ⟨input, hScan⟩ := hScans
          rw [hFlows.unique (flows_of_failed h.sound h.drained h.goesOn hScan)]
          simp [Shows, Rendering.behind]
      | ok decision =>
          obtain ⟨input, hScan, _⟩ := hScans
          obtain ⟨out, hOut⟩ :=
            exists_flows { f.behind decision input session with pending := [] } h.reach
          rw [hFlows.unique (h.flows_behind hScan hOut), Rendering.behind_behind]
          exact List.prefix_append _ _

theorem abreast_of_make {options : FilterOptions} {x : Expander} {s : Session}
    {reader reader' : TextReader} (hMake : make options x s reader = .ok f)
    (hMake' : make options x s reader' = .ok f')
    (hCourse : ∃ rest stop, reader.Course (text ++ rest) stop)
    (hCourse' : ∃ rest stop, reader'.Course (text ++ rest) stop) : f.Abreast f' text := by
  obtain ⟨rest, stop, hLeft⟩ := hCourse
  obtain ⟨rest', stop', hRight⟩ := hCourse'
  have hFaces := faces_of_make hLeft hMake
  have hFaces' := faces_of_make hRight hMake'
  obtain ⟨markup, hMarkup, rfl⟩ := eq_of_make hMake
  obtain ⟨other, hOther, rfl⟩ := eq_of_make hMake'
  obtain rfl := Except.ok.inj (hMarkup.symm.trans hOther)
  exact ⟨⟨rest, stop, hFaces⟩, ⟨rest', stop', hFaces'⟩, rfl, rfl, rfl, rfl⟩

/-- What is given before the input fails is the front of what is given however it goes on. -/
theorem Abreast.text_prefix {failure : Failure} {out out' : Rendering} (h : f.Abreast f' text)
    (hFails : f.Faces text (some failure)) (hFlows : f.Flows out) (hFlows' : f'.Flows out') :
    out.text <+: out'.text := by
  obtain ⟨rest', stop', hRight⟩ := h.right
  obtain ⟨more, hMore⟩ := f.rules.pieces_prefix text failure rest' stop'
  rw [hFlows.unique hFails.flows, hFlows'.unique hRight.flows, promised, promised,
    Rendering.text_brokenOff, Rendering.text_brokenOff, h.rules, h.expander, h.session, ← hMore]
  exact f.expander.render_prefix f.session _ more

/-- Two filters of one kind, on feeds that begin with the same text, decide alike as long as they look
no further than this text: the same decisions one after the other, each on the same characters, with
the same answers or failures of the sources and the same session. Both outputs show these decisions.
And if one feed fails behind some text that the other one begins with as well, what its filter gave
until then is the front of what the other one gives. -/
theorem decides_of_begins {options : FilterOptions} {x : Expander} {s : Session} {feed feed' : Feed}
    (hMake : make options x s (.ofFeed feed) = .ok f)
    (hMake' : make options x s (.ofFeed feed') = .ok f')
    (hBegins : feed.Begins text) (hBegins' : feed'.Begins text) :
    ∃ out out', f.Flows out ∧ f'.Flows out' ∧
      (∀ decisions g, f.Scans decisions g →
        Decision.covered decisions + f.reach ≤ text.length →
          ∃ g', f'.Scans decisions g' ∧ g'.session = g.session ∧ g'.decision = g.decision ∧
            Shows out (Decision.given decisions) g.decision ∧
            Shows out' (Decision.given decisions) g.decision) ∧
      ∀ whole failure, (TextReader.ofFeed feed).Course whole (some failure) → feed'.Begins whole →
        out.text <+: out'.text := by
  have hAbreast := abreast_of_make hMake hMake' hBegins.course hBegins'.course
  obtain ⟨_, _, hLeft⟩ := hAbreast.left
  obtain ⟨_, _, hRight⟩ := hAbreast.right
  obtain ⟨out, hFlows⟩ := f.exists_flows hLeft.reach
  obtain ⟨out', hFlows'⟩ := f'.exists_flows hRight.reach
  refine ⟨out, out', hFlows, hFlows', fun decisions g hScans hReach => ?_,
    fun whole failure hFails hAlso => ?_⟩
  · obtain ⟨g', hScans', hSame, hThere⟩ := hAbreast.scans hScans hReach
    have hDecision := hThere.decision (by rw [List.length_drop]; omega)
    obtain ⟨_, _, hHere⟩ := hThere.left
    obtain ⟨_, _, hHere'⟩ := hThere.right
    obtain ⟨later, hLater⟩ := g.exists_flows hHere.reach
    obtain ⟨later', hLater'⟩ := g'.exists_flows hHere'.reach
    refine ⟨g', hScans', hThere.session, hDecision, ?_, ?_⟩
    · rw [hFlows.unique (hScans.flows hLeft.reach hLater)]
      exact hHere.shows hLater _
    · rw [hFlows'.unique (hScans'.flows hRight.reach hLater'), ← hDecision]
      exact hHere'.shows hLater' _
  · have hWhole : f.Abreast f' whole :=
      abreast_of_make hMake hMake' ⟨[], some failure, by rwa [List.append_nil]⟩ hAlso.course
    exact hWhole.text_prefix (faces_of_make hFails hMake) hFlows hFlows'

/-- A feed that breaks off in an ill-formed sequence and one that fails and would go on, with a window
of four characters. -/
theorem decides_of_begins_broken_off :
    let options : FilterOptions := { FilterOptions.standard with maxExpression := 1 }
    let x : Expander := ⟨[.single ['a'] ['1']], [], .standard, true, false⟩
    let feed : Feed := ⟨[.bytes 0x40 [0x61, 0x40, 0x62], .bytes 0x63 [0x64, 0xFF]], .closed⟩
    let feed' : Feed := ⟨[.bytes 0x40 [0x61], .interrupted, .bytes 0x40 [0x62, 0x63, 0x64],
      .failed (.ofKind .other), .bytes 0x40 []], .closed⟩
    ∃ f f' : FilterStream, make options x (.fresh .empty) (.ofFeed feed) = .ok f ∧
      make options x (.fresh .empty) (.ofFeed feed') = .ok f' ∧
      ∃ out out', f.Flows out ∧ f'.Flows out' ∧
        (∀ decisions g, f.Scans decisions g →
          Decision.covered decisions + f.reach ≤ ['@', 'a', '@', 'b', 'c', 'd'].length →
            ∃ g', f'.Scans decisions g' ∧ g'.session = g.session ∧ g'.decision = g.decision ∧
              Shows out (Decision.given decisions) g.decision ∧
              Shows out' (Decision.given decisions) g.decision) ∧
        ∀ whole failure, (TextReader.ofFeed feed).Course whole (some failure) →
          feed'.Begins whole → out.text <+: out'.text := by
  intro options x feed feed'
  have hBegins : feed.Begins ['@', 'a', '@', 'b', 'c', 'd'] :=
    ⟨feed.deliveries, [], rfl, by simp [feed], by decide⟩
  have hBegins' : feed'.Begins ['@', 'a', '@', 'b', 'c', 'd'] :=
    ⟨feed'.deliveries.take 3, feed'.deliveries.drop 3, rfl, by simp [feed'], by decide⟩
  obtain ⟨f, hMake⟩ : ∃ f, make options x (.fresh .empty) (.ofFeed feed) = .ok f := ⟨_, rfl⟩
  obtain ⟨f', hMake'⟩ : ∃ f', make options x (.fresh .empty) (.ofFeed feed') = .ok f' := ⟨_, rfl⟩
  exact ⟨f, f', hMake, hMake', decides_of_begins hMake hMake' hBegins hBegins'⟩

end FilterStream

end Placeholder
