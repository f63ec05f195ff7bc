import Placeholder.Proofs.Filter.Deciding
/-!
The segments that a filter makes of a text, with any window, up to where the text ends or a failure is
met that cuts the window off. What they turn into is the output of the filter. A text that is cut off
has the segments that every longer one begins with.
-/
namespace Placeholder

/-- What is seen, as segments. A token is read as a text of its own. -/
def Sight.segments (markup : Markup) : Sight → List Segment
  | .ended => []
  | .literal text => [.literal text]
  | .escaped text _ => [.literal text]
  | .placeholder token _ => markup.segments token

namespace FilterRules

variable {rules : FilterRules} {text : Text} {stop : Option Failure} {sight : Sight}

/-- Behind what is seen there is less to read. -/
theorem drop_length (h : rules.shown text stop = .ok sight) (hGoesOn : sight ≠ .ended) :
    (text.drop sight.extent).length < text.length := by
  have hPos := (Sight.seen_of_shown h).extent_pos hGoesOn
  have hFits := extent_of_shown h
  rw [List.length_take] at hFits
  rw [List.length_drop]
  omega

/-- The segments of a text that stops like this. -/
def pieces (rules : FilterRules) (text : Text) (stop : Option Failure) : List Segment :=
  match _hShown : rules.shown text stop with
  | .error _ => []
  | .ok sight =>
    if _hEnded : sight = .ended then []
    else sight.segments rules.markup ++ rules.pieces (text.drop sight.extent) stop
termination_by text.length
decreasing_by
  exact drop_length _hShown _hEnded

theorem pieces_of_error {failure : Failure} (h : rules.shown text stop = .error failure) :
    rules.pieces text stop = [] := by
  rw [pieces]
  split
  · rfl
  · rename_i hShown
    rw [h] at hShown
    cases hShown

theorem pieces_of_ended (h : rules.shown text stop = .ok .ended) : rules.pieces text stop = [] := by
  rw [pieces]
  split
  · rfl
  · rename_i hShown
    rw [h] at hShown
    cases hShown
    rfl

theorem pieces_of_shown (h : rules.shown text stop = .ok sight) (hGoesOn : sight ≠ .ended) :
    rules.pieces text stop =
      sight.segments rules.markup ++ rules.pieces (text.drop sight.extent) stop := by
  rw [pieces]
  split
  · rename_i hShown
    rw [h] at hShown
    cases hShown
  · rename_i hShown
    rw [h] at hShown
    obtain rfl := Except.ok.inj hShown
    rw [dif_neg hGoesOn]

theorem pieces_nil (rules : FilterRules) : rules.pieces [] none = [] := by
  apply pieces_of_ended
  rw [shown_none, List.take_nil]
  rfl

/-- Behind the window nothing is seen. -/
theorem shown_of_reach (h : rules.reach ≤ text.length) (rest : Text) (stop : Option Failure) :
    rules.shown (text ++ rest) stop = rules.shown text none := by
  rw [shown, shown, Lookahead.cutOff, if_neg (by rw [List.length_append]; omega), Lookahead.cutOff,
    ite_self, List.take_append_of_le_length h]

/-- What is seen of a text that is cut off is seen however it goes on. -/
theorem shown_append {failure : Failure} (h : rules.shown text (some failure) = .ok sight)
    (more : Text) (stop : Option Failure) : rules.shown (text ++ more) stop = .ok sight := by
  -- Only a window that is not full is cut off.
  by_cases hReach : rules.reach ≤ text.length
  · have hSame := shown_of_reach hReach [] (some failure)
    rw [List.append_nil] at hSame
    rw [shown_of_reach hReach, ← hSame, h]
  · rw [shown, Lookahead.cutOff, if_pos (by omega), List.take_of_length_le (by omega)] at h
    rw [shown, List.take_append, List.take_of_length_le (by omega)]
    exact Sight.shown_append h _ _

/-- A text that is cut off has the segments that it begins with however it goes on. -/
theorem pieces_prefix (rules : FilterRules) (text : Text) (failure : Failure) (more : Text)
    (stop : Option Failure) : rules.pieces text (some failure) <+: rules.pieces (text ++ more) stop := by
  induction hLeft : text.length using Nat.strongRecOn generalizing text with
  | ind n ih =>
      subst hLeft
      cases hShown : rules.shown text (some failure) with
      | error met =>
          rw [pieces_of_error hShown]
          exact List.nil_prefix
      | ok sight =>
          by_cases hEnded : sight = .ended
          · subst hEnded
            rw [pieces_of_ended hShown]
            exact List.nil_prefix
          · have hFits := extent_of_shown hShown
            rw [List.length_take] at hFits
            rw [pieces_of_shown hShown hEnded, pieces_of_shown (shown_append hShown more stop) hEnded,
              List.drop_append_of_le_length (by omega)]
            apply (List.prefix_append_right_inj _).mpr
            exact ih _ (drop_length hShown hEnded) _ rfl

end FilterRules

/-- More segments have no influence on what those in front of them turn into. -/
theorem Expander.render_prefix (x : Expander) (s : Session) (front back : List Segment) :
    (x.render s front).text <+: (x.render s (front ++ back)).text := by
  induction front generalizing s with
  | nil => exact List.nil_prefix
  | cons segment front ih =>
      rw [List.cons_append]
      cases segment with
      | literal text => exact (List.prefix_append_right_inj text).mpr (ih s)
      | placeholder d expression =>
          rw [render, render]
          cases x.resolve s expression with
          | none => exact List.nil_prefix
          | some resolved =>
              obtain ⟨result, after⟩ := resolved
              cases result with
              | error failure => exact List.nil_prefix
              | ok answer => exact (List.prefix_append_right_inj _).mpr (ih after)

/-- The output, if what is read for it is cut off by this failure. -/
def Rendering.brokenOff (r : Rendering) (failure? : Option Failure) : Rendering :=
  match r.stop, failure? with
  | .ended session, some failure => ⟨r.text, .failed failure session⟩
  | _, _ => r

theorem Rendering.brokenOff_none (r : Rendering) : r.brokenOff none = r := by
  obtain ⟨text, stop⟩ := r
  cases stop <;> rfl

theorem Rendering.text_brokenOff (r : Rendering) (failure? : Option Failure) :
    (r.brokenOff failure?).text = r.text := by
  obtain ⟨text, stop⟩ := r
  cases stop <;> cases failure? <;> rfl

theorem Rendering.brokenOff_behind (r : Rendering) (front : Text) (failure? : Option Failure) :
    (r.behind front).brokenOff failure? = (r.brokenOff failure?).behind front := by
  obtain ⟨text, stop⟩ := r
  cases stop <;> cases failure? <;> rfl

namespace FilterStream

variable {f : FilterStream} {text : Text} {stop : Option Failure} {sight : Sight}

/-- What is seen turns into what is decided on it. -/
theorem render_segments (hShown : f.rules.shown text stop = .ok sight)
    (later : List Segment) (hGoesOn : sight ≠ .ended) :
    f.expander.render f.session (sight.segments f.expander.markup ++ later) =
      match f.verdict sight with
      | none => ⟨[], .endless⟩
      | some (.error failure, session) => ⟨[], .failed failure session⟩
      | some (.ok decision, session) =>
        (f.expander.render session later).behind decision.text := by
  cases sight with
  | ended => exact absurd rfl hGoesOn
  | literal text => rfl
  | escaped text consumed => rfl
  | placeholder token expression =>
      obtain ⟨d, rfl, hAlone⟩ := (Sight.seen_of_shown hShown).segments_token
      have hSegments : f.expander.markup.segments (d.wrap expression) =
          [.placeholder d expression] := hAlone
      rw [Sight.segments, hSegments, verdict, List.singleton_append, Expander.render]
      cases f.expander.resolve f.session expression with
      | none => rfl
      | some resolved =>
          obtain ⟨answer, session⟩ := resolved
          cases answer <;> rfl

/-- What is handed out behind a scan, and then what follows. -/
theorem Faces.flows_behind (h : f.Faces text stop) {decision : Decision} {input : Lookahead}
    {session : Session} {out : Rendering}
    (hScan : f.scan = some (.ok (), f.behind decision input session))
    (hFlows : Flows { f.behind decision input session with pending := [] } out) :
    f.Flows (out.behind decision.text) :=
  have hHandOut : (f.behind decision input session).Flows (out.behind decision.text) :=
    hFlows.behind_pending h.sound
  hHandOut.of_scan h.sound h.drained h.goesOn hScan h.sound

/-- What a filter in front of a text is to give: what the segments of the text turn into. -/
def promised (f : FilterStream) (text : Text) (stop : Option Failure) : Rendering :=
  (f.expander.render f.session (f.rules.pieces text stop)).brokenOff stop

/-- Where something is seen, what follows it decides on the rest. -/
theorem Faces.flows_of_shown (h : f.Faces text stop) (hShown : f.rules.shown text stop = .ok sight)
    (hGoesOn : sight ≠ .ended)
    (hLater : ∀ g : FilterStream, g.Faces (text.drop sight.extent) stop →
      g.Flows (g.promised (text.drop sight.extent) stop)) :
    f.Flows (f.promised text stop) := by
  have hScans := h.scan
  have hRender := f.render_segments hShown (f.rules.pieces (text.drop sight.extent) stop) hGoesOn
  rw [judged, hShown, judgedOn] at hScans
  rw [promised, FilterRules.pieces_of_shown hShown hGoesOn]
  show f.Flows ((f.expander.render f.session (sight.segments f.expander.markup ++ _)).brokenOff stop)
  rw [hRender]
  cases hVerdict : f.verdict sight with
  | none =>
      rw [hVerdict] at hScans
      exact flows_of_endless h.sound h.drained h.goesOn hScans
  | some judged =>
      obtain ⟨result, session⟩ := judged
      cases result with
      | error failure =>
          rw [hVerdict] at hScans
          obtain ⟨input, hScan⟩ := hScans
          have hFlows := flows_of_failed h.sound h.drained h.goesOn hScan
          cases stop <;> exact hFlows
      | ok decision =>
          obtain ⟨hCount, hEnded⟩ := count_of_verdict hVerdict
          rw [hVerdict] at hScans
          obtain ⟨input, hScan, hCourse⟩ := hScans
          rw [hCount] at hCourse
          have hFaces := h.behind (fun hSame => hGoesOn (hEnded.mp hSame)) hCourse session
          simp only [Rendering.brokenOff_behind]
          exact h.flows_behind hScan (hLater _ hFaces)

/-- A filter in front of a text gives what the segments of this text turn into. -/
theorem Faces.flows (h : f.Faces text stop) : f.Flows (f.promised text stop) := by
  induction hLeft : text.length using Nat.strongRecOn generalizing f text with
  | ind n ih =>
      subst hLeft
      cases hShown : f.rules.shown text stop with
      | error failure =>
          have hScans := h.scan
          rw [judged, hShown] at hScans
          obtain ⟨input, hScan⟩ := hScans
          have hFlows := flows_of_failed h.sound h.drained h.goesOn hScan
          rw [promised, FilterRules.pieces_of_error hShown, FilterRules.stop_of_error hShown]
          exact hFlows
      | ok sight =>
          by_cases hEnded : sight = .ended
          · subst hEnded
            have hScans := h.scan
            rw [judged, hShown] at hScans
            obtain ⟨input, hScan, _⟩ := hScans
            obtain ⟨rfl, rfl⟩ := FilterRules.stop_of_ended h.reach hShown
            rw [promised, FilterRules.pieces_of_ended hShown]
            have hFlows := flows_of_ended (f := f.behind .ended input f.session) rfl rfl h.sound
            exact hFlows.of_scan h.sound h.drained h.goesOn hScan h.sound
          · apply h.flows_of_shown hShown hEnded
            intro g hFaces
            exact ih _ (FilterRules.drop_length hShown hEnded) hFaces rfl

/-- A new filter gives what the segments of its input turn into. -/
theorem faces_of_make {options : FilterOptions} {x : Expander} {s : Session} {reader : TextReader}
    (hCourse : reader.Course text stop) (hMake : make options x s reader = .ok f) :
    f.Faces text stop := by
  obtain ⟨markup, _, rfl⟩ := eq_of_make hMake
  exact ⟨hCourse.marked _, options.reach_pos markup, rfl, rfl, rfl⟩

/-- Filtering a text in memory puts together what its segments turn into, with any window. -/
theorem filterText_eq_fillSegments {options : FilterOptions} {markup : Markup}
    (hMeasured : options.measured = .ok markup) (x : Expander) (s : Session) (text : Text) :
    filterText options x s text =
      ({ x with markup := markup } : Expander).fillSegments s.onEmptyChain
        ((options.rules markup).pieces text none) := by
  have hGives := TextReader.gives_text text
  obtain ⟨f, hMake⟩ := exists_make hMeasured x s.onEmptyChain
    (.ofFeed (.ofBytes (Utf8.encodeText text)))
  have hFlows := (faces_of_make hGives.course hMake).flows
  obtain ⟨other, hOther, rfl⟩ := eq_of_make hMake
  obtain rfl := Except.ok.inj (hMeasured.symm.trans hOther)
  rw [hFlows.filterText hMake, promised, Rendering.brokenOff_none,
    ← Expander.fillSegments_eq_whole]
  rfl

end FilterStream

end Placeholder
