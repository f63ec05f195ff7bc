import Placeholder.Proofs.Expansion.Ending
import Placeholder.Proofs.Filter.Accounting
import Placeholder.Proofs.Filter.Bytes
import Placeholder.Proofs.Filter.Lines
/-!
What a copy of the whole output takes. It reads portions of bytes until a read gives none or fails; a
failure that is met behind some bytes waits for the read after that. So it takes the bytes of all
characters up to the end or to the first failure, which it then reports. A filter over sources with
finitely many answers always comes that far. It comes to the end exactly where the input is a text
that nothing cuts off and filtering that text in memory succeeds, and then both give the same.
-/
namespace Placeholder

/-- The feed hands out the bytes of this text and then closes; no request fails. -/
def Feed.Spells (feed : Feed) (text : Text) : Prop :=
  feed.Calm ∧ feed.content = Utf8.encodeText text

theorem Feed.spells_text (text : Text) : (ofBytes (Utf8.encodeText text)).Spells text :=
  ⟨calm_ofBytes _, content_ofBytes _⟩

theorem Feed.Spells.unique {feed : Feed} {text other : Text} (h : feed.Spells text)
    (hOther : feed.Spells other) : text = other := by
  have hText := Utf8.decodeText?_eq_some_iff.mpr h.2
  exact Option.some.inj (hText.symm.trans (Utf8.decodeText?_eq_some_iff.mpr hOther.2))

namespace TextReader

variable {r after : TextReader} {text : Text}

/-- A reader that comes to the end gives exactly what it has given. -/
theorem Course.gives (h : r.Course text none) : r.Gives text := by
  generalize hStop : (none : Option Failure) = stop at h
  induction h with
  | char hRead _ ih =>
      rename_i r after c rest stop _
      have hReading := r.reading
      rw [hRead] at hReading
      obtain ⟨hCalm, hText, hWellFormed⟩ := gives_iff.mp (ih hStop)
      cases hReading with
      | char hFront _ hGoesOn hSame =>
          refine gives_iff.mpr ⟨?_, by rw [hFront, hText], hGoesOn.wellFormed.mp hWellFormed⟩
          exact hCalm.of_same hGoesOn.ending.symm hSame.symm
  | ended hRead =>
      rename_i r after
      have hReading := r.reading
      rw [hRead] at hReading
      cases hReading with
      | ended hText hWellFormed _ _ hCalm => exact gives_iff.mpr ⟨hCalm, hText, hWellFormed⟩
  | failed => cases hStop

/-- A feed spells what a reader of it reads to the end. -/
theorem course_ofFeed_iff {feed : Feed} :
    (ofFeed feed).Course text none ↔ feed.Spells text := by
  constructor
  · intro h
    obtain ⟨hCalm, tail, rfl, hBytes⟩ := h.gives
    exact ⟨hCalm, hBytes⟩
  · rintro ⟨hCalm, hContent⟩
    exact (gives_ofFeed hCalm hContent).course

end TextReader

/-- The failure that ends the characters, if one does. -/
def Stop.failure? : Stop → Option Failure
  | failed failure _ => some failure
  | _ => none

namespace Rendering

/-- The failure behind the characters, if there is one. -/
def failure? (out : Rendering) : Option Failure := out.stop.failure?

/-- An output is complete if no failure stands behind it. -/
theorem whole_eq_ok_iff {out : Rendering} (h : out.stop ≠ .endless) {written : Text} :
    out.whole.map Prod.fst = some (.ok written) ↔ out.failure? = none ∧ out.text = written := by
  obtain ⟨text, stop⟩ := out
  cases stop with
  | endless => exact absurd rfl h
  | ended session => simp [whole, failure?, Stop.failure?]
  | failed failure session => simp [whole, failure?, Stop.failure?]

theorem ends_behind {out : Rendering} {front : Text} (h : out.stop ≠ .endless) :
    (out.behind front).stop ≠ .endless := h

end Rendering

/-- Where every question ends, so does the output for segments. -/
theorem Expander.ends_render {x : Expander} (hEnds : ∀ s expression, x.resolve s expression ≠ none)
    (s : Session) (segments : List Segment) : (x.render s segments).stop ≠ .endless := by
  induction segments generalizing s with
  | nil => exact Stop.noConfusion
  | cons segment rest ih =>
      cases segment with
      | literal text => exact Rendering.ends_behind (ih s)
      | placeholder d expression =>
          rw [render]
          cases hResolve : x.resolve s expression with
          | none => exact absurd hResolve (hEnds s expression)
          | some resolved =>
              obtain ⟨result, after⟩ := resolved
              cases result with
              | error failure => exact Stop.noConfusion
              | ok answer => exact Rendering.ends_behind (ih after)

/-- Where the sources have finitely many answers, every question ends, whatever the markup. -/
theorem Expander.resolve_ne_none {x : Expander}
    (hSources : ∀ source ∈ x.sources, source.answers.Finite) (markup : Markup) (s : Session)
    (expression : Text) : ({ x with markup := markup } : Expander).resolve s expression ≠ none := by
  obtain ⟨_, _, hSome, _⟩ :=
    (ends_of_finite_answers { x with markup := markup } hSources s).1 expression
  rw [hSome]
  exact Option.some_ne_none _

/-- Of nothing comes nothing. -/
theorem filtered_nil {options : FilterOptions} {markup : Markup}
    (hMeasured : options.measured = .ok markup) (x : Expander) :
    filtered options x [] = some (.ok []) := by
  rw [filtered_eq_fillOn hMeasured, FilterRules.pieces_nil, Expander.fillOn]

namespace FilterStream

variable {f next : FilterStream} {out : Rendering} {options : FilterOptions} {x : Expander}
  {feed : Feed}

theorem Alike.of_some {α : Type} {one : Option (α × FilterStream)} {shown : α} {o : Outflow}
    (h : Alike one (some (shown, o))) : ∃ f, one = some (shown, f) ∧ f.Conveys o := by
  cases h with
  | some hBoth =>
      rename_i read
      obtain ⟨_, f⟩ := read
      obtain ⟨rfl, hConveys⟩ := hBoth
      exact ⟨f, rfl, hConveys⟩

theorem copyOnto_of_portion {bytes : Bytes} (hRead : f.readBytes portion = some (.ok bytes, next))
    (hSome : bytes ≠ []) (seen : Bytes) :
    copyOnto seen f = copyOnto (bytes.reverse ++ seen) next := by
  rw [copyOnto, hRead]
  cases bytes with
  | nil => exact absurd rfl hSome
  | cons byte rest => rfl

theorem copyOnto_of_nil (hRead : f.readBytes portion = some (.ok [], next)) (seen : Bytes) :
    copyOnto seen f = some ((seen.reverse, none), next) := by
  rw [copyOnto, hRead]
  rfl

theorem copyOnto_of_error {failure : Failure}
    (hRead : f.readBytes portion = some (.error failure, next)) (seen : Bytes) :
    copyOnto seen f = some ((seen.reverse, some failure), next) := by
  rw [copyOnto, hRead]
  rfl

/-- As long as an output has more bytes than a portion it is copied portion by portion; the last bytes
come in a read that they do not fill, and what ends them in the read behind it. -/
theorem Conveys.copyOnto {o : Outflow} (h : f.Conveys o) (hNone : o.waiting = none)
    (hEnds : o.stop ≠ .endless) (seen : Bytes) :
    ∃ after, FilterStream.copyOnto seen f =
      some ((seen.reverse ++ o.bytes, o.stop.failure?), after) := by
  induction hLeft : o.bytes.length using Nat.strongRecOn generalizing f o seen with
  | ind n ih =>
      subst hLeft
      have hRead := h.readBytes portion
      obtain ⟨⟨result, left⟩, hSome⟩ : ∃ read, o.read portion = some read :=
        Option.ne_none_iff_exists'.mp fun hEndless => hEnds (Outflow.endless_of_read hNone hEndless)
      rw [hSome] at hRead
      obtain ⟨next, hHere, hNext⟩ := hRead.of_some
      cases Outflow.reading hSome with
      | report hWaiting => cases hNone.symm.trans hWaiting
      | full _ hFits =>
          have hFull : o.bytes.take portion ≠ [] := by
            intro hEmpty
            rw [List.take_eq_nil_iff] at hEmpty
            rcases hEmpty with hZero | hEmpty
            · cases hZero
            · rw [hEmpty] at hFits
              cases hFits
          have hLess : (o.bytes.drop portion).length < o.bytes.length := by
            rw [List.length_drop]
            have hPos : 0 < portion := by decide
            omega
          obtain ⟨after, hCopy⟩ :=
            ih _ hLess hNext hNone hEnds ((o.bytes.take portion).reverse ++ seen) rfl
          refine ⟨after, ?_⟩
          rw [copyOnto_of_portion hHere hFull, hCopy, List.reverse_append, List.reverse_reverse,
            List.append_assoc, List.take_append_drop]
      | last _ hStop =>
          by_cases hBytes : o.bytes = []
          · rw [hBytes] at hHere ⊢
            refine ⟨next, ?_⟩
            rw [copyOnto_of_nil hHere, hStop, List.append_nil]
            rfl
          · obtain ⟨after, hCopy⟩ := ih 0 (List.length_pos_iff.mpr hBytes) hNext hNone hEnds
              (o.bytes.reverse ++ seen) rfl
            refine ⟨after, ?_⟩
            rw [copyOnto_of_portion hHere hBytes, hCopy, List.reverse_append, List.reverse_reverse,
              List.append_nil]
      | broken _ hStop hBytes =>
          refine ⟨next, ?_⟩
          rw [copyOnto_of_error hHere, hStop, hBytes, List.append_nil]
          rfl
      | late _ hStop hBytes =>
          -- The failure waits, so the next read gives nothing but its report.
          obtain ⟨after, hReport, _⟩ := (hNext.readBytes portion).of_some
          refine ⟨after, ?_⟩
          rw [copyOnto_of_portion hHere hBytes, copyOnto_of_error hReport, hStop,
            List.reverse_append, List.reverse_reverse]
          rfl

/-- A copy takes the bytes of all characters, and then the failure. -/
theorem Flows.copy (h : f.Flows out) (hReach : 0 < f.reach) (hEnds : out.stop ≠ .endless)
    (hLeftover : f.leftover = []) (hDeferred : f.deferred = none) :
    ∃ after, f.copy = some ((Utf8.encodeText out.text, out.failure?), after) :=
  (conveys_of_whole (o := .ofRendering out) hReach hDeferred h rfl hLeftover).copyOnto rfl hEnds []

/-- The failure behind an output is one of the input or of a source. -/
theorem Flows.fails (h : f.Flows out) (hReach : 0 < f.reach) (hSound : f.poisoned = false)
    {failure : Failure} (hFails : out.failure? = some failure) :
    f.input.reader.MayFail failure ∨ f.expander.Refuses failure := by
  induction h with
  | char hRead _ ih =>
      have hArrives := readChar_arrives hReach hSound
      rw [hRead] at hArrives
      obtain ⟨segments, hReaches⟩ := hArrives
      have hFollowed := hReaches.followed hReach
      have hLater := ih (hFollowed.reach ▸ hReach) (hFollowed.poisoned.trans hSound) hFails
      rw [hFollowed.expander] at hLater
      exact hLater.imp_left (·.of_passed hFollowed.passed)
  | ended => cases hFails
  | failed hRead =>
      have hArrives := readChar_arrives hReach hSound
      rw [hRead] at hArrives
      obtain rfl := Option.some.inj hFails
      exact hArrives.2.2
  | endless => cases hFails

/-- Only the input of a new filter depends on what it reads from. -/
theorem make_of_make {s : Session} {reader : TextReader} (hMake : make options x s reader = .ok f)
    (other : TextReader) :
    make options x s other = .ok { f with input := .ofReader other f.reach } := by
  obtain ⟨markup, hMeasured, rfl⟩ := eq_of_make hMake
  rw [make, hMeasured]
  rfl

theorem ends_of_make (hSources : ∀ source ∈ x.sources, source.answers.Finite) {s : Session}
    {reader : TextReader} (hMake : make options x s reader = .ok f) (h : f.Flows out) :
    out.stop ≠ .endless := by
  obtain ⟨text, stop, hCourse⟩ := reader.exists_course
  have hFaces := faces_of_make hCourse hMake
  obtain ⟨markup, _, rfl⟩ := eq_of_make hMake
  rw [h.unique hFaces.flows, promised]
  have hEnds := Expander.ends_render (Expander.resolve_ne_none hSources markup) s
    ((options.rules markup).pieces text stop)
  simp only [Rendering.brokenOff]
  split
  · exact Stop.noConfusion
  · exact hEnds

/-- On an input that is a text, a filter gives what filtering that text in memory does. -/
theorem filtered_of_spells {text : Text} (hSpells : feed.Spells text)
    (hMake : make options x (.fresh .empty) (.ofFeed feed) = .ok f) (h : f.Flows out) :
    filtered options x text = out.whole.map Prod.fst := by
  have hMemory := make_of_make hMake (.ofFeed (.ofBytes (Utf8.encodeText text)))
  have hFlows := (faces_of_make (TextReader.course_ofFeed_iff.mpr (Feed.spells_text text)) hMemory).flows
  rw [h.unique (faces_of_make (TextReader.course_ofFeed_iff.mpr hSpells) hMake).flows, filtered,
    hFlows.filterText hMemory]
  rfl

/-- An output comes to its end only if the input does. -/
theorem spells_of_complete (hMake : make options x (.fresh .empty) (.ofFeed feed) = .ok f)
    (h : f.Flows out) (hEnds : out.stop ≠ .endless) (hComplete : out.failure? = none) :
    ∃ text, feed.Spells text := by
  obtain ⟨text, stop, hCourse⟩ := (TextReader.ofFeed feed).exists_course
  obtain rfl := h.unique (faces_of_make hCourse hMake).flows
  cases stop with
  | none => exact ⟨text, TextReader.course_ofFeed_iff.mp hCourse⟩
  | some failure =>
      rw [promised] at hEnds hComplete
      cases hRender : f.expander.render f.session (f.rules.pieces text (some failure)) with
      | mk written stop =>
          rw [hRender] at hEnds hComplete
          cases stop with
          | ended session => cases hComplete
          | failed failure session => cases hComplete
          | endless => exact absurd rfl hEnds

/-- An output that ends is complete exactly if the input is a text that filtering in memory does not
fail on, and then both write the same. -/
theorem complete_iff (hMake : make options x (.fresh .empty) (.ofFeed feed) = .ok f)
    (h : f.Flows out) (hEnds : out.stop ≠ .endless) {written : Text} :
    (out.failure? = none ∧ out.text = written) ↔
      ∃ text, feed.Spells text ∧ filtered options x text = some (.ok written) := by
  constructor
  · rintro ⟨hComplete, rfl⟩
    obtain ⟨text, hSpells⟩ := spells_of_complete hMake h hEnds hComplete
    refine ⟨text, hSpells, ?_⟩
    rw [filtered_of_spells hSpells hMake h]
    exact (Rendering.whole_eq_ok_iff hEnds).mpr ⟨hComplete, rfl⟩
  · rintro ⟨text, hSpells, hFiltered⟩
    rw [filtered_of_spells hSpells hMake h] at hFiltered
    exact (Rendering.whole_eq_ok_iff hEnds).mp hFiltered

/-- A copy takes the whole output of a new filter over sources with finitely many answers. -/
theorem copy_of_make (hSources : ∀ source ∈ x.sources, source.answers.Finite) {s : Session}
    {reader : TextReader} (hMake : make options x s reader = .ok f) :
    ∃ out after, f.Flows out ∧ out.stop ≠ .endless ∧
      f.copy = some ((Utf8.encodeText out.text, out.failure?), after) := by
  have hReach := reach_of_make hMake
  obtain ⟨out, hFlows⟩ := f.exists_flows hReach
  have hEnds := ends_of_make hSources hMake hFlows
  have hHeld : f.leftover = [] ∧ f.deferred = none := by
    obtain ⟨markup, _, rfl⟩ := eq_of_make hMake
    exact ⟨rfl, rfl⟩
  obtain ⟨after, hCopy⟩ := hFlows.copy hReach hEnds hHeld.1 hHeld.2
  exact ⟨out, after, hFlows, hEnds, hCopy⟩

end FilterStream

end Placeholder
