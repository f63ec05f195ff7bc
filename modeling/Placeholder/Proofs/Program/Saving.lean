import Placeholder.Proofs.Program.Running
/-!
What a run leaves behind that has an output file. If it succeeds, the output file holds what filtering
in memory makes of the input, and every other file is as before. But the output file is emptied before
the input is read: where both are one file, nothing is left of it.
-/
namespace Placeholder

namespace FileTree

variable {tree : FileTree} {s : Surroundings} {a : Arguments} {path : Text} {place : List Text}

/-- Whether the output is to be written to the file that the input is read from, be it named on the
command line or at the standard input. -/
def Overwrites (tree : FileTree) (s : Surroundings) (a : Arguments) : Prop :=
  ∃ input output place, Program.inputPath? s a = some input ∧ a.output = some output ∧
    tree.locate input = .ok place ∧ tree.room output = .ok place

theorem writable_of_room (h : tree.room path = .ok place) : tree.Writable place := by
  obtain ⟨above, hRoomy, rfl⟩ := roomy_of_room h
  exact hRoomy.writable

/-- What was written is read back. -/
theorem read_put_of_room (h : tree.room path = .ok place) (content : Bytes) :
    read (tree.put place content) path = .ok content := by
  obtain ⟨above, hRoomy, rfl⟩ := roomy_of_room h
  simp only [read, find, bind, Except.bind, hRoomy.locate_put content,
    entry_put tree hRoomy.writable.below, if_true]

/-- A path that can be opened leads somewhere. -/
theorem locate_of_opens {input : Text} (hOpens : tree.Opens s a)
    (hInput : Program.inputPath? s a = some input) :
    Path.hasZero input = false ∧ ∃ reached, tree.locate input = .ok reached := by
  obtain ⟨entry, hFind⟩ := hOpens input hInput
  rw [answer] at hFind
  split at hFind
  · cases hFind
  · rename_i hZero
    refine ⟨Bool.eq_false_iff.mpr hZero, ?_⟩
    rw [find] at hFind
    cases hLocate : tree.locate input with
    | error fault =>
        rw [hLocate] at hFind
        cases hFind
    | ok reached => exact ⟨reached, rfl⟩

/-- An input that is kept elsewhere does not change when the output is created. -/
theorem feed_put_of_apart (hOpens : tree.Opens s a) (hApart : ¬ tree.Overwrites s a)
    (hOutput : a.output = some path) (hRoom : tree.room path = .ok place) :
    feed (tree.put place []) s a = tree.feed s a := by
  cases hInput : Program.inputPath? s a with
  | none => exact feed_of_no_inputPath hInput _ _
  | some input =>
      obtain ⟨_, reached, hLocate⟩ := locate_of_opens hOpens hInput
      have hElsewhere : reached ≠ place := by
        rintro rfl
        exact hApart ⟨input, path, reached, hInput, hOutput, hLocate, hRoom⟩
      rw [feed_of_inputPath hInput, feed_of_inputPath hInput]
      simp only [fileAt, read_put (writable_of_room hRoom) [] hLocate, if_neg hElsewhere]

/-- An input that is the output is empty once the output is created. -/
theorem feed_put_of_overwrites (hOpens : tree.Opens s a) (hOverwrites : tree.Overwrites s a)
    (hOutput : a.output = some path) (hRoom : tree.room path = .ok place) :
    feed (tree.put place []) s a = .ofBytes [] := by
  obtain ⟨input, output, reached, hInput, hOther, hLocate, hSame⟩ := hOverwrites
  obtain rfl := Option.some.inj (hOutput.symm.trans hOther)
  obtain rfl := Except.ok.inj (hRoom.symm.trans hSame)
  obtain ⟨hZero, _⟩ := locate_of_opens hOpens hInput
  rw [feed_of_inputPath hInput]
  simp only [fileAt, read_put (writable_of_room hRoom) [] hLocate, if_true, answer, hZero]
  rfl

end FileTree

namespace Program

variable {tree after : FileTree} {s : Surroundings} {a : Arguments} {words : List Text} {path : Text}

/-- What a run leaves behind that succeeds and has an output file. -/
structure Saves (tree : FileTree) (s : Surroundings) (a : Arguments) (path : Text)
    (after : FileTree) : Prop where
  /-- Only the output file changes. -/
  others : ∃ place, tree.room path = .ok place ∧
    ∀ other, other ≠ place → after.entry? other = tree.entry? other
  /-- It holds what filtering in memory makes of the input as it was before, if it is not the input. -/
  holds : ¬ tree.Overwrites s a → ∃ g text written, tree.Ready s a g ∧ (tree.feed s a).Spells text ∧
    filtered g.options (g.expander a s.vars) text = some (.ok written) ∧
    after.read path = .ok (Utf8.encodeText written)
  /-- If it is, it ends up empty. -/
  emptied : tree.Overwrites s a → after.read path = .ok []

/-- From an empty input comes an empty output, and nothing fails. -/
theorem complete_of_empty {options : FilterOptions} {x : Expander} {f : FilterStream}
    {out : Rendering}
    (hMake : FilterStream.make options x (.fresh .empty) (.ofFeed (.ofBytes [])) = .ok f)
    (hFlows : f.Flows out) (hEnds : out.stop ≠ .endless) : out.failure? = none ∧ out.text = [] := by
  obtain ⟨markup, hMeasured, _⟩ := FilterStream.eq_of_make hMake
  apply (FilterStream.complete_iff hMake hFlows hEnds).mpr
  exact ⟨[], Feed.spells_text [], filtered_nil hMeasured x⟩

theorem saves_of_runs {result : RunResult} (hOutput : a.output = some path)
    (hRuns : Runs tree s a result after) (hSucceeds : result.failure = none) :
    Saves tree s a path after := by
  cases hRuns with
  | unprepared hNone => cases hSucceeds
  | filters hGrounds hFilters =>
      rename_i g
      cases hFilters with
      | unopened hClosed => cases hSucceeds
      | refused hOpens hRefused => cases hSucceeds
      | uncreated hOpens hSome => cases hSucceeds
      | printed hOpens hNone => cases hOutput.symm.trans hNone
      | written hOpens hSome hRoom hMake hFlows hEnds =>
          rename_i output place f out notices
          obtain rfl := Option.some.inj (hOutput.symm.trans hSome)
          rw [hGrounds.options] at hMake
          have hHeld := FileTree.read_put_of_room hRoom (Utf8.encodeText out.text)
          constructor
          case others =>
            refine ⟨place, hRoom, fun other hOther => ?_⟩
            rw [FileTree.entry_put tree (FileTree.writable_of_room hRoom).below, if_neg hOther]
          case holds =>
            intro hApart
            obtain ⟨markup, hMeasured, _⟩ := FilterStream.eq_of_make hMake
            obtain ⟨hMarkup, _⟩ := FilterOptions.measured_eq_ok_iff.mp hMeasured
            rw [FileTree.feed_put_of_apart hOpens hApart hOutput hRoom] at hMake
            obtain ⟨text, hSpells, hFiltered⟩ :=
              (FilterStream.complete_iff hMake hFlows hEnds).mp ⟨hSucceeds, rfl⟩
            exact ⟨g, text, out.text, ⟨hGrounds, ⟨markup, hMarkup⟩, hOpens⟩, hSpells, hFiltered, hHeld⟩
          case emptied =>
            intro hOverwrites
            rw [FileTree.feed_put_of_overwrites hOpens hOverwrites hOutput hRoom] at hMake
            rw [hHeld, (complete_of_empty hMake hFlows hEnds).2]
            rfl

/-- Where everything is in order, a run succeeds if filtering what is left to read after the output file was
created meets no failure. -/
theorem succeeds_of_filtered {result : RunResult} {g : Groundwork} {markup : Markup}
    {place : List Text} {text written : Text} (hReady : tree.Ready s a g)
    (hMeasured : g.options.measured = .ok markup) (hOutput : a.output = some path)
    (hZero : Path.hasZero path = false) (hRoom : tree.room path = .ok place)
    (hSpells : (FileTree.feed (tree.put place []) s a).Spells text)
    (hFiltered : filtered g.options (g.expander a s.vars) text = some (.ok written))
    (hRuns : Runs tree s a result after) : result.failure = none := by
  cases hRuns with
  | unprepared hNone => exact absurd hReady.toGrounds (hNone g)
  | filters hGrounds hFilters =>
      obtain rfl := hReady.toGrounds.unique hGrounds
      cases hFilters with
      | unopened hClosed => exact absurd hReady.opens hClosed
      | refused hOpens hRefused =>
          rw [hGrounds.options] at hRefused
          cases hMeasured.symm.trans hRefused
      | uncreated hOpens hSome hWrite =>
          obtain rfl := Option.some.inj (hOutput.symm.trans hSome)
          rw [FileTree.answer, hZero, FileTree.write, hRoom] at hWrite
          cases hWrite
      | printed hOpens hNone => cases hOutput.symm.trans hNone
      | written hOpens hSome hElsewhere hMake hFlows hEnds =>
          obtain rfl := Option.some.inj (hOutput.symm.trans hSome)
          obtain rfl := Except.ok.inj (hRoom.symm.trans hElsewhere)
          rw [hGrounds.options] at hMake
          exact ((FilterStream.complete_iff hMake hFlows hEnds).mpr ⟨text, hSpells, hFiltered⟩).1

/-- A command line with an output file. The run ends, and if it succeeds, it has written what
filtering makes of the input that was there before, unless that was in the output file itself. -/
theorem output_holds_filtered (tree : FileTree) (s : Surroundings)
    (hRead : Arguments.read words = .ok a) (hOutput : a.output = some path) :
    ∃ outcome after, start FileTree.storage s words tree = (some outcome, after) ∧
      (outcome.exitCode = 0 → Saves tree s a path after) := by
  obtain ⟨result, after, hRun, hRuns⟩ := exists_runs tree s a
  refine ⟨.ran result, after, start_of_run hRead hRun, fun hZero => ?_⟩
  exact saves_of_runs hOutput hRuns (failure_of_exitCode hZero)

/-- A character that opens nothing comes out as it is. -/
theorem filtered_x (x : Expander) : filtered .standard x ['x'] = some (.ok ['x']) := by
  have hMeasured : FilterOptions.standard.measured = .ok .standard := rfl
  have hShown : (FilterOptions.standard.rules .standard).shown ['x'] none = .ok (.literal ['x']) := rfl
  have hRest : List.drop (Sight.literal ['x']).extent ['x'] = [] := rfl
  rw [filtered_eq_fillOn hMeasured, FilterRules.pieces_of_shown hShown Sight.noConfusion, hRest,
    FilterRules.pieces_nil]
  rfl

/-- A file that is filtered into another one. -/
theorem output_holds_filtered_elsewhere :
    let tree : FileTree := ⟨[([['i']], .file (Utf8.encodeText ['x']))], []⟩
    let s : Surroundings := ⟨.empty, .ofBytes []⟩
    let words : List Text := [['i'], ['-', 'o', 'f']]
    ∃ a, Arguments.read words = .ok a ∧ a.output = some ['f'] ∧ ¬ tree.Overwrites s a ∧
      ∃ outcome after, start FileTree.storage s words tree = (some outcome, after) ∧
        outcome.exitCode = 0 ∧ Saves tree s a ['f'] after ∧
        after.read ['f'] = .ok (Utf8.encodeText ['x']) := by
  intro tree s words
  let g : Groundwork := ⟨.standard, .standard, [], none⟩
  obtain ⟨a, hRead, hInput, hOutput, hReady⟩ : ∃ a, Arguments.read words = .ok a ∧
      inputPath? s a = some ['i'] ∧ a.output = some ['f'] ∧ tree.Ready s a g :=
    ⟨_, rfl, rfl, rfl, FileTree.ready_standard rfl rfl rfl rfl rfl rfl⟩
  have hRoom : tree.room ['f'] = .ok [['f']] := rfl
  have hApart : ¬ tree.Overwrites s a := by
    rintro ⟨input, output, place, hSource, hTarget, hLocate, hPlace⟩
    obtain rfl := Option.some.inj (hInput.symm.trans hSource)
    obtain rfl := Option.some.inj (hOutput.symm.trans hTarget)
    cases hLocate
    cases hPlace
  have hFeed : tree.feed s a = .ofBytes (Utf8.encodeText ['x']) := FileTree.feed_of_inputPath hInput
  have hSpells : (tree.feed s a).Spells ['x'] := hFeed ▸ Feed.spells_text _
  obtain ⟨result, final, hRun, hRuns⟩ := exists_runs tree s a
  have hStill := FileTree.feed_put_of_apart hReady.opens hApart hOutput hRoom
  have hSucceeds := succeeds_of_filtered hReady rfl hOutput rfl hRoom (hStill ▸ hSpells)
    (filtered_x _) hRuns
  obtain ⟨outcome, after, hStart, hSaves⟩ := output_holds_filtered tree s hRead hOutput
  cases hStart.symm.trans (start_of_run hRead hRun)
  have hZero : (Outcome.ran result).exitCode = 0 := by
    rw [Outcome.exitCode, hSucceeds]
    rfl
  obtain ⟨other, text, written, hOther, hText, hFiltered, hHeld⟩ := (hSaves hZero).holds hApart
  obtain rfl := hOther.toGrounds.unique hReady.toGrounds
  obtain rfl := hText.unique hSpells
  obtain rfl := Except.ok.inj (Option.some.inj (hFiltered.symm.trans (filtered_x _)))
  exact ⟨a, hRead, hOutput, hApart, _, _, hStart, hZero, hSaves hZero, hHeld⟩

/-- A file that is filtered in place. The run succeeds, and although filtering would have left the text
of the file as it was, nothing is left of it. -/
theorem filtering_in_place_empties :
    let tree : FileTree := ⟨[([['f']], .file (Utf8.encodeText ['x']))], []⟩
    let s : Surroundings := ⟨.empty, .ofBytes []⟩
    let words : List Text := [['f'], ['-', 'o', 'f']]
    ∃ a g outcome after, Arguments.read words = .ok a ∧ a.output = some ['f'] ∧ tree.Ready s a g ∧
      (tree.feed s a).Spells ['x'] ∧
      filtered g.options (g.expander a s.vars) ['x'] = some (.ok ['x']) ∧
      start FileTree.storage s words tree = (some outcome, after) ∧ outcome.exitCode = 0 ∧
      after.read ['f'] = .ok [] := by
  intro tree s words
  let g : Groundwork := ⟨.standard, .standard, [], none⟩
  obtain ⟨a, hRead, hInput, hOutput, hReady⟩ : ∃ a, Arguments.read words = .ok a ∧
      inputPath? s a = some ['f'] ∧ a.output = some ['f'] ∧ tree.Ready s a g :=
    ⟨_, rfl, rfl, rfl, FileTree.ready_standard rfl rfl rfl rfl rfl rfl⟩
  have hRoom : tree.room ['f'] = .ok [['f']] := rfl
  have hOverwrites : tree.Overwrites s a := ⟨_, _, [['f']], hInput, hOutput, rfl, hRoom⟩
  have hFeed : tree.feed s a = .ofBytes (Utf8.encodeText ['x']) := FileTree.feed_of_inputPath hInput
  have hEmptied := FileTree.feed_put_of_overwrites hReady.opens hOverwrites hOutput hRoom
  obtain ⟨result, after, hRun, hRuns⟩ := exists_runs tree s a
  have hSucceeds := succeeds_of_filtered hReady rfl hOutput rfl hRoom (hEmptied ▸ Feed.spells_text [])
    (filtered_nil rfl _) hRuns
  refine ⟨a, g, .ran result, after, hRead, hOutput, hReady, hFeed ▸ Feed.spells_text _, filtered_x _,
    start_of_run hRead hRun, ?_, (saves_of_runs hOutput hRuns hSucceeds).emptied hOverwrites⟩
  rw [Outcome.exitCode, hSucceeds]
  rfl

end Program

end Placeholder
