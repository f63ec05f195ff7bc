import Placeholder.Proofs.Program.Saving
/-!
What a failed run with an output file leaves behind. Everything that can be wrong before the input is
read is found before the output file is touched, and then no file is changed. What fails later cuts the
output off: the file holds the characters in front of the failure and nothing else.
-/
namespace Placeholder

namespace FileTree

/-- What keeps a run from filtering, and the failure that it reports: the first thing that is wrong in
the order in which the run reads. In the cases of a filter file and of the project model, a groundwork
only tells what was read before. -/
inductive Obstacle (tree : FileTree) (s : Surroundings) (a : Arguments) : Failure → Prop
  /-- The configuration cannot be read. -/
  | configuration {failure : Failure}
      (hFails : tree.configuration (Program.root a tree.directory) = .error failure) :
      Obstacle tree s a failure
  /-- A filter file cannot be read, the first one of this kind. -/
  | filterFile {g : Groundwork} {failure : Failure} {later : List (Except Failure Table)}
      (hConfigured : tree.Configures (Program.root a tree.directory) g.configuration)
      (hFails : (g.filterPaths tree a).map (fun path => PropertyFile.ofRead (tree.fileAt path)) =
        g.tables.map .ok ++ .error failure :: later) :
      Obstacle tree s a failure
  /-- The project model cannot be read. -/
  | model {g : Groundwork} {project : Project} {failure : Failure}
      (hConfigured : tree.Configures (Program.root a tree.directory) g.configuration)
      (hFilters : (g.filterPaths tree a).map (fun path => PropertyFile.ofRead (tree.fileAt path)) =
        g.tables.map .ok)
      (hProject : g.project? tree a = some project)
      (hFails : Model.ofRead (tree.fileAt project.path) = .error failure) :
      Obstacle tree s a failure
  /-- The input cannot be opened. -/
  | input {g : Groundwork} {path : Text} {failure : IoFailure} (hGrounds : tree.Grounds a g)
      (hInput : Program.inputPath? s a = some path)
      (hFails : answer path (tree.find path) = .error failure) :
      Obstacle tree s a (Program.unopenedInput a.input failure)
  /-- A delimiter or the escape string has no meaning. -/
  | markup {g : Groundwork} {failure : Failure} (hGrounds : tree.Grounds a g)
      (hOpens : tree.Opens s a) (hFails : g.options.markup = .error failure) :
      Obstacle tree s a failure
  /-- The sum for the lookahead overflows. -/
  | overflow {g : Groundwork} {markup : Markup} (hGrounds : tree.Grounds a g) (hOpens : tree.Opens s a)
      (hMarkup : g.options.markup = .ok markup) (hLong : pow2 64 ≤ g.options.lookahead markup) :
      Obstacle tree s a .overflow

variable {tree : FileTree} {s : Surroundings} {a : Arguments} {g : Groundwork} {failure : Failure}

theorem modelSources_eq_error_iff :
    (g.settings tree a).modelSources
        (tree.filesOf (g.settings tree a) (Program.root a tree.directory)).model = .error failure ↔
      ∃ project, g.project? tree a = some project ∧
        Model.ofRead (tree.fileAt project.path) = .error failure := by
  rw [Groundwork.modelSources_filesOf]
  cases g.project? tree a with
  | none => simp
  | some project =>
      cases hFile : Model.ofRead (tree.fileAt project.path) <;> simp [hFile, Except.map]

/-- Either something keeps a run from filtering, or everything is in order. -/
theorem obstacle_or_ready (tree : FileTree) (s : Surroundings) (a : Arguments) :
    (∃ failure, tree.Obstacle s a failure) ∨
      ∃ g markup, tree.Ready s a g ∧ g.options.measured = .ok markup := by
  cases hLoaded : tree.configuration (Program.root a tree.directory) with
  | error failure => exact .inl ⟨failure, .configuration hLoaded⟩
  | ok c =>
      let start : Groundwork := ⟨c, (a.layOver tree.directory c).filter, [], none⟩
      have hConfigured : tree.Configures (Program.root a tree.directory) start.configuration :=
        configures_iff.mpr hLoaded
      have hLaid : a.LaysOver start.configuration.filter start.options :=
        (laysOver_iff tree.directory).mpr rfl
      cases hTables : (tree.filesOf (start.settings tree a)
          (Program.root a tree.directory)).filters.mapM PropertyFile.ofRead with
      | error failure =>
          obtain ⟨tables, later, hFails⟩ := mapM_eq_error_iff.mp hTables
          rw [Groundwork.map_filters_filesOf] at hFails
          exact .inl ⟨failure, .filterFile (g := { start with tables := tables }) hConfigured hFails⟩
      | ok tables =>
          rw [mapM_eq_ok_iff, Groundwork.map_filters_filesOf] at hTables
          cases hSources : (start.settings tree a).modelSources
              (tree.filesOf (start.settings tree a) (Program.root a tree.directory)).model with
          | error failure =>
              obtain ⟨project, hProject, hFails⟩ := modelSources_eq_error_iff.mp hSources
              exact .inl ⟨failure,
                .model (g := { start with tables := tables }) hConfigured hTables hProject hFails⟩
          | ok sources =>
              obtain ⟨model, hModel⟩ := exists_model hSources
              have hGrounds : tree.Grounds a { start with tables := tables, model := model } :=
                ⟨hConfigured, hLaid, hTables, hModel⟩
              by_cases hOpens : tree.Opens s a
              · cases hMeasured : start.options.measured with
                | ok markup =>
                    obtain ⟨hMarkup, _⟩ := FilterOptions.measured_eq_ok_iff.mp hMeasured
                    exact .inr ⟨_, markup, ⟨hGrounds, ⟨markup, hMarkup⟩, hOpens⟩, hMeasured⟩
                | error failure =>
                    rcases FilterOptions.measured_eq_error_iff.mp hMeasured with
                      hMarkup | ⟨rfl, markup, hMarkup, hLong⟩
                    · exact .inl ⟨failure, .markup hGrounds hOpens hMarkup⟩
                    · exact .inl ⟨_, .overflow hGrounds hOpens hMarkup hLong⟩
              · simp only [Opens, not_forall] at hOpens
                obtain ⟨path, hInput, hClosed⟩ := hOpens
                cases hFind : answer path (tree.find path) with
                | ok entry => exact absurd ⟨entry, hFind⟩ hClosed
                | error failure => exact .inl ⟨_, .input hGrounds hInput hFind⟩

end FileTree

namespace Program

variable {tree after created : FileTree} {s : Surroundings} {a : Arguments} {words : List Text}
  {path : Text} {failure : Failure}

/-- A run with a groundwork goes on to filter. -/
theorem run_of_grounds {g : Groundwork} (h : tree.Grounds a g) :
    ∃ notices, run FileTree.storage s a tree =
      filter FileTree.storage s a (g.settings tree a) (g.expander a s.vars) notices tree := by
  have hPrepared := h.prepare s.vars
  rw [run_storage, h.configuration]
  simp only [Groundwork.settings] at hPrepared ⊢
  rw [hPrepared]
  exact ⟨_, rfl⟩

theorem run_of_unprepared {g : Groundwork}
    (hConfigured : tree.Configures (root a tree.directory) g.configuration)
    (hFails : (g.settings tree a).prepare (overrides a) s.vars
      (tree.filesOf (g.settings tree a) (root a tree.directory)) = .error failure) :
    ∃ notices, run FileTree.storage s a tree = (some (failed failure notices), tree) := by
  rw [Groundwork.settings] at hFails
  rw [run_storage, FileTree.configures_iff.mp hConfigured]
  simp only [hFails]
  exact ⟨_, rfl⟩

theorem run_of_refused {g : Groundwork} (hGrounds : tree.Grounds a g) (hOpens : tree.Opens s a)
    (hRefused : g.options.measured = .error failure) :
    ∃ notices, run FileTree.storage s a tree = (some (failed failure notices), tree) := by
  obtain ⟨notices, hRun⟩ := run_of_grounds (s := s) hGrounds
  rw [← hGrounds.options] at hRefused
  refine ⟨notices, ?_⟩
  rw [hRun]
  simp only [filter, bind, StateT.bind, openInput_of_opens hOpens, hRefused]
  rfl

/-- A run that meets an obstacle reports it and changes nothing. -/
theorem run_of_obstacle (h : tree.Obstacle s a failure) :
    ∃ notices, run FileTree.storage s a tree = (some (failed failure notices), tree) := by
  cases h with
  | configuration hFails =>
      rw [run_storage, hFails]
      exact ⟨_, rfl⟩
  | filterFile hConfigured hFails =>
      rename_i g later
      have hTables : (tree.filesOf (g.settings tree a) (root a tree.directory)).filters.mapM
          PropertyFile.ofRead = .error failure := by
        rw [mapM_eq_error_iff, Groundwork.map_filters_filesOf]
        exact ⟨g.tables, later, hFails⟩
      apply run_of_unprepared hConfigured
      simp only [Configuration.prepare, PropertyResolver.load, hTables]
      rfl
  | model hConfigured hFilters hProject hFails =>
      have hSources := FileTree.modelSources_eq_error_iff.mpr ⟨_, hProject, hFails⟩
      apply run_of_unprepared hConfigured
      simp only [Configuration.prepare, PropertyResolver.load, FileTree.mapM_filters hFilters, hSources]
      rfl
  | input hGrounds hInput hFails =>
      obtain ⟨notices, hRun⟩ := run_of_grounds (s := s) hGrounds
      refine ⟨notices, ?_⟩
      rw [hRun]
      simp only [filter, bind, StateT.bind, openInput_of_path hInput, hFails]
      rfl
  | markup hGrounds hOpens hFails =>
      exact run_of_refused hGrounds hOpens (FilterOptions.measured_eq_error hFails)
  | overflow hGrounds hOpens hMarkup hLong =>
      exact run_of_refused hGrounds hOpens (FilterOptions.measured_eq_overflow hMarkup hLong)

/-- What a failed run with an output file leaves behind. -/
structure Fails (tree : FileTree) (s : Surroundings) (a : Arguments) (path : Text) (outcome : Outcome)
    (after : FileTree) : Prop where
  /-- Where something is wrong before the input is read, no file is changed. -/
  hindered : ∀ failure, tree.Obstacle s a failure →
    outcome.exitCode = failure.exitCode ∧ outcome.failure? = some failure ∧ after = tree
  /-- Nor is any where the output file cannot be created. -/
  uncreated : ∀ g markup failure, tree.Ready s a g → g.options.measured = .ok markup →
    FileTree.answer path (tree.write path []) = .error failure →
    outcome.exitCode = 2 ∧ outcome.failure? = some (.io failure) ∧ after = tree
  /-- Where the output file is created and a read of the filter fails, the file holds the characters of the
  reads before, and nothing else is changed. -/
  brokenOff : ∀ g created f text failure session, tree.Ready s a g →
    FileTree.answer path (tree.write path []) = .ok created →
    FilterStream.make g.options (g.expander a s.vars) (.fresh .empty) (.ofFeed (created.feed s a)) =
      .ok f →
    f.Flows ⟨text, .failed failure session⟩ →
    outcome.exitCode = 2 ∧ outcome.failure? = some failure ∧
      after.read path = .ok (Utf8.encodeText text) ∧
      ∃ place, tree.room path = .ok place ∧
        ∀ other, other ≠ place → after.entry? other = tree.entry? other
  /-- The input is the one that was there before, if the output is not written over it. -/
  input : ∀ created, tree.Opens s a → ¬ tree.Overwrites s a →
    FileTree.answer path (tree.write path []) = .ok created → created.feed s a = tree.feed s a
  /-- There is no other way to fail. -/
  cause : outcome.exitCode ≠ 0 → (∃ failure, tree.Obstacle s a failure) ∨ ∃ g, tree.Ready s a g ∧
    ((∃ failure, FileTree.answer path (tree.write path []) = .error failure) ∨
      ∃ created f text failure session, FileTree.answer path (tree.write path []) = .ok created ∧
        FilterStream.make g.options (g.expander a s.vars) (.fresh .empty)
          (.ofFeed (created.feed s a)) = .ok f ∧
        f.Flows ⟨text, .failed failure session⟩)

/-- A run that cannot create its output file changes nothing. -/
theorem run_of_uncreated {g : Groundwork} {markup : Markup} {fault : IoFailure}
    (hReady : tree.Ready s a g) (hMeasured : g.options.measured = .ok markup)
    (hOutput : a.output = some path)
    (hWrite : FileTree.answer path (tree.write path []) = .error fault) :
    ∃ notices, run FileTree.storage s a tree = (some (failed (.io fault) notices), tree) := by
  obtain ⟨notices, hRun⟩ := run_of_grounds (s := s) hReady.toGrounds
  rw [← hReady.toGrounds.options] at hMeasured
  refine ⟨notices, ?_⟩
  rw [hRun]
  simp only [filter, bind, StateT.bind, openInput_of_opens hReady.opens, hMeasured,
    createOutput_of_error hOutput hWrite]
  rfl

/-- A run that creates its output file fills it with the characters of its filter, up to the end or to
the first failure. -/
theorem run_of_created {g : Groundwork} {f : FilterStream} (hReady : tree.Ready s a g)
    (hOutput : a.output = some path)
    (hWrite : FileTree.answer path (tree.write path []) = .ok created)
    (hMake : FilterStream.make g.options (g.expander a s.vars) (.fresh .empty)
      (.ofFeed (created.feed s a)) = .ok f) :
    ∃ place out notices, tree.room path = .ok place ∧ f.Flows out ∧ out.stop ≠ .endless ∧
      run FileTree.storage s a tree =
        (some ⟨[], out.failure?, notices⟩, tree.put place (Utf8.encodeText out.text)) := by
  obtain ⟨notices, hRun⟩ := run_of_grounds (s := s) hReady.toGrounds
  obtain ⟨markup, hMeasured, _⟩ := FilterStream.eq_of_make hMake
  rw [← hReady.toGrounds.options] at hMeasured hMake
  obtain ⟨out, told, hFlows, hEnds, hSame, hFilter⟩ :=
    filter_of_create (g.finite_answers_expander a s.vars) (g.not_refuses_expander a s.vars)
      (openInput_of_opens hReady.opens) hMeasured (createOutput_of_ok hOutput hWrite) hMake notices
  obtain ⟨hZero, place, hRoom, rfl⟩ := answer_write hWrite
  rw [deliver_written hOutput hZero hRoom] at hFilter
  simp only [hSame] at hFilter
  exact ⟨place, out, told, hRoom, hFlows, hEnds, hRun.trans hFilter⟩

theorem fails_of_run {result : RunResult} (hOutput : a.output = some path)
    (hRun : run FileTree.storage s a tree = (some result, after)) :
    Fails tree s a path (.ran result) after where
  hindered failure hObstacle := by
    obtain ⟨notices, hSame⟩ := run_of_obstacle (s := s) hObstacle
    cases hRun.symm.trans hSame
    exact ⟨rfl, rfl, rfl⟩
  uncreated g markup failure hReady hMeasured hWrite := by
    obtain ⟨notices, hSame⟩ := run_of_uncreated (s := s) hReady hMeasured hOutput hWrite
    cases hRun.symm.trans hSame
    exact ⟨rfl, rfl, rfl⟩
  brokenOff g created f text failure session hReady hWrite hMake hFlows := by
    obtain ⟨place, out, notices, hRoom, hOut, _, hSame⟩ := run_of_created hReady hOutput hWrite hMake
    cases hRun.symm.trans hSame
    obtain rfl := hOut.unique hFlows
    have hCode := (failure_of_copy (g.not_refuses_expander a s.vars) hMake hFlows rfl).2
    refine ⟨hCode, rfl, FileTree.read_put_of_room hRoom _, place, hRoom, fun other hOther => ?_⟩
    rw [FileTree.entry_put tree (FileTree.writable_of_room hRoom).below, if_neg hOther]
  input created hOpens hApart hWrite := by
    obtain ⟨_, place, hRoom, rfl⟩ := answer_write hWrite
    exact FileTree.feed_put_of_apart hOpens hApart hOutput hRoom
  cause hFails := by
    rcases tree.obstacle_or_ready s a with hObstacle | ⟨g, markup, hReady, hMeasured⟩
    · exact .inl hObstacle
    refine .inr ⟨g, hReady, ?_⟩
    cases hWrite : FileTree.answer path (tree.write path []) with
    | error failure => exact .inl ⟨failure, rfl⟩
    | ok created =>
        obtain ⟨f, hMake⟩ := FilterStream.exists_make hMeasured (g.expander a s.vars) (.fresh .empty)
          (.ofFeed (created.feed s a))
        obtain ⟨place, ⟨text, stop⟩, notices, _, hFlows, hEnds, hSame⟩ :=
          run_of_created hReady hOutput hWrite hMake
        cases hRun.symm.trans hSame
        cases stop with
        | endless => exact absurd rfl hEnds
        | ended session => exact absurd rfl hFails
        | failed failure session =>
            exact .inr ⟨created, f, text, failure, session, rfl, hMake, hFlows⟩

/-- A command line with an output file. The run ends. If something is wrong before the input is read,
no file is changed, not even the output file; if filtering fails later, that file holds exactly what was
read from the filter before. -/
theorem output_of_failed_run (tree : FileTree) (s : Surroundings)
    (hRead : Arguments.read words = .ok a) (hOutput : a.output = some path) :
    ∃ outcome after, start FileTree.storage s words tree = (some outcome, after) ∧
      Fails tree s a path outcome after := by
  obtain ⟨result, after, hRun, _⟩ := exists_runs tree s a
  exact ⟨.ran result, after, start_of_run hRead hRun, fails_of_run hOutput hRun⟩

/-- A file that breaks off in an ill-formed sequence. The filter cannot tell yet whether the last
character begins a token; the output file holds the character before. -/
theorem output_of_failed_run_broken_off :
    let tree : FileTree := ⟨[([['i']], .file [0x61, 0x62, 0xff])], []⟩
    let s : Surroundings := ⟨.empty, .ofBytes []⟩
    let words : List Text := [['i'], ['-', 'o', 'f']]
    ∃ a outcome after, Arguments.read words = .ok a ∧ a.output = some ['f'] ∧
      start FileTree.storage s words tree = (some outcome, after) ∧
      Fails tree s a ['f'] outcome after ∧ outcome.exitCode = 2 ∧
      outcome.failure? = some (.invalidUtf8 2) ∧ after.read ['f'] = .ok (Utf8.encodeText ['a']) := by
  intro tree s words
  let g : Groundwork := ⟨.standard, .standard, [], none⟩
  obtain ⟨a, created, hRead, hOutput, hReady, hWrite, hFeed⟩ : ∃ a created,
      Arguments.read words = .ok a ∧ a.output = some ['f'] ∧ tree.Ready s a g ∧
      FileTree.answer ['f'] (tree.write ['f'] []) = .ok created ∧
      created.feed s a = .ofBytes [0x61, 0x62, 0xff] :=
    ⟨_, _, rfl, rfl, FileTree.ready_standard rfl rfl rfl rfl rfl rfl, rfl, rfl⟩
  have hCourse : (TextReader.ofFeed (.ofBytes [0x61, 0x62, 0xff])).Course ['a', 'b']
      (some (.invalidUtf8 2)) := by
    apply TextReader.Course.char
    · with_unfolding_all rfl
    apply TextReader.Course.char
    · with_unfolding_all rfl
    apply TextReader.Course.failed
    with_unfolding_all rfl
  obtain ⟨f, hMake⟩ : ∃ f, FilterStream.make .standard (g.expander a s.vars) (.fresh .empty)
      (.ofFeed (.ofBytes [0x61, 0x62, 0xff])) = .ok f := ⟨_, rfl⟩
  have hFlows := (FilterStream.faces_of_make hCourse hMake).flows
  have hShown : f.rules.shown ['a', 'b'] (some (.invalidUtf8 2)) = .ok (.literal ['a']) := by
    cases hMake
    rfl
  have hCutOff : f.rules.shown ['b'] (some (.invalidUtf8 2)) = .error (.invalidUtf8 2) := by
    cases hMake
    rfl
  have hRest : List.drop (Sight.literal ['a']).extent ['a', 'b'] = ['b'] := rfl
  rw [FilterStream.promised, FilterRules.pieces_of_shown hShown Sight.noConfusion, hRest,
    FilterRules.pieces_of_error hCutOff] at hFlows
  rw [← hFeed] at hMake
  obtain ⟨outcome, after, hStart, hFails⟩ := output_of_failed_run tree s hRead hOutput
  obtain ⟨hCode, hFailure, hHolds, _⟩ :=
    hFails.brokenOff g created f ['a'] (.invalidUtf8 2) _ hReady hWrite hMake hFlows
  exact ⟨a, outcome, after, hRead, hOutput, hStart, hFails, hCode, hFailure, hHolds⟩

end Program

end Placeholder
