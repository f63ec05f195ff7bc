import Placeholder.Proofs.Filter.Copying
import Placeholder.Proofs.Program.Groundwork
/-!
Everything that a run on a tree can do. Without a groundwork, with an input that cannot be opened or with
switches that are refused, it changes nothing and prints nothing. Then the output is created, if it is a
file, and only then the input is read. A run always ends, since its sources have finitely many answers.
Its exit code is two if it fails, and another one only if the sum for the lookahead overflows.
-/
namespace Placeholder

/-! ### Failures before the input is read -/

theorem PropertyFile.exitCode_of_ofRead {file : FileRead} {failure : Failure}
    (h : PropertyFile.ofRead file = .error failure) : failure.exitCode = 2 := by
  have hEntries : ∀ (path : Text) (table : Table) (entries : List (Nat × Text)),
      readEntries path table entries = .error failure → failure.exitCode = 2 := by
    intro path table entries hFails
    induction entries generalizing table with
    | nil => cases hFails
    | cons entry rest ih =>
        rw [readEntries] at hFails
        split at hFails
        · exact ih _ hFails
        · obtain rfl := Except.error.inj hFails
          rfl
  rw [PropertyFile.ofRead, FileRead.data] at h
  cases hText : file.text with
  | error met =>
      rw [hText] at h
      obtain rfl := Except.error.inj h
      rfl
  | ok content =>
      rw [hText] at h
      exact hEntries _ _ _ h

theorem Model.exitCode_of_ofRead {file : FileRead} {failure : Failure}
    (h : Model.ofRead file = .error failure) : failure.exitCode = 2 := by
  have hParse : ∀ path content format, Model.parse path content format = .error failure →
      failure.exitCode = 2 := by
    intro path content format hFails
    cases format with
    | json =>
        rw [Model.parse] at hFails
        cases hRead : Json.read? content <;> rw [hRead] at hFails <;> cases hFails
        rfl
    | toml =>
        rw [Model.parse] at hFails
        cases hRead : (TomlFile.read? content).bind Toml.Written.toToml? with
        | none =>
            rw [hRead] at hFails
            cases hFails
            rfl
        | some value =>
            rw [hRead] at hFails
            simp only [Option.map_some, Option.getD_some, Model.ofToml] at hFails
            cases hValue : value.toDocument <;> rw [hValue] at hFails <;> cases hFails
            rfl
    | yaml =>
        rw [Model.parse] at hFails
        cases hRead : YamlFile.read? content <;> rw [hRead] at hFails <;> cases hFails
        rfl
  rw [Model.ofRead, FileRead.data] at h
  cases hText : file.text with
  | error met =>
      rw [hText] at h
      obtain rfl := Except.error.inj h
      rfl
  | ok content =>
      rw [hText] at h
      simp only [bind, Except.bind, Model.ofText] at h
      split at h
      · exact hParse _ _ _ h
      · obtain rfl := Except.error.inj h
        rfl

theorem Configuration.exitCode_of_ofRead {file : FileRead} {failure : Failure}
    (h : Configuration.ofRead file = .error failure) : failure.exitCode = 2 := by
  rw [Configuration.ofRead] at h
  cases hText : file.text with
  | error met =>
      rw [hText] at h
      obtain rfl := Except.error.inj h
      rfl
  | ok content =>
      rw [hText] at h
      simp only [Except.mapError, bind, Except.bind, Configuration.parse] at h
      split at h
      · cases h
      · obtain rfl := Except.error.inj h
        rfl

theorem FileTree.exitCode_of_configuration {tree : FileTree} {root : Text} {failure : Failure}
    (h : tree.configuration root = .error failure) : failure.exitCode = 2 := by
  rw [FileTree.configuration] at h
  split at h
  · cases h
  · exact Configuration.exitCode_of_ofRead h

theorem Configuration.exitCode_of_prepare {c : Configuration} {overrides vars : Table}
    {files : ConfigurationFiles} {failure : Failure}
    (h : c.prepare overrides vars files = .error failure) : failure.exitCode = 2 := by
  simp only [Configuration.prepare, PropertyResolver.load] at h
  cases hTables : files.filters.mapM PropertyFile.ofRead with
  | error met =>
      obtain ⟨_, file, _, _, _, hFile⟩ := mapM_eq_error_iff_first.mp hTables
      rw [hTables] at h
      obtain rfl := Except.error.inj h
      exact PropertyFile.exitCode_of_ofRead hFile
  | ok tables =>
      rw [hTables] at h
      cases hSources : c.modelSources files.model with
      | error met =>
          rw [hSources] at h
          obtain rfl := Except.error.inj h
          simp only [Configuration.modelSources] at hSources
          split at hSources
          · exact Model.exitCode_of_ofRead (eq_error_of_map hSources)
          · cases hSources
      | ok sources =>
          rw [hSources] at h
          cases h

namespace Program

/-- What filtering on a tree can come to. -/
inductive Filters (tree : FileTree) (s : Surroundings) (a : Arguments) (c : Configuration)
    (x : Expander) : RunResult → FileTree → Prop
  | unopened {failure : Failure} {notices : List Notice} (hClosed : ¬ tree.Opens s a)
      (hCode : failure.exitCode = 2) : Filters tree s a c x (failed failure notices) tree
  | refused {failure : Failure} {notices : List Notice} (hOpens : tree.Opens s a)
      (hRefused : c.filter.measured = .error failure) :
      Filters tree s a c x (failed failure notices) tree
  | uncreated {path : Text} {failure : IoFailure} {notices : List Notice} (hOpens : tree.Opens s a)
      (hOutput : a.output = some path)
      (hWrite : FileTree.answer path (tree.write path []) = .error failure) :
      Filters tree s a c x (failed (.io failure) notices) tree
  | printed {f : FilterStream} {out : Rendering} {notices : List Notice} (hOpens : tree.Opens s a)
      (hOutput : a.output = none)
      (hMake : FilterStream.make c.filter x (.fresh .empty) (.ofFeed (tree.feed s a)) = .ok f)
      (hFlows : f.Flows out) (hEnds : out.stop ≠ .endless) :
      Filters tree s a c x ⟨Utf8.encodeText out.text, out.failure?, notices⟩ tree
  | written {path : Text} {place : List Text} {f : FilterStream} {out : Rendering}
      {notices : List Notice} (hOpens : tree.Opens s a) (hOutput : a.output = some path)
      (hRoom : tree.room path = .ok place)
      (hMake : FilterStream.make c.filter x (.fresh .empty)
        (.ofFeed (FileTree.feed (tree.put place []) s a)) = .ok f)
      (hFlows : f.Flows out) (hEnds : out.stop ≠ .endless) :
      Filters tree s a c x ⟨[], out.failure?, notices⟩ (tree.put place (Utf8.encodeText out.text))

variable {tree : FileTree} {s : Surroundings} {a : Arguments} {c : Configuration} {x : Expander}

/-- The failure of an input that cannot be opened. One that the command line names is called by its
name. -/
def unopenedInput : Option Text → IoFailure → Failure
  | some path => .unreadableData path
  | none => .io

theorem openInput_of_path {path : Text} (hPath : inputPath? s a = some path) :
    openInput FileTree.storage s a tree =
      (((FileTree.answer path (tree.find path)).map fun _ => ()).mapError (unopenedInput a.input),
        tree) := by
  have hAnswer : FileTree.answer path ((tree.find path).map fun _ => ()) =
      (FileTree.answer path (tree.find path)).map fun _ => () := by
    simp only [FileTree.answer]
    split
    · rfl
    · cases tree.find path <;> rfl
  rw [← hAnswer]
  simp only [openInput]
  rcases inputPath?_eq_some_iff.mp hPath with hInput | ⟨hInput, hStandard⟩
  · rw [hInput]
    rfl
  · rw [hInput, hStandard]
    rfl

theorem openInput_of_no_path (hPath : inputPath? s a = none) :
    openInput FileTree.storage s a tree = (.ok (), tree) := by
  obtain ⟨hInput, feed, plain, hStandard⟩ := inputPath?_eq_none_iff.mp hPath
  simp only [openInput, hInput, hStandard]
  rfl

theorem openInput_storage (tree : FileTree) (s : Surroundings) (a : Arguments) :
    (tree.Opens s a ∧ openInput FileTree.storage s a tree = (.ok (), tree)) ∨
      (¬ tree.Opens s a ∧ ∃ failure, openInput FileTree.storage s a tree = (.error failure, tree) ∧
        failure.exitCode = 2) := by
  cases hPath : inputPath? s a with
  | none =>
      refine .inl ⟨fun path hSome => ?_, openInput_of_no_path hPath⟩
      cases hPath.symm.trans hSome
  | some path =>
      rw [openInput_of_path hPath]
      cases hFind : FileTree.answer path (tree.find path) with
      | error failure =>
          refine .inr ⟨fun hOpens => ?_, _, rfl, ?_⟩
          · obtain ⟨entry, hEntry⟩ := hOpens path hPath
            cases hFind.symm.trans hEntry
          · cases a.input <;> rfl
      | ok entry =>
          refine .inl ⟨fun other hOther => ?_, rfl⟩
          cases hPath.symm.trans hOther
          exact ⟨entry, hFind⟩

theorem openInput_of_opens (h : tree.Opens s a) :
    openInput FileTree.storage s a tree = (.ok (), tree) := by
  rcases openInput_storage tree s a with ⟨_, hOpen⟩ | ⟨hClosed, _⟩
  · exact hOpen
  · exact absurd h hClosed

theorem createOutput_of_error {path : Text} {failure : IoFailure} (hOutput : a.output = some path)
    (hWrite : FileTree.answer path (tree.write path []) = .error failure) :
    createOutput FileTree.storage a tree = (.error (.io failure), tree) := by
  simp only [createOutput, hOutput, bind, StateT.bind, FileTree.storage, hWrite]
  rfl

theorem createOutput_of_ok {path : Text} {next : FileTree} (hOutput : a.output = some path)
    (hWrite : FileTree.answer path (tree.write path []) = .ok next) :
    createOutput FileTree.storage a tree = (.ok (), next) := by
  simp only [createOutput, hOutput, bind, StateT.bind, FileTree.storage, hWrite]
  rfl

theorem inputFeed_storage (tree : FileTree) (s : Surroundings) (a : Arguments) :
    inputFeed FileTree.storage s a tree = (tree.feed s a, tree) := by
  simp only [inputFeed, FileTree.feed]
  cases a.input with
  | some path => rfl
  | none => cases s.input <;> rfl

/-- A file can be created where there is room for it. -/
theorem answer_write {path : Text} {next : FileTree} {content : Bytes}
    (h : FileTree.answer path (tree.write path content) = .ok next) :
    Path.hasZero path = false ∧ ∃ place, tree.room path = .ok place ∧
      next = tree.put place content := by
  rw [FileTree.answer] at h
  split at h
  · cases h
  · rename_i hZero
    rw [FileTree.write] at h
    cases hRoom : tree.room path with
    | error fault =>
        rw [hRoom] at h
        cases h
    | ok place =>
        rw [hRoom] at h
        cases h
        exact ⟨Bool.eq_false_iff.mpr hZero, place, rfl, rfl⟩

/-- What was created is filled with the output. -/
theorem deliver_written {path : Text} {place : List Text} (hOutput : a.output = some path)
    (hZero : Path.hasZero path = false) (hRoom : tree.room path = .ok place)
    (notices : List Notice) (filtered : Bytes × Option Failure) :
    deliver FileTree.storage a notices filtered (tree.put place []) =
      (⟨[], filtered.2.map ofCopy, notices⟩, tree.put place filtered.1) := by
  obtain ⟨above, hRoomy, rfl⟩ := FileTree.roomy_of_room hRoom
  have hAgain := (hRoomy.put []).room
  have hFill : FileTree.storage.fill path filtered.1 (tree.put (above ++ [Path.name path]) []) =
      (.ok (), tree.put (above ++ [Path.name path]) filtered.1) := by
    simp only [FileTree.storage, FileTree.answer, FileTree.write, hZero, hAgain]
    rw [← FileTree.put_put tree _ [] filtered.1]
    rfl
  simp only [deliver, hOutput, bind, StateT.bind, hFill]
  rfl

/-- A failure of the filter comes out of a copy as it is. -/
theorem failure_of_copy {options : FilterOptions} {session : Session} {f : FilterStream}
    {out : Rendering} (hCalm : ∀ failure, ¬ x.Refuses failure)
    (hMake : FilterStream.make options x session (.ofFeed (tree.feed s a)) = .ok f)
    (hFlows : f.Flows out) {failure : Failure} (hFails : out.failure? = some failure) :
    ofCopy failure = failure ∧ failure.exitCode = 2 := by
  have hReach := FilterStream.reach_of_make hMake
  obtain ⟨markup, _, rfl⟩ := FilterStream.eq_of_make hMake
  rcases hFlows.fails hReach rfl hFails with hMay | hRefuses
  · cases hMay with
    | request hMet =>
        rename_i met
        have hPlain : ∀ kind inner, Failure.io met ≠ .io (.carrying kind inner) := by
          rintro kind inner ⟨⟩
          obtain ⟨hDelivered, hEnding⟩ := tree.plain_feed s a kind inner
          rcases hMet with hMem | hBroken
          · exact hDelivered (Feed.mem_failures_iff.mp hMem)
          · exact hEnding hBroken
        exact ⟨Failure.ofIo_toIo hPlain, rfl⟩
    | illFormed => exact ⟨rfl, rfl⟩
  · exact absurd hRefuses (hCalm failure)

/-- Once the output is created, the input is read to its end or to the first failure. -/
theorem filter_of_create {markup : Markup} {next : FileTree} {f : FilterStream}
    (hFinite : ∀ source ∈ x.sources, source.answers.Finite) (hCalm : ∀ failure, ¬ x.Refuses failure)
    (hOpen : openInput FileTree.storage s a tree = (.ok (), tree))
    (hMeasured : c.filter.measured = .ok markup)
    (hCreate : createOutput FileTree.storage a tree = (.ok (), next))
    (hMake : FilterStream.make c.filter x (.fresh .empty) (.ofFeed (next.feed s a)) = .ok f)
    (notices : List Notice) :
    ∃ out told, f.Flows out ∧ out.stop ≠ .endless ∧ out.failure?.map ofCopy = out.failure? ∧
      filter FileTree.storage s a c x notices tree =
        (some (deliver FileTree.storage a told (Utf8.encodeText out.text, out.failure?) next).1,
          (deliver FileTree.storage a told (Utf8.encodeText out.text, out.failure?) next).2) := by
  obtain ⟨out, after, hFlows, hEnds, hCopy⟩ := FilterStream.copy_of_make hFinite hMake
  refine ⟨out, if out.failure?.isNone then notices ++ onDemand a (.filtered a.input a.output)
    else notices, hFlows, hEnds, ?_, ?_⟩
  · cases hFails : out.failure? with
    | none => rfl
    | some failure => exact congrArg some (failure_of_copy hCalm hMake hFlows hFails).1
  · simp only [filter, bind, StateT.bind, hOpen, hMeasured, hCreate, inputFeed_storage, hMake, hCopy]
    rfl

/-- Filtering on a tree comes to one of these ends. -/
theorem filter_storage (tree : FileTree) (s : Surroundings) (a : Arguments) (c : Configuration)
    (hFinite : ∀ source ∈ x.sources, source.answers.Finite) (hCalm : ∀ failure, ¬ x.Refuses failure)
    (notices : List Notice) :
    ∃ result after, filter FileTree.storage s a c x notices tree = (some result, after) ∧
      Filters tree s a c x result after := by
  rcases openInput_storage tree s a with ⟨hOpens, hOpen⟩ | ⟨hClosed, failure, hOpen, hCode⟩
  case inr =>
    refine ⟨failed failure notices, tree, ?_, .unopened hClosed hCode⟩
    simp only [filter, bind, StateT.bind, hOpen]
    rfl
  cases hMeasured : c.filter.measured with
  | error failure =>
      refine ⟨failed failure notices, tree, ?_, .refused hOpens hMeasured⟩
      simp only [filter, bind, StateT.bind, hOpen, hMeasured]
      rfl
  | ok markup =>
      cases hOutput : a.output with
      | none =>
          have hCreate : createOutput FileTree.storage a tree = (.ok (), tree) := by
            simp only [createOutput, hOutput]
            rfl
          obtain ⟨f, hMake⟩ := FilterStream.exists_make hMeasured x (.fresh .empty)
            (.ofFeed (tree.feed s a))
          obtain ⟨out, told, hFlows, hEnds, hSame, hRun⟩ :=
            filter_of_create hFinite hCalm hOpen hMeasured hCreate hMake notices
          simp only [deliver, hOutput, hSame] at hRun
          exact ⟨_, _, hRun, .printed hOpens hOutput hMake hFlows hEnds⟩
      | some path =>
          cases hWrite : FileTree.answer path (tree.write path []) with
          | error failure =>
              have hCreate := createOutput_of_error hOutput hWrite
              refine ⟨failed (.io failure) notices, tree, ?_, .uncreated hOpens hOutput hWrite⟩
              simp only [filter, bind, StateT.bind, hOpen, hMeasured, hCreate]
              rfl
          | ok next =>
              have hCreate := createOutput_of_ok hOutput hWrite
              obtain ⟨hZero, place, hRoom, rfl⟩ := answer_write hWrite
              obtain ⟨f, hMake⟩ := FilterStream.exists_make hMeasured x (.fresh .empty)
                (.ofFeed (FileTree.feed (tree.put place []) s a))
              obtain ⟨out, told, hFlows, hEnds, hSame, hRun⟩ :=
                filter_of_create hFinite hCalm hOpen hMeasured hCreate hMake notices
              rw [deliver_written hOutput hZero hRoom] at hRun
              simp only [hSame] at hRun
              exact ⟨_, _, hRun, .written hOpens hOutput hRoom hMake hFlows hEnds⟩

/-- What a run on a tree can come to. -/
inductive Runs (tree : FileTree) (s : Surroundings) (a : Arguments) : RunResult → FileTree → Prop
  | unprepared {failure : Failure} {notices : List Notice} (hNone : ∀ g, ¬ tree.Grounds a g)
      (hCode : failure.exitCode = 2) : Runs tree s a (failed failure notices) tree
  | filters {g : Groundwork} {result : RunResult} {after : FileTree} (hGrounds : tree.Grounds a g)
      (hFilters : Filters tree s a (g.settings tree a) (g.expander a s.vars) result after) :
      Runs tree s a result after

/-- A run in steps: the configuration is loaded, the expander made ready, and then it filters. -/
theorem run_storage (tree : FileTree) (s : Surroundings) (a : Arguments) :
    run FileTree.storage s a tree =
      match tree.configuration (root a tree.directory) with
      | .error failure => (some (failed failure []), tree)
      | .ok c =>
        let notices := onDemand a (.configuration
          ((Configuration.candidates (root a tree.directory)).find? tree.isFile))
        match (a.layOver tree.directory c).prepare (overrides a) s.vars
            (tree.filesOf (a.layOver tree.directory c) (root a tree.directory)) with
        | .error failure => (some (failed failure notices), tree)
        | .ok prepared =>
          filter FileTree.storage s a (a.layOver tree.directory c) prepared.expander
            (notices ++ prepared.warnings.map .circular) tree := by
  have hDirectory : FileTree.storage.workingDirectory tree = (tree.directory, tree) := rfl
  obtain ⟨found, hLoad, hFound⟩ := tree.load_storage (root a tree.directory)
  rw [← hFound]
  simp only [run, Configuration.locate, bind, StateT.bind, hDirectory, FileTree.storage_firstFile,
    hLoad]
  cases found with
  | error failure => rfl
  | ok found =>
      simp only [Except.map, bind, StateT.bind, FileTree.readFiles_storage]
      cases (a.layOver tree.directory (found.getD .standard)).prepare (overrides a) s.vars
        (tree.filesOf (a.layOver tree.directory (found.getD .standard)) (root a tree.directory)) <;>
        rfl

/-- Every run comes to an end, and to one of these. -/
theorem exists_runs (tree : FileTree) (s : Surroundings) (a : Arguments) :
    ∃ result after, run FileTree.storage s a tree = (some result, after) ∧
      Runs tree s a result after := by
  rw [run_storage]
  cases hConfigured : tree.configuration (root a tree.directory) with
  | error failure =>
      refine ⟨_, _, rfl, .unprepared (fun g hGrounds => ?_)
        (FileTree.exitCode_of_configuration hConfigured)⟩
      cases hConfigured.symm.trans hGrounds.configuration
  | ok c =>
      cases hPrepared : (a.layOver tree.directory c).prepare (overrides a) s.vars
          (tree.filesOf (a.layOver tree.directory c) (root a tree.directory)) with
      | error failure =>
          simp only [hPrepared]
          refine ⟨_, _, rfl, .unprepared (fun g hGrounds => ?_)
            (Configuration.exitCode_of_prepare hPrepared)⟩
          obtain rfl := Except.ok.inj (hConfigured.symm.trans hGrounds.configuration)
          cases hPrepared.symm.trans (hGrounds.prepare s.vars)
      | ok prepared =>
          simp only [hPrepared]
          obtain ⟨tables, model, hGrounds⟩ :=
            FileTree.exists_grounds (g := ⟨c, (a.layOver tree.directory c).filter, [], none⟩)
              (FileTree.configures_iff.mpr hConfigured) ((laysOver_iff tree.directory).mpr rfl)
              hPrepared
          obtain rfl := Except.ok.inj (hPrepared.symm.trans (hGrounds.prepare s.vars))
          obtain ⟨result, after, hFilter, hFilters⟩ := filter_storage tree s a
            (a.layOver tree.directory c) (Groundwork.finite_answers_expander _ a s.vars)
            (Groundwork.not_refuses_expander _ a s.vars) _
          exact ⟨result, after, hFilter, .filters hGrounds hFilters⟩

theorem start_of_run {result : RunResult} (hRead : Arguments.read words = .ok a)
    (hRun : run FileTree.storage s a tree = (some result, after)) :
    start FileTree.storage s words tree = (some (.ran result), after) := by
  simp only [start, hRead, bind, StateT.bind, hRun]
  rfl

theorem failure_of_exitCode {result : RunResult} (h : (Outcome.ran result).exitCode = 0) :
    result.failure = none := by
  cases hFailure : result.failure with
  | none => rfl
  | some failure =>
      rw [Outcome.exitCode, hFailure, Option.map_some, Option.getD_some] at h
      cases failure <;> cases h

end Program

end Placeholder
