import Placeholder.Proofs.Expansion.Failing
import Placeholder.Proofs.Program.Settings
import Placeholder.Proofs.Sources.FiniteAnswers
import Placeholder.Proofs.Sources.Order
import Placeholder.Proofs.Table.Lookup
/-!
What a run reads before it filters anything: the configuration, the filter files and the project
model. From these, the command line and the environment come the switches of the filter and the
expander; `Groundwork.lookups` says which of its sources answers. A run gets as far as filtering exactly
if there is a groundwork for it, its markup can be read and its input can be opened.
-/
namespace Placeholder

namespace Path

theorem isAbsolute_join {root : Text} (h : isAbsolute root = true) (path : Text) :
    isAbsolute (join root path) = true := by
  cases root with
  | nil => cases h
  | cons c root =>
      rw [join]
      split
      · rename_i hOther
        simpa using hOther
      · split <;> exact h

theorem isAbsolute_foldl_join {start : Text} (h : isAbsolute start = true) (steps : List Text) :
    isAbsolute (steps.foldl join start) = true := by
  induction steps generalizing start with
  | nil => exact h
  | cons step steps ih => exact ih (isAbsolute_join h step)

/-- From an absolute directory every path gets absolute. -/
theorem isAbsolute_absolute {directory : Text} (h : isAbsolute directory = true) (path : Text) :
    isAbsolute (absolute directory path) = true := by
  have hStart : isAbsolute (start directory path) = true := by
    rw [start]
    split
    · rfl
    · split
      · rfl
      · exact h
  rw [absolute]
  split
  · exact isAbsolute_join (isAbsolute_foldl_join hStart _) []
  · exact isAbsolute_foldl_join hStart _

/-- An absolute path is the same from everywhere. -/
theorem join_of_isAbsolute {path : Text} (h : isAbsolute path = true) (root : Text) :
    join root path = path := by
  rw [join, h, Bool.true_or, if_pos rfl]

end Path

namespace FileTree

/-- The path of the directory from which paths are seen. -/
def directory (tree : FileTree) : Text := '/' :: Text.join ['/'] tree.here

/-- What comes of reading the files that a configuration names. -/
def filesOf (tree : FileTree) (c : Configuration) (root : Text) : ConfigurationFiles :=
  ⟨c.filters.map fun path => tree.fileAt (Path.join root path),
    c.project.map fun project => tree.fileAt (Path.join root project.path)⟩

/-- What the input is going to hand out. -/
def feed (tree : FileTree) (s : Surroundings) (a : Arguments) : Feed :=
  match a.input, s.input with
  | some path, _ => Program.feedOf (tree.fileAt path).content
  | none, .piped feed _ => feed
  | none, .file path => Program.feedOf (tree.fileAt path).content

end FileTree

namespace Program

/-- The file that the input is read from, if it is one: the one that the command line names, or else the
one at the standard input. -/
def inputPath? (s : Surroundings) (a : Arguments) : Option Text := a.input.or s.input.path?

variable {s : Surroundings} {a : Arguments} {path : Text}

theorem inputPath?_eq_some_iff : inputPath? s a = some path ↔
    a.input = some path ∨ a.input = none ∧ s.input = .file path := by
  rw [inputPath?]
  cases a.input with
  | some named => simp
  | none => cases s.input <;> simp [StandardInput.path?]

theorem inputPath?_eq_none_iff : inputPath? s a = none ↔
    a.input = none ∧ ∃ feed plain, s.input = .piped feed plain := by
  rw [inputPath?]
  cases a.input with
  | some named => simp
  | none =>
      cases s.input with
      | piped feed plain => exact ⟨fun _ => ⟨rfl, feed, plain, rfl⟩, fun _ => rfl⟩
      | file path => simp [StandardInput.path?]

end Program

namespace FileTree

/-- Whether the input can be opened. -/
def Opens (tree : FileTree) (s : Surroundings) (a : Arguments) : Prop :=
  ∀ path, Program.inputPath? s a = some path → ∃ entry, answer path (tree.find path) = .ok entry

/-- An input from a file is what that file holds. -/
theorem feed_of_inputPath {tree : FileTree} {s : Surroundings} {a : Arguments} {path : Text}
    (h : Program.inputPath? s a = some path) :
    tree.feed s a = Program.feedOf (tree.fileAt path).content := by
  rcases Program.inputPath?_eq_some_iff.mp h with hInput | ⟨hInput, hStandard⟩
  · rw [feed, hInput]
  · rw [feed, hInput, hStandard]

/-- Any other input is the same whatever the files are. -/
theorem feed_of_no_inputPath {s : Surroundings} {a : Arguments}
    (h : Program.inputPath? s a = none) (tree other : FileTree) : tree.feed s a = other.feed s a := by
  obtain ⟨hInput, feed, plain, hStandard⟩ := Program.inputPath?_eq_none_iff.mp h
  rw [FileTree.feed, FileTree.feed, hInput, hStandard]

/-- No read of the input fails with a failure that carries one of another layer. -/
theorem plain_feed (tree : FileTree) (s : Surroundings) (a : Arguments) : (tree.feed s a).Plain := by
  have hFile : ∀ path, (Program.feedOf (tree.fileAt path).content).Plain := by
    intro path
    rw [fileAt, answer]
    split
    · exact fun _ _ => ⟨List.not_mem_nil, nofun⟩
    · cases tree.read path with
      | ok bytes => exact Feed.plain_ofBytes bytes
      | error fault => exact fun _ _ => ⟨List.not_mem_nil, nofun⟩
  rw [feed]
  cases a.input with
  | some path => exact hFile path
  | none =>
      cases s.input with
      | piped feed plain => exact plain
      | file path => exact hFile path

theorem readFiles_storage (tree : FileTree) (c : Configuration) (root : Text) :
    c.readFiles storage root tree = (tree.filesOf c root, tree) := by
  simp only [Configuration.readFiles, filesOf, bind, StateT.bind, storage_readAll, List.map_map]
  cases c.project <;> rfl

theorem load_storage (tree : FileTree) (root : Text) :
    ∃ found, Configuration.load storage root tree = (found, tree) ∧
      found.map (·.getD .standard) = tree.configuration root := by
  simp only [Configuration.load, Configuration.locate, configuration, bind, StateT.bind,
    storage_firstFile]
  cases (Configuration.candidates root).find? tree.isFile with
  | none => exact ⟨_, rfl, rfl⟩
  | some path =>
      refine ⟨(Configuration.ofRead (tree.fileAt path)).map some, rfl, ?_⟩
      show _ = Configuration.ofRead (tree.fileAt path)
      cases Configuration.ofRead (tree.fileAt path) <;> rfl

end FileTree

/-- What a run goes by when it filters. -/
structure Groundwork where
  configuration : Configuration
  /-- The switches of the filter. -/
  options : FilterOptions
  /-- What the filter files say, in order. -/
  tables : List Table
  /-- The project model, and the prefixes under which it answers. -/
  model : Option (List Text × Document)

namespace Groundwork

variable (g : Groundwork) (tree : FileTree) (a : Arguments) (vars : Table)

/-- The configuration with the command line laid over it. -/
def settings : Configuration := a.layOver tree.directory g.configuration

/-- The filter files: those of the configuration, seen from its root, and then those of the command
line, seen from the working directory. -/
def filterPaths : List Text :=
  g.configuration.filters.map (Path.join (Program.root a tree.directory)) ++
    a.filterFiles.map (Path.absolute tree.directory)

/-- The project: that of the command line, or else that of the configuration. -/
def project? : Option Project :=
  match a.project with
  | some path => some ⟨Path.absolute tree.directory path, Model.standardPrefixes⟩
  | none => g.configuration.project.map fun project =>
    ⟨Path.join (Program.root a tree.directory) project.path, project.prefixes⟩

/-- Whether variables of the environment are values. -/
def showsEnvironment : Bool := g.configuration.environment && !a.noEnvironment

/-- What becomes of the filter files, one after the other. They may refer to the properties and the
definitions, and to the environment where nothing else answers. -/
def loaded : PropertyResolver.Loaded :=
  PropertyResolver.resolveAll
    ⟨g.configuration.properties.overlay (Program.overrides a),
      if g.showsEnvironment a then vars else .empty⟩ g.tables

/-- What is asked for the value of an expression, in order: the definitions, of which the last one for
a key counts, the properties, the filter files, the project model behind one of its prefixes, and the
environment. -/
def lookups : List (Text → Option Text) :=
  [fun key => a.defines.reverse.lookup key, g.configuration.properties.get?,
    (g.loaded a vars).table.get?] ++
  (g.model.map fun model expression => (dropAccepted model.1 expression).bind model.2.get?).toList ++
  if g.showsEnvironment a then
    [fun expression => (ValueSource.environmentPrefix.isPrefixOf? expression).bind vars.get?]
  else []

/-- The expander of a run. It has no source that fails, its values are read with the standard markup as
long as no filter says otherwise, and they may hold placeholders themselves. -/
def expander : Expander where
  sources := (g.lookups a vars).map .ofAnswers
  finishers := if g.configuration.windowsPaths then [Finisher.windowsPath] else []
  markup := .standard
  recursive := true
  remembers := false

/-- In other words, they are tables, the project model and the environment. -/
theorem sources_expander :
    (g.expander a vars).sources =
      [.ofTable (Program.overrides a), .ofTable g.configuration.properties,
        .ofTable (g.loaded a vars).table] ++
      (g.model.map fun model => .prefixed model.1 false (.ofDocument model.2)).toList ++
      if g.showsEnvironment a then [.ofEnvironment vars] else [] := by
  have hDefines : ValueSource.ofTable (Program.overrides a) =
      .ofAnswers fun key => a.defines.reverse.lookup key := by
    rw [ValueSource.ofTable]
    congr 1
    funext key
    exact Table.get?_ofList a.defines key
  have hModel : (g.model.map fun model =>
        ValueSource.prefixed model.1 false (.ofDocument model.2)).toList =
      (g.model.map fun model expression =>
        (dropAccepted model.1 expression).bind model.2.get?).toList.map ValueSource.ofAnswers := by
    cases g.model with
    | none => rfl
    | some model => exact congrArg (fun source => [source]) (prefixed_ofAnswers model.1 model.2.get?)
  rw [expander, lookups, List.map_append, List.map_append, hModel, hDefines]
  cases g.showsEnvironment a <;> rfl

theorem ask_expander (expression : Text) :
    ((g.expander a vars).ask expression).1 = .ok ((g.lookups a vars).findSome? (· expression)) := by
  have hOrder := askInOrder_ofAnswers (g.lookups a vars) expression 0 []
  rw [List.append_nil] at hOrder
  rw [Expander.ask, expander, hOrder]
  cases (g.lookups a vars).findSome? (· expression) <;> rfl

theorem not_refuses_expander (failure : Failure) : ¬ (g.expander a vars).Refuses failure := by
  rintro ⟨source, hMem, expression, hFails⟩
  obtain ⟨answers, _, rfl⟩ := List.mem_map.mp hMem
  cases hFails

theorem finite_answers_expander :
    ∀ source ∈ (g.expander a vars).sources, source.answers.Finite := by
  intro source hMem
  rw [sources_expander] at hMem
  simp only [List.cons_append, List.nil_append, List.mem_cons, List.mem_append, Option.mem_toList,
    Option.map_eq_some_iff] at hMem
  rcases hMem with rfl | rfl | rfl | ⟨model, _, rfl⟩ | hVars
  · exact ValueSource.finite_answers_ofTable _
  · exact ValueSource.finite_answers_ofTable _
  · exact ValueSource.finite_answers_ofTable _
  · exact ValueSource.finite_answers_prefixed _ _ (ValueSource.finite_answers_ofDocument _)
  · split at hVars
    · obtain rfl := List.mem_singleton.mp hVars
      exact ValueSource.finite_answers_ofEnvironment _
    · cases hVars

/-- The filter files of the settings are read where `filterPaths` says. -/
theorem map_filters_filesOf :
    (tree.filesOf (g.settings tree a) (Program.root a tree.directory)).filters.map
        PropertyFile.ofRead =
      (g.filterPaths tree a).map fun path => PropertyFile.ofRead (tree.fileAt path) := by
  have hAbsolute : ∀ path, Path.join (Program.root a tree.directory)
      (Path.absolute tree.directory path) = Path.absolute tree.directory path := fun path =>
    Path.join_of_isAbsolute (Path.isAbsolute_absolute rfl path) _
  simp only [FileTree.filesOf, settings, Arguments.layOver, filterPaths, List.map_append, List.map_map,
    Function.comp_def, hAbsolute]

/-- The project of the settings, once its path is seen from the root. -/
theorem project?_eq :
    g.project? tree a = (g.settings tree a).project.map fun project =>
      ⟨Path.join (Program.root a tree.directory) project.path, project.prefixes⟩ := by
  rw [project?, settings, Arguments.layOver]
  cases a.project with
  | none => rfl
  | some path =>
      show _ = some (Project.mk (Path.join _ (Path.absolute tree.directory path)) _)
      rw [Path.join_of_isAbsolute (Path.isAbsolute_absolute rfl path)]

/-- The sources for the project of the settings, which come from its model. -/
theorem modelSources_filesOf :
    (g.settings tree a).modelSources
        (tree.filesOf (g.settings tree a) (Program.root a tree.directory)).model =
      match g.project? tree a with
      | none => .ok []
      | some project => (Model.ofRead (tree.fileAt project.path)).map fun model =>
          [.prefixed project.prefixes false (.ofDocument model)] := by
  rw [project?_eq]
  simp only [Configuration.modelSources, FileTree.filesOf]
  cases (g.settings tree a).project <;> rfl

end Groundwork

namespace FileTree

/-- What is read is this groundwork. -/
structure Grounds (tree : FileTree) (a : Arguments) (g : Groundwork) : Prop where
  configured : tree.Configures (Program.root a tree.directory) g.configuration
  laid : a.LaysOver g.configuration.filter g.options
  filters : (g.filterPaths tree a).map (fun path => PropertyFile.ofRead (tree.fileAt path)) =
    g.tables.map .ok
  model : (g.project? tree a).map (fun project =>
    (Model.ofRead (tree.fileAt project.path)).map (project.prefixes, ·)) = g.model.map .ok

/-- What is read is this groundwork, and nothing else stands in the way of filtering. -/
structure Ready (tree : FileTree) (s : Surroundings) (a : Arguments) (g : Groundwork) : Prop extends
    tree.Grounds a g where
  /-- Every delimiter has a meaning, and so has the escape string. -/
  markup : ∃ markup, g.options.markup = .ok markup
  opens : tree.Opens s a

variable {tree : FileTree} {a : Arguments} {g : Groundwork}

theorem Grounds.configuration (h : tree.Grounds a g) :
    tree.configuration (Program.root a tree.directory) = .ok g.configuration :=
  configures_iff.mp h.configured

theorem Grounds.options (h : tree.Grounds a g) : (g.settings tree a).filter = g.options :=
  (laysOver_iff _).mp h.laid

/-- What is read is one groundwork. -/
theorem Grounds.unique {g other : Groundwork} (h : tree.Grounds a g)
    (hOther : tree.Grounds a other) : g = other := by
  obtain ⟨c, options, tables, model⟩ := g
  obtain ⟨c', options', tables', model'⟩ := other
  obtain rfl : c = c' := Except.ok.inj (h.configuration.symm.trans hOther.configuration)
  obtain rfl : options = options' := h.options.symm.trans hOther.options
  have hOk : ∀ α : Type, Function.Injective (Except.ok : α → Except Failure α) :=
    fun α first second hSame => Except.ok.inj hSame
  obtain rfl : tables = tables' :=
    List.map_injective_iff.mpr (hOk Table) (h.filters.symm.trans hOther.filters)
  obtain rfl : model = model' :=
    Option.map_injective (hOk _) (h.model.symm.trans hOther.model)
  rfl

theorem Grounds.modelSources (h : tree.Grounds a g) :
    (g.settings tree a).modelSources
        (tree.filesOf (g.settings tree a) (Program.root a tree.directory)).model =
      .ok (g.model.map fun model => .prefixed model.1 false (.ofDocument model.2)).toList := by
  have hModel := h.model
  rw [Groundwork.modelSources_filesOf]
  cases hProject : g.project? tree a with
  | none =>
      rw [hProject] at hModel
      rw [Option.map_eq_none_iff.mp hModel.symm]
      rfl
  | some project =>
      rw [hProject] at hModel
      obtain ⟨model, hSome, hRead⟩ := Option.map_eq_some_iff.mp hModel.symm
      rw [hSome]
      dsimp only at hRead
      cases hFile : Model.ofRead (tree.fileAt project.path) with
      | error failure =>
          rw [hFile] at hRead
          cases hRead
      | ok document =>
          rw [hFile] at hRead
          cases hRead
          simp only [hFile]
          rfl

theorem mapM_filters (h : (g.filterPaths tree a).map
      (fun path => PropertyFile.ofRead (tree.fileAt path)) = g.tables.map .ok) :
    (tree.filesOf (g.settings tree a) (Program.root a tree.directory)).filters.mapM
      PropertyFile.ofRead = .ok g.tables := by
  rw [mapM_eq_ok_iff, Groundwork.map_filters_filesOf, h]

/-- From its groundwork a run makes its expander. -/
theorem Grounds.prepare (h : tree.Grounds a g) (vars : Table) :
    (g.settings tree a).prepare (Program.overrides a) vars
        (tree.filesOf (g.settings tree a) (Program.root a tree.directory)) =
      .ok ⟨g.expander a vars, (g.loaded a vars).warnings⟩ := by
  have hExpander : (g.settings tree a).expander (g.expander a vars).sources = g.expander a vars := rfl
  rw [← hExpander, g.sources_expander a vars]
  simp only [Configuration.prepare, PropertyResolver.load, mapM_filters h.filters, h.modelSources]
  rfl

/-- Sources for a project are only made from a model. -/
theorem exists_model {sources : List ValueSource}
    (h : (g.settings tree a).modelSources
      (tree.filesOf (g.settings tree a) (Program.root a tree.directory)).model = .ok sources) :
    ∃ model : Option (List Text × Document),
      (g.project? tree a).map (fun project =>
        (Model.ofRead (tree.fileAt project.path)).map (project.prefixes, ·)) = model.map .ok := by
  rw [Groundwork.modelSources_filesOf] at h
  cases hProject : g.project? tree a with
  | none => exact ⟨none, rfl⟩
  | some project =>
      simp only [hProject] at h
      cases hFile : Model.ofRead (tree.fileAt project.path) with
      | error failure =>
          rw [hFile] at h
          cases h
      | ok document =>
          refine ⟨some (project.prefixes, document), ?_⟩
          simp only [Option.map_some, hFile]
          rfl

/-- An expander is only made from a groundwork. -/
theorem exists_grounds {vars : Table} {prepared : Prepared}
    (hConfigured : tree.Configures (Program.root a tree.directory) g.configuration)
    (hLaid : a.LaysOver g.configuration.filter g.options)
    (hPrepared : (g.settings tree a).prepare (Program.overrides a) vars
      (tree.filesOf (g.settings tree a) (Program.root a tree.directory)) = .ok prepared) :
    ∃ tables model, tree.Grounds a ⟨g.configuration, g.options, tables, model⟩ := by
  simp only [Configuration.prepare, PropertyResolver.load] at hPrepared
  cases hTables : (tree.filesOf (g.settings tree a)
      (Program.root a tree.directory)).filters.mapM PropertyFile.ofRead with
  | error failure =>
      rw [hTables] at hPrepared
      cases hPrepared
  | ok tables =>
      rw [hTables] at hPrepared
      rw [mapM_eq_ok_iff, Groundwork.map_filters_filesOf] at hTables
      cases hSources : (g.settings tree a).modelSources
          (tree.filesOf (g.settings tree a) (Program.root a tree.directory)).model with
      | error failure =>
          rw [hSources] at hPrepared
          cases hPrepared
      | ok sources =>
          obtain ⟨model, hModel⟩ := exists_model hSources
          exact ⟨tables, model, hConfigured, hLaid, hTables, hModel⟩

/-- Where there is no configuration and the command line says nothing about the filter and its sources, a
run goes by the defaults. -/
theorem ready_standard {s : Surroundings} {input : Text} {entry : FileEntry}
    (hConfigured : tree.configuration (Program.root a tree.directory) = .ok .standard)
    (hLaid : (a.layOver tree.directory .standard).filter = .standard) (hFilters : a.filterFiles = [])
    (hProject : a.project = none) (hInput : Program.inputPath? s a = some input)
    (hFind : answer input (tree.find input) = .ok entry) :
    tree.Ready s a ⟨.standard, .standard, [], none⟩ := by
  refine ⟨⟨configures_iff.mpr hConfigured, (laysOver_iff _).mpr hLaid, ?_, ?_⟩, ⟨_, rfl⟩, ?_⟩
  · rw [Groundwork.filterPaths, hFilters]
    rfl
  · rw [Groundwork.project?, hProject]
    rfl
  · intro path hPath
    obtain rfl := Option.some.inj (hInput.symm.trans hPath)
    exact ⟨entry, hFind⟩

end FileTree

end Placeholder
