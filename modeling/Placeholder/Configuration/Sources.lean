import Placeholder.Configuration.Basic
import Placeholder.Expander
import Placeholder.Finisher
import Placeholder.Property.Loading
/-!
The expander that a configuration describes. Its sources are asked in this order: definitions that
override everything, the properties of the configuration, those of the filter files, the project model
under its prefixes, and the environment. A filter file sees the first two, and as a fallback the
environment.
-/
namespace Placeholder

/-- The files that a configuration names, as they were read. -/
structure ConfigurationFiles where
  filters : List FileRead
  model : Option FileRead

/-- An expander, and the warnings on the way to it. -/
structure Prepared where
  expander : Expander
  warnings : List CircularWarning

namespace Configuration

def visible (c : Configuration) (vars : Table) : Table :=
  if c.environment then vars else .empty

def resolver (c : Configuration) (overrides vars : Table) : PropertyResolver :=
  ⟨c.properties.overlay overrides, c.visible vars⟩

def modelSource (project : Project) (model : Document) : ValueSource :=
  .prefixed project.prefixes false (.ofDocument model)

def modelSources (c : Configuration) (file : Option FileRead) : Except Failure (List ValueSource) :=
  match c.project, file with
  | some project, some file => (Model.ofRead file).map fun model => [modelSource project model]
  | _, _ => .ok []

/-- All sources in order. -/
def sources (c : Configuration) (overrides vars filtered : Table) (model : List ValueSource) :
    List ValueSource :=
  [.ofTable overrides, .ofTable c.properties, .ofTable filtered] ++ model ++
    (if c.environment then [.ofEnvironment vars] else [])

def expander (c : Configuration) (sources : List ValueSource) : Expander where
  sources := sources
  finishers := if c.windowsPaths then [Finisher.windowsPath] else []
  markup := .standard
  recursive := true
  remembers := false

/-- The expander, from the files that were read. Filter files come before the model, so of two faults
that of a filter file is reported. -/
def prepare (c : Configuration) (overrides vars : Table) (files : ConfigurationFiles) :
    Except Failure Prepared := do
  let loaded ← (c.resolver overrides vars).load files.filters
  let model ← c.modelSources files.model
  return ⟨c.expander (c.sources overrides vars loaded.table model), loaded.warnings⟩

def readFiles {m : Type → Type} [Monad m] (c : Configuration) (storage : Storage m) (root : Text) :
    m ConfigurationFiles := do
  let filters ← storage.readAll (c.filters.map (Path.join root))
  match c.project with
  | none => return ⟨filters, none⟩
  | some project => return ⟨filters, some (← storage.read (Path.join root project.path))⟩

end Configuration

end Placeholder
