import Placeholder.Files.Storage
import Placeholder.Property.File
import Placeholder.Property.Resolver
/-!
Loading property files in order. Each file is resolved against the properties known before it and is
then known itself; the result holds what the files say and nothing else. The first file that cannot
be read, or is malformed, ends the loading.
-/
namespace Placeholder

/-- The table that a file writes, its references not resolved. -/
def PropertyFile.ofRead (file : FileRead) : Except Failure Table := do
  let content ← file.data
  PropertyFile.read file.path content

namespace PropertyResolver

/-- The resolved entries of several tables, and the warnings on the way. -/
structure Loaded where
  table : Table
  warnings : List CircularWarning
deriving DecidableEq

/-- Resolves tables in order; of two entries for one key the later wins. -/
def resolveAll (r : PropertyResolver) : List Table → Loaded
  | [] => ⟨.empty, []⟩
  | table :: rest =>
    let later := (r.learn table).resolveAll rest
    ⟨(r.resolved table).overlay later.table, r.warnings table ++ later.warnings⟩

/-- Loads files in order. -/
def load (r : PropertyResolver) (files : List FileRead) : Except Failure Loaded := do
  let tables ← files.mapM PropertyFile.ofRead
  return r.resolveAll tables

end PropertyResolver

end Placeholder
