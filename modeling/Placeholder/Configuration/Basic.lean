import Placeholder.Filter.Options
import Placeholder.Model
/-!
What a configuration says, and reading it from TOML. Keys that mean nothing are passed over, though
their numbers must fit some bounds; a key that has the wrong kind of value makes the whole configuration
malformed.
-/
namespace Placeholder

/-- Where a project model is kept, and the prefixes under which it answers. -/
structure Project where
  path : Text
  prefixes : List Text
deriving DecidableEq

/-- A configuration. -/
structure Configuration where
  filter : FilterOptions
  /-- Properties that are asked before those of the filter files. -/
  properties : Table
  /-- Paths of property files, seen from the root of the configuration. -/
  filters : List Text
  project : Option Project
  /-- Whether values that look like paths with backslashes get them doubled. -/
  windowsPaths : Bool
  /-- Whether environment variables are values. -/
  environment : Bool
deriving DecidableEq

namespace Toml.Written

def text? : Written → Option Text
  | text value => some value
  | _ => none

def boolean? : Written → Option Bool
  | boolean value => some value
  | _ => none

def texts? : Written → Option (List Text)
  | list items => items.mapM text?
  | _ => none

/-- The natural number that a value is; it has at most sixty-four bits. -/
def natural? : Written → Option Nat
  | integer value => if 0 ≤ value ∧ value ≤ greatestUnsigned then some value.toNat else none
  | _ => none

/-- The texts in a table. A date or time is a table too, of its text under the key of one. -/
def textTable? : Written → Option Placeholder.Table
  | moment value => some (.ofList [(momentKey, value.write)])
  | table members =>
    (members.mapM fun member => (text? member.2).map fun value => (member.1, value)).map
      Placeholder.Table.ofList
  | _ => none

/-- What a member of a table reads as, or a default if there is no such member. -/
def read {α : Type} (kind : Written → Option α) (default : α) (members : List (Text × Written))
    (key : String) : Option α :=
  match members.lookup key.toList with
  | none => some default
  | some value => kind value

end Toml.Written

open Toml

namespace Project

/-- Whether a member of the table of a project has a meaning, or its whole numbers have no more than a
hundred and twenty-eight bits. -/
def memberFits (member : Text × Written) : Bool :=
  ["path", "prefixes"].any (fun key => member.1 = key.toList) ||
    member.2.numbersWithin (-(pow2 127 : Int)) ((pow2 128 : Int) - 1)

def ofWritten? : Written → Option Project
  | .table members => do
    let path ← (members.lookup "path".toList).bind Written.text?
    let prefixes ← Written.read Written.texts? Model.standardPrefixes members "prefixes"
    if members.all memberFits then some ⟨path, prefixes⟩ else none
  | .list (path :: rest) => do
    let path ← path.text?
    let prefixes ← match rest with
      | [] => some Model.standardPrefixes
      | prefixes :: _ => prefixes.texts?
    return ⟨path, prefixes⟩
  | _ => none

end Project

namespace FilterOptions

def ofWritten? (members : List (Text × Written)) : Option FilterOptions := do
  let d := FilterOptions.standard
  let delimiters ← Written.read Written.texts? d.delimiters members "delimiters"
  let escapeString ← Written.read (fun v => v.text?.map some) d.escapeString members "escape_string"
  let preserveEscape ←
    Written.read Written.boolean? d.preserveEscape members "preserve_escape_string"
  let multiLine ← Written.read Written.boolean? d.multiLine members "support_multi_line_filtering"
  let wholeToken ←
    Written.read Written.boolean? d.wholeToken members "interpolate_with_prefix_pattern"
  let maxExpression ← Written.read Written.natural? d.maxExpression members "max_expression_length"
  return ⟨delimiters, escapeString, preserveEscape, multiLine, wholeToken, maxExpression⟩

end FilterOptions

namespace Configuration

/-- The configuration that says nothing. -/
def standard : Configuration where
  filter := .standard
  properties := .empty
  filters := []
  project := none
  windowsPaths := true
  environment := true

/-- The keys that do not concern the filter. -/
def ownKeys : List String :=
  ["properties", "filters", "project", "escape_windows_paths", "environment"]

/-- Whether a member has one of these keys. All others are looked through for the switches of the
filter, and then their whole numbers must have sixty-four bits, with a sign or without. -/
def memberFits (member : Text × Written) : Bool :=
  ownKeys.any (fun key => member.1 = key.toList) ||
    member.2.numbersWithin leastSigned greatestUnsigned

def ofMembers? (members : List (Text × Written)) : Option Configuration := do
  let filter ← FilterOptions.ofWritten? members
  let properties ← Written.read Written.textTable? .empty members "properties"
  let filters ← Written.read Written.texts? [] members "filters"
  let project ← Written.read (fun v => (Project.ofWritten? v).map some) none members "project"
  let windowsPaths ← Written.read Written.boolean? true members "escape_windows_paths"
  let environment ← Written.read Written.boolean? true members "environment"
  if members.all memberFits then
    some ⟨filter, properties, filters, project, windowsPaths, environment⟩
  else none

def ofWritten? : Written → Option Configuration
  | .table members => ofMembers? members
  | _ => none

def parse (content : Text) : Except Failure Configuration :=
  match (TomlFile.read? content).bind ofWritten? with
  | some configuration => .ok configuration
  | none => .error .configuration

def ofRead (file : FileRead) : Except Failure Configuration := do
  let content ← file.text.mapError .io
  parse content

/-- Where a configuration may be, the first place first. -/
def candidates (root : Text) : List Text :=
  ["interpol.toml", ".interpol.toml", ".config/interpol.toml"].map fun name =>
    Path.join root name.toList

def locate {m : Type → Type} [Monad m] (storage : Storage m) (root : Text) : m (Option Text) :=
  storage.firstFile (candidates root)

def load {m : Type → Type} [Monad m] (storage : Storage m) (root : Text) :
    m (Except Failure (Option Configuration)) := do
  match ← locate storage root with
  | none => return .ok none
  | some path => return (ofRead (← storage.read path)).map some

end Configuration

end Placeholder
