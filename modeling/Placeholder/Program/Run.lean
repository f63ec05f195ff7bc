import Placeholder.Configuration.Sources
import Placeholder.Files.Tree
import Placeholder.Filter.Stream
import Placeholder.Program.Arguments
/-!
One run of the program. The configuration is loaded and the command line laid over it, the sources are
made ready, the input is opened and the switches of the filter are read; only then is the output file
created, so a fault before that changes no file. The input is read last. What is filtered before a fault
in it is still delivered.

`Program.run` asks a `Storage` for files, so it runs on a disk and on a `FileTree` alike. A run that
never ends because one of its expansions does not gives `none`.
-/
namespace Placeholder

/-- Something that the user is told about a run. -/
inductive Notice where
  | configuration (path : Option Text)
  | circular (warning : CircularWarning)
  | filtered (input output : Option Text)
deriving DecidableEq

namespace Notice

def message : Notice → String
  | configuration path => "config: " ++ String.ofList (path.getD "none".toList)
  | circular warning => warning.message
  | filtered input output =>
    "filtered " ++ String.ofList (input.getD "<stdin>".toList) ++ " -> " ++
      String.ofList (output.getD "<stdout>".toList)

end Notice

/-- What a run comes to. -/
structure RunResult where
  /-- What is written to the standard output. -/
  output : Bytes
  failure : Option Failure
  notices : List Notice

/-- The variable in a line `NAME=VALUE` of an environment. A name has at least one character, and an
equals sign in the first place belongs to it. -/
def variableOf? : Text → Option (Text × Text)
  | [] => none
  | first :: rest =>
    (Text.breakOn ['='] rest).map fun (name, value) => (first :: name, value)

/-- The variables of an environment. Other lines do not count, and of two with one name the later
wins. -/
def Table.ofEnvironment (lines : List Text) : Table :=
  .ofList (lines.filterMap variableOf?)

/-- What stands at the standard input. -/
inductive StandardInput where
  /-- A pipe, which hands out the same whatever becomes of the files. -/
  | piped (feed : Feed) (plain : feed.Plain)
  /-- A file. To open it is taken as a part of the run; it is read when the run gets to it. -/
  | file (path : Text)

namespace StandardInput

/-- A pipe with these bytes. -/
def ofBytes (bytes : Bytes) : StandardInput := .piped (.ofBytes bytes) (Feed.plain_ofBytes bytes)

def path? : StandardInput → Option Text
  | piped _ _ => none
  | file path => some path

end StandardInput

/-- What is given to a run besides its command line and the files. -/
structure Surroundings where
  /-- The variables of the environment. All of them are text: a run is not described here that meets
  a name or a value which is not UTF-8. -/
  vars : Table
  input : StandardInput

namespace Arguments

/-- The configuration with the command line laid over it. Paths on the command line are seen from
`directory` and not from the root of the configuration. -/
def layOver (a : Arguments) (directory : Text) (c : Configuration) : Configuration :=
  { c with
    filter :=
      { c.filter with
        delimiters := if a.delimiters.isEmpty then c.filter.delimiters else a.delimiters
        escapeString := a.escape.or c.filter.escapeString
        preserveEscape := a.preserveEscape || c.filter.preserveEscape
        multiLine := a.multiLine || c.filter.multiLine }
    filters := c.filters ++ a.filterFiles.map (Path.absolute directory)
    project :=
      match a.project with
      | some path => some ⟨Path.absolute directory path, Model.standardPrefixes⟩
      | .none => c.project
    environment := c.environment && !a.noEnvironment }

end Arguments

namespace Program

variable {m : Type → Type} [Monad m]

/-- A result without output. -/
def failed (failure : Failure) (notices : List Notice) : RunResult := ⟨[], some failure, notices⟩

def feedOf (content : Except IoFailure Bytes) : Feed :=
  match content with
  | .ok bytes => .ofBytes bytes
  | .error failure => .ofFailure failure

/-- Opens the input that the command line names, or else what stands at the standard input. -/
def openInput (storage : Storage m) (s : Surroundings) (a : Arguments) : m (Except Failure Unit) := do
  match a.input, s.input with
  | some path, _ => return (← storage.open? path).mapError (.unreadableData path)
  | none, .piped _ _ => return .ok ()
  | none, .file path => return (← storage.open? path).mapError .io

def inputFeed (storage : Storage m) (s : Surroundings) (a : Arguments) : m Feed := do
  match a.input, s.input with
  | some path, _ => return feedOf (← storage.content path)
  | none, .piped feed _ => return feed
  | none, .file path => return feedOf (← storage.content path)

def createOutput (storage : Storage m) (a : Arguments) : m (Except Failure Unit) := do
  match a.output with
  | none => return .ok ()
  | some path => return (← storage.create path).mapError .io

/-- A failure as it comes out of a copy, which knows I/O failures only. -/
def ofCopy (failure : Failure) : Failure := .ofIo failure.toIo

def deliver (storage : Storage m) (a : Arguments) (notices : List Notice)
    (filtered : Bytes × Option Failure) : m RunResult := do
  let failure? := filtered.2.map ofCopy
  match a.output with
  | none => return ⟨filtered.1, failure?, notices⟩
  | some path =>
    match ← storage.fill path filtered.1 with
    | .ok () => return ⟨[], failure?, notices⟩
    | .error failure => return ⟨[], some (failure?.getD (.io failure)), notices⟩

/-- Notices that are given only if they are asked for. -/
def onDemand (a : Arguments) (notice : Notice) : List Notice :=
  if a.verbose then [notice] else []

def filter (storage : Storage m) (s : Surroundings) (a : Arguments) (c : Configuration)
    (expander : Expander) (notices : List Notice) : m (Option RunResult) := do
  match ← openInput storage s a with
  | .error failure => return some (failed failure notices)
  | .ok () =>
    match c.filter.measured with
    | .error failure => return some (failed failure notices)
    | .ok _ =>
      match ← createOutput storage a with
      | .error failure => return some (failed failure notices)
      | .ok () =>
        let feed ← inputFeed storage s a
        match FilterStream.make c.filter expander (.fresh .empty) (.ofFeed feed) with
        | .error failure => return some (failed failure notices)
        | .ok stream =>
          match stream.copy with
          | none => return none
          | some (filtered, _) =>
            let notices := if filtered.2.isNone then
                notices ++ onDemand a (.filtered a.input a.output)
              else notices
            return some (← deliver storage a notices filtered)

def root (a : Arguments) (directory : Text) : Text :=
  a.path.getD directory

/-- The definitions of the command line; of two for one key the later wins. -/
def overrides (a : Arguments) : Table :=
  .ofList a.defines

def run (storage : Storage m) (s : Surroundings) (a : Arguments) : m (Option RunResult) := do
  let directory ← storage.workingDirectory
  let root := root a directory
  let place ← Configuration.locate storage root
  match ← Configuration.load storage root with
  | .error failure => return some (failed failure [])
  | .ok found =>
    let c := a.layOver directory (found.getD .standard)
    let notices := onDemand a (.configuration place)
    let files ← c.readFiles storage root
    match c.prepare (overrides a) s.vars files with
    | .error failure => return some (failed failure notices)
    | .ok prepared =>
      filter storage s a c prepared.expander (notices ++ prepared.warnings.map .circular)

def versionText : String := "interpol_cli 0.1.0"

def helpText : String :=
  "Replace expressions in a text stream with values from properties, project models and the\n" ++
  "environment.\n\n" ++
  "Usage: interpol [OPTIONS] [INPUT]\n\n" ++
  "Options:\n" ++
  "  -o, --output <OUTPUT>     Write the filtered text here instead of stdout\n" ++
  "  -p, --path <PATH>         Directory searched for interpol.toml\n" ++
  "  -D, --define <KEY=VALUE>  Define a property\n" ++
  "      --filter-file <FILE>  Load a properties file\n" ++
  "      --project <FILE>      Project model document (json, toml or yaml)\n" ++
  "      --delimiter <SPEC>    Delimiter in BEGIN*END or symmetric TOKEN form\n" ++
  "      --escape <STRING>     Escape string that turns a begin token into literal text\n" ++
  "      --preserve-escape     Keep the escape string in the output\n" ++
  "      --multi-line          Allow expressions to span several lines\n" ++
  "      --no-env              Do not expose environment variables\n" ++
  "  -v, --verbose             Enable verbose output\n" ++
  "      --no-color            Disable colored output\n" ++
  "  -h, --help                Print help\n" ++
  "  -V, --version             Print version\n"

/-- What the program does with a command line. -/
inductive Outcome where
  | stopped (stop : ArgumentStop)
  | ran (result : RunResult)

def start (storage : Storage m) (s : Surroundings) (words : List Text) : m (Option Outcome) := do
  match Arguments.read words with
  | .error stop => return some (.stopped stop)
  | .ok a => return (← run storage s a).map .ran

namespace Outcome

def exitCode : Outcome → UInt8
  | stopped .help => 0
  | stopped .version => 0
  | stopped _ => 2
  | ran result => (result.failure.map Failure.exitCode).getD 0

def output : Outcome → Bytes
  | stopped .version => Utf8.encodeText (versionText.toList ++ ['\n'])
  | stopped .help => Utf8.encodeText helpText.toList
  | stopped _ => []
  | ran result => result.output

def failure? : Outcome → Option Failure
  | stopped _ => none
  | ran result => result.failure

end Outcome

end Program

end Placeholder
