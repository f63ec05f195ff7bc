import Placeholder.Configuration.Basic
/-!
The command line. `Arguments.read` reads words one after the other: options with a value, switches,
and at most one word that is neither, the input. A value is judged when the next word is taken, so of
two faults the first one wins unless the second is a word that means nothing.
-/
namespace Placeholder

/-- A definition `KEY=VALUE`, cut at its first equals sign. The key must not be empty. -/
def readDefinition (definition : Text) : Except Failure (Text × Text) :=
  match Text.breakOn ['='] definition with
  | some (key, value) =>
    if key.isEmpty then .error (.invalidDefinition definition) else .ok (key, value)
  | none => .error (.invalidDefinition definition)

/-- What takes a value on the command line. -/
inductive Setting where
  | input
  | output
  | path
  | define
  | filterFile
  | project
  | delimiter
  | escape
deriving DecidableEq, Repr

/-- What is on or off. -/
inductive Switch where
  | preserveEscape
  | multiLine
  | noEnvironment
  | verbose
  | noColor
deriving DecidableEq, Repr

/-- What a name on the command line stands for. -/
inductive ArgumentName where
  | setting (setting : Setting)
  | switch (switch : Switch)
  | help
  | version
deriving DecidableEq, Repr

/-- What the command line says. -/
structure Arguments where
  input : Option Text
  output : Option Text
  path : Option Text
  defines : List (Text × Text)
  filterFiles : List Text
  project : Option Text
  delimiters : List Text
  escape : Option Text
  preserveEscape : Bool
  multiLine : Bool
  noEnvironment : Bool
  verbose : Bool
  noColor : Bool
deriving DecidableEq

/-- Why the command line gives no arguments. -/
inductive ArgumentStop where
  | help
  | version
  | unknownArgument (word : Text)
  /-- A value is missing, or empty where it must not be. -/
  | noValue (setting : Setting)
  | invalidDefinition (failure : Failure)
  | repeatedSetting (setting : Setting)
  | repeatedSwitch (switch : Switch)
  /-- A value where none belongs. -/
  | unwantedValue (value : Text)
deriving DecidableEq

namespace ArgumentName

def long? (name : Text) : Option ArgumentName :=
  match String.ofList name with
  | "output" => some (.setting .output)
  | "path" => some (.setting .path)
  | "define" => some (.setting .define)
  | "filter-file" => some (.setting .filterFile)
  | "project" => some (.setting .project)
  | "delimiter" => some (.setting .delimiter)
  | "escape" => some (.setting .escape)
  | "preserve-escape" => some (.switch .preserveEscape)
  | "multi-line" => some (.switch .multiLine)
  | "no-env" => some (.switch .noEnvironment)
  | "verbose" => some (.switch .verbose)
  | "no-color" => some (.switch .noColor)
  | "help" => some .help
  | "version" => some .version
  | _ => none

def short? (letter : Char) : Option ArgumentName :=
  match letter with
  | 'o' => some (.setting .output)
  | 'p' => some (.setting .path)
  | 'D' => some (.setting .define)
  | 'v' => some (.switch .verbose)
  | 'h' => some .help
  | 'V' => some .version
  | _ => none

end ArgumentName

namespace Arguments

def none : Arguments where
  input := .none
  output := .none
  path := .none
  defines := []
  filterFiles := []
  project := .none
  delimiters := []
  escape := .none
  preserveEscape := false
  multiLine := false
  noEnvironment := false
  verbose := false
  noColor := false

/-- The value of a setting that was not given before and is a path. -/
def onePath (setting : Setting) (before : Option Text) (value : Text) :
    Except ArgumentStop (Option Text) :=
  if before.isSome then .error (.repeatedSetting setting)
  else if value.isEmpty then .error (.noValue setting)
  else .ok (some value)

def set (a : Arguments) (setting : Setting) (value : Text) : Except ArgumentStop Arguments :=
  match setting with
  | .input => (onePath .input a.input value).map fun input => { a with input := input }
  | .output => (onePath .output a.output value).map fun output => { a with output := output }
  | .path => (onePath .path a.path value).map fun path => { a with path := path }
  | .project => (onePath .project a.project value).map fun project => { a with project := project }
  | .define =>
    match readDefinition value with
    | .ok definition => .ok { a with defines := a.defines ++ [definition] }
    | .error failure => .error (.invalidDefinition failure)
  | .filterFile =>
    if value.isEmpty then .error (.noValue .filterFile)
    else .ok { a with filterFiles := a.filterFiles ++ [value] }
  | .delimiter => .ok { a with delimiters := a.delimiters ++ [value] }
  | .escape =>
    if a.escape.isSome then .error (.repeatedSetting .escape)
    else .ok { a with escape := some value }

def isOn (a : Arguments) : Switch → Bool
  | .preserveEscape => a.preserveEscape
  | .multiLine => a.multiLine
  | .noEnvironment => a.noEnvironment
  | .verbose => a.verbose
  | .noColor => a.noColor

def turnOn (a : Arguments) (switch : Switch) : Except ArgumentStop Arguments :=
  if a.isOn switch then .error (.repeatedSwitch switch)
  else .ok <|
    match switch with
    | .preserveEscape => { a with preserveEscape := true }
    | .multiLine => { a with multiLine := true }
    | .noEnvironment => { a with noEnvironment := true }
    | .verbose => { a with verbose := true }
    | .noColor => { a with noColor := true }

end Arguments

/-- A command line that is being read. -/
structure ArgumentReader where
  arguments : Arguments
  /-- The setting that was named last, and its value if that was read. -/
  pending : Option (Setting × Option Text)
  /-- Whether an input was read. -/
  hasInput : Bool
  /-- Whether all further words are inputs. -/
  onlyInputs : Bool

namespace ArgumentReader

def start : ArgumentReader := ⟨.none, none, false, false⟩

def settle (r : ArgumentReader) : Except ArgumentStop ArgumentReader :=
  match r.pending with
  | none => .ok r
  | some (setting, none) => .error (.noValue setting)
  | some (setting, some value) =>
    (r.arguments.set setting value).map fun arguments =>
      { r with arguments := arguments, pending := none }

def await (r : ArgumentReader) (setting : Setting) : Except ArgumentStop ArgumentReader :=
  r.settle.map fun r => { r with pending := some (setting, none) }

def set (r : ArgumentReader) (setting : Setting) (value : Text) :
    Except ArgumentStop ArgumentReader := do
  let r ← r.settle
  let arguments ← r.arguments.set setting value
  return { r with arguments := arguments }

def turnOn (r : ArgumentReader) (switch : Switch) : Except ArgumentStop ArgumentReader := do
  let r ← r.settle
  let arguments ← r.arguments.turnOn switch
  return { r with arguments := arguments }

/-- Stops, unless the pending setting stops first. -/
def halt (r : ArgumentReader) (stop : ArgumentStop) : Except ArgumentStop ArgumentReader := do
  let _ ← r.settle
  .error stop

def input (r : ArgumentReader) (word : Text) : Except ArgumentStop ArgumentReader :=
  if r.hasInput then .error (.unknownArgument word)
  else r.settle.map fun r => { r with pending := some (.input, some word), hasInput := true }

def long (r : ArgumentReader) (word : Text) : Except ArgumentStop ArgumentReader :=
  let name := word.drop 2
  let (name, value) := match Text.breakOn ['='] name with
    | some (name, value) => (name, some value)
    | none => (name, none)
  match ArgumentName.long? name, value with
  | none, _ => .error (.unknownArgument word)
  | some (.setting setting), none => r.await setting
  | some (.setting setting), some value => r.set setting value
  | some _, some value => .error (.unwantedValue value)
  | some (.switch switch), none => r.turnOn switch
  | some .help, none => r.halt .help
  | some .version, none => r.halt .version

def short (r : ArgumentReader) : Text → Except ArgumentStop ArgumentReader
  | [] => .ok r
  | letter :: rest =>
    match ArgumentName.short? letter with
    | none => .error (.unknownArgument ['-', letter])
    | some .help => r.halt .help
    | some .version => r.halt .version
    | some (.switch switch) =>
      match r.turnOn switch with
      | .ok r => r.short rest
      | .error stop => .error stop
    | some (.setting setting) =>
      match rest with
      | [] => r.await setting
      | '=' :: value => r.set setting value
      | value => r.set setting value

def step (r : ArgumentReader) (word : Text) : Except ArgumentStop ArgumentReader :=
  if r.onlyInputs then r.input word
  else
    match word with
    | ['-', '-'] => .ok { r with onlyInputs := true }
    | '-' :: '-' :: _ => r.long word
    | '-' :: c :: rest => r.short (c :: rest)
    | word =>
      match r.pending with
      | some (setting, none) => .ok { r with pending := some (setting, some word) }
      | _ => r.input word

end ArgumentReader

def Arguments.read (words : List Text) : Except ArgumentStop Arguments := do
  let r ← words.foldlM ArgumentReader.step .start
  return (← r.settle).arguments

end Placeholder
