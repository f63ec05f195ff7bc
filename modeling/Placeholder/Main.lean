import Placeholder.Program.Run
/-!
The command line program: gives `Program.start` the disk, the environment and the standard input, and
delivers what comes of it. Nothing is decided here.
-/
namespace Placeholder.Main

def bytesOf (array : ByteArray) : Bytes := array.toList

def arrayOf (bytes : Bytes) : ByteArray := ⟨bytes.toArray⟩

def directoryNumber : UInt32 := 21

def longNameNumber : UInt32 := 36

def failureOf (error : IO.Error) : IoFailure :=
  match error with
  | .noFileOrDirectory .. => .system .noEntry
  | .inappropriateType _ number _ =>
    .system (if number = directoryNumber then .isDirectory else .notDirectory)
  | .invalidArgument _ number _ =>
    if number = longNameNumber then .system .nameTooLong
    else .described .invalidInput error.toString.toList
  | .permissionDenied .. => .described .permissionDenied error.toString.toList
  | other => .described .other other.toString.toList

def attempt {α : Type} (action : IO α) : IO (Except IoFailure α) := do
  try
    return .ok (← action)
  catch error =>
    return .error (failureOf error)

def ask {α : Type} (path : Text) (action : String → IO α) : IO (Except IoFailure α) := do
  if Path.hasZero path then return .error .zeroInName
  else attempt (action (String.ofList path))

def isFile (path : Text) : IO Bool := do
  try
    let place ← IO.FS.realPath (String.ofList path)
    return (← place.metadata).type == .file
  catch _ =>
    return false

partial def drain (stream : IO.FS.Stream) (seen : ByteArray) : IO ByteArray := do
  let next ← stream.read 65536
  if next.isEmpty then return seen else drain stream (seen ++ next)

/-- The path by which the standard input is read. -/
def standardInput : Text := "/dev/stdin".toList

def disk : Storage IO where
  workingDirectory := do return (← IO.currentDir).toString.toList
  isFile := isFile
  open? path := ask path fun name => do
    if path != standardInput then
      let _ ← IO.FS.Handle.mk name .read
  content path := ask path fun name => do
    if path = standardInput then return bytesOf (← drain (← IO.getStdin) .empty)
    else return bytesOf (← IO.FS.readBinFile name)
  create path := ask path fun name => do
    let _ ← IO.FS.Handle.mk name .write
  fill path bytes := ask path fun name =>
    IO.FS.writeBinFile name (arrayOf bytes)

def cutAtZero (bytes : Bytes) : List Bytes :=
  bytes.splitOn 0

/-- The variables of this process; what is not UTF-8 in them is replaced. -/
def vars : IO Table := do
  match ← attempt (IO.FS.readBinFile "/proc/self/environ") with
  | .ok content => return .ofEnvironment ((cutAtZero (bytesOf content)).map Utf8.decodeLossy)
  | .error _ => return .empty

def report (failure : Failure) : String :=
  match failure.code? with
  | none => failure.message
  | some code =>
    "Error: " ++ code ++ "\n\n  x " ++ failure.message ++
      (match failure.help with
        | some help => "\n  help: " ++ help
        | none => "")

/-- What the user is told about words that are no command line. -/
def complaint : ArgumentStop → String
  | .unknownArgument word => "error: unexpected argument '" ++ String.ofList word ++ "' found"
  | .noValue _ => "error: a value is required and none was supplied"
  | .invalidDefinition failure => "error: " ++ failure.message
  | .repeatedSetting _ | .repeatedSwitch _ => "error: an argument cannot be used multiple times"
  | .unwantedValue value => "error: unexpected value '" ++ String.ofList value ++ "'"
  | .help | .version => ""

def tell (outcome : Program.Outcome) : IO Unit := do
  match outcome with
  | .stopped .help | .stopped .version => pure ()
  | .stopped stop => IO.eprintln (complaint stop)
  | .ran result =>
    for notice in result.notices do
      IO.eprintln notice.message
    match result.failure with
    | some failure => IO.eprintln (report failure)
    | none => pure ()

end Placeholder.Main

def main (words : List String) : IO UInt32 := do
  let words : List Placeholder.Text := words.map String.toList
  let surroundings : Placeholder.Surroundings :=
    ⟨← Placeholder.Main.vars, .file Placeholder.Main.standardInput⟩
  -- A run that never ends does not come back here.
  let some outcome ← Placeholder.Program.start Placeholder.Main.disk surroundings words | return 2
  let output ← IO.getStdout
  output.write (Placeholder.Main.arrayOf outcome.output)
  output.flush
  Placeholder.Main.tell outcome
  return outcome.exitCode.toUInt32
