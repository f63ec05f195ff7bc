import Placeholder.Failure
import Placeholder.Text.Utf8
/-!
Access to files. A `Storage` is what the program may ask of the place where files are kept; what is
read from it is a value, a path with its content or the failure to read it, so everything that is
done with file contents is done with values.
-/
namespace Placeholder

/-- A path, and what came of reading the file there. -/
structure FileRead where
  path : Text
  content : Except IoFailure Bytes

namespace FileRead

def text (file : FileRead) : Except IoFailure Text := do
  let bytes ← file.content
  match Utf8.decodeText? bytes with
  | some text => .ok text
  | none => .error .notText

def data (file : FileRead) : Except Failure Text :=
  match file.text with
  | .ok text => .ok text
  | .error failure => .error (.unreadableData file.path failure)

end FileRead

/-- What may be asked of the place where files are kept. -/
structure Storage (m : Type → Type) where
  /-- The directory from which paths are seen, as an absolute path. -/
  workingDirectory : m Text
  /-- Whether there is a file, and not a directory. -/
  isFile : Text → m Bool
  /-- Opens for reading. A directory can be opened, though not read. -/
  open? : Text → m (Except IoFailure Unit)
  /-- The whole content. -/
  content : Text → m (Except IoFailure Bytes)
  /-- Creates an empty file, or empties the one that is there. -/
  create : Text → m (Except IoFailure Unit)
  /-- Puts bytes into a file that was created. -/
  fill : Text → Bytes → m (Except IoFailure Unit)

namespace Storage

variable {m : Type → Type} [Monad m]

def read (storage : Storage m) (path : Text) : m FileRead := do
  return ⟨path, ← storage.content path⟩

/-- Reads files in order. -/
def readAll (storage : Storage m) : List Text → m (List FileRead)
  | [] => return []
  | path :: rest => do
    let file ← storage.read path
    return file :: (← storage.readAll rest)

/-- The first of the paths where there is a file. -/
def firstFile (storage : Storage m) : List Text → m (Option Text)
  | [] => return none
  | path :: rest => do
    if ← storage.isFile path then return some path else storage.firstFile rest

end Storage

end Placeholder
