import Placeholder.Files.Path
import Placeholder.Files.Storage
/-!
Files held in memory. A tree knows, for each place, whether there is a file or a directory; a place is
the list of names that lead to it from the root. A path is followed piece by piece, and every piece
must start from a directory. Names and paths have limits, counted in bytes. `FileTree.storage` lets a
program run on a tree.
-/
namespace Placeholder

/-- What a place in a tree holds. -/
inductive FileEntry where
  | file (content : Bytes)
  | directory
deriving DecidableEq

/-- Files and directories by place, and the place from which relative paths are seen. -/
structure FileTree where
  entries : List (List Text × FileEntry)
  here : List Text
deriving DecidableEq

namespace FileTree

/-- What a place holds; the root is always a directory. -/
def entry? (tree : FileTree) (place : List Text) : Option FileEntry :=
  if place.isEmpty then some .directory else tree.entries.lookup place

def longestName : Nat := 255

def longestPath : Nat := 4095

def step (tree : FileTree) (place : List Text) (piece : Text) : Except SystemFault (List Text) :=
  if tree.entry? place = some .directory then
    if piece.isEmpty || piece = ['.'] then .ok place
    else if piece = ['.', '.'] then .ok place.dropLast
    else if longestName < Utf8.size piece then .error .nameTooLong
    else if (tree.entry? (place ++ [piece])).isSome then .ok (place ++ [piece])
    else .error .noEntry
  else .error .notDirectory

def start (tree : FileTree) (path : Text) : List Text :=
  if Path.isAbsolute path then [] else tree.here

def pieces (path : Text) : Except SystemFault (List Text) :=
  if path.isEmpty then .error .noEntry
  else if longestPath < Utf8.size path then .error .nameTooLong
  else .ok (path.cutAt '/')

def locate (tree : FileTree) (path : Text) : Except SystemFault (List Text) := do
  (← pieces path).foldlM tree.step (tree.start path)

def find (tree : FileTree) (path : Text) : Except SystemFault FileEntry := do
  let place ← tree.locate path
  match tree.entry? place with
  | some entry => .ok entry
  | none => .error .noEntry

def read (tree : FileTree) (path : Text) : Except SystemFault Bytes := do
  match ← tree.find path with
  | .file content => .ok content
  | .directory => .error .isDirectory

def isFile (tree : FileTree) (path : Text) : Bool :=
  match tree.find path with
  | .ok (.file _) => true
  | _ => false

/-- The place where a file of this path is kept or would be. Its directory must be there. -/
def room (tree : FileTree) (path : Text) : Except SystemFault (List Text) := do
  let place ← (← pieces path).dropLast.foldlM tree.step (tree.start path)
  let name := Path.name path
  if tree.entry? place = some .directory then
    if name.isEmpty || name = ['.'] || name = ['.', '.'] then .error .isDirectory
    else if longestName < Utf8.size name then .error .nameTooLong
    else if tree.entry? (place ++ [name]) = some .directory then .error .isDirectory
    else .ok (place ++ [name])
  else .error .notDirectory

def put (tree : FileTree) (place : List Text) (content : Bytes) : FileTree :=
  { tree with
    entries := (place, .file content) :: tree.entries.filter fun entry => entry.1 != place }

def write (tree : FileTree) (path : Text) (content : Bytes) : Except SystemFault FileTree := do
  let place ← tree.room path
  return tree.put place content

def ancestors (place : List Text) : List (List Text) :=
  (List.range place.length).filterMap fun n => if n = 0 then none else some (place.take n)

def add (tree : FileTree) (place : List Text) (entry : FileEntry) : FileTree :=
  let missing := (ancestors place).filter fun above => (tree.entry? above).isNone
  { tree with
    entries := (place, entry) ::
      missing.map (·, .directory) ++ tree.entries.filter fun entry => entry.1 != place }

def answer {α : Type} (path : Text) (result : Except SystemFault α) : Except IoFailure α :=
  if Path.hasZero path then .error .zeroInName else result.mapError .system

def storage : Storage (StateM FileTree) where
  workingDirectory := fun tree => ('/' :: Text.join ['/'] tree.here, tree)
  isFile path := fun tree => (tree.isFile path, tree)
  open? path := fun tree => (answer path ((tree.find path).map fun _ => ()), tree)
  content path := fun tree => (answer path (tree.read path), tree)
  create path := fun tree =>
    match answer path (tree.write path []) with
    | .ok tree => (.ok (), tree)
    | .error failure => (.error failure, tree)
  fill path bytes := fun tree =>
    match answer path (tree.write path bytes) with
    | .ok tree => (.ok (), tree)
    | .error failure => (.error failure, tree)

end FileTree

end Placeholder
