import Placeholder.Text
/-!
Paths as text: pieces with slashes between them. A path that starts with a slash is absolute; the
empty path is no place at all, but another path can be joined to it.
-/
namespace Placeholder.Path

def isAbsolute (path : Text) : Bool :=
  path.head? = some '/'

/-- `path` as seen from `root`. An absolute path stands for itself. -/
def join (root path : Text) : Text :=
  if isAbsolute path || root.isEmpty then path
  else if root.getLast? = some '/' then root ++ path
  else root ++ '/' :: path

def steps (path : Text) : List Text :=
  (path.cutAt '/').filter fun step => !step.isEmpty && step != ['.']

/-- Where the absolute form of a path starts. Two slashes at the front may mean another root than one,
but three or more mean the same. -/
def start (directory path : Text) : Text :=
  if ['/', '/'].isPrefixOf path && !(['/', '/', '/'].isPrefixOf path) then ['/', '/']
  else if isAbsolute path then ['/']
  else directory

/-- The absolute form of `path`, seen from an absolute directory. Pieces that lead nowhere are left
out, those that lead upwards stay, and so does a slash at the end. -/
def absolute (directory path : Text) : Text :=
  let whole := (steps path).foldl join (start directory path)
  if path.getLast? = some '/' then join whole [] else whole

/-- Whether a path has a zero in it; no file can be asked for by such a path. -/
def hasZero (path : Text) : Bool :=
  path.contains '\x00'

/-- The last piece of a path. -/
def name (path : Text) : Text :=
  ((path.cutAt '/').getLast?).getD []

/-- What follows the last dot of the name, in lower case. A name that only begins with a dot has no
extension, and neither has one without a dot. -/
def extension (path : Text) : Text :=
  match (name path).cutAt '.' with
  | [_] | [[], _] => []
  | pieces => ((pieces.getLast?).getD []).map Char.toLower

end Placeholder.Path
