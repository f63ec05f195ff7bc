import Placeholder.Expander
/-!
The finisher for Windows paths. Properties files and many source languages read a backslash as an
escape character, so a path that is written into one needs each of its backslashes twice.
-/
namespace Placeholder.Finisher

/-- Whether a value looks like an absolute Windows path: a drive letter, a colon, a backslash. -/
def isWindowsPath : Text → Bool
  | drive :: ':' :: '\\' :: _ => drive.isAlpha
  | _ => false

def doubleBackslashes (value : Text) : Text :=
  value.flatMap fun c => if c = '\\' then ['\\', '\\'] else [c]

def windowsPath : Finisher := fun _ value =>
  if isWindowsPath value then some (doubleBackslashes value) else none

end Placeholder.Finisher
