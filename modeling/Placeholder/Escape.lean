import Placeholder.Failure
/-!
The escape string. Right before an opening token it turns that token into plain text; it is then
dropped from the output unless it is to be preserved.
-/
namespace Placeholder

/-- An escape string, if there is one, and whether the output keeps it. -/
structure Escape where
  marker : Option Text
  preserve : Bool
  marker_ne_nil : marker ≠ some []
deriving DecidableEq

namespace Escape

/-- An empty escape string is refused: it would stand everywhere. -/
def make (marker : Option Text) (preserve : Bool) : Except Failure Escape :=
  if h : marker = some [] then .error .emptyEscape else .ok ⟨marker, preserve, h⟩

/-- Nothing is escaped. -/
def off : Escape := ⟨none, false, by decide⟩

/-- The length of the escape string; zero without one. -/
def length (escape : Escape) : Nat :=
  (escape.marker.map List.length).getD 0

/-- Whether there is no escape string. -/
def isOff (escape : Escape) : Bool :=
  escape.marker.isNone

/-- What the output keeps of an escape string that did its work. -/
def kept (escape : Escape) (marker : Text) : Text :=
  if escape.preserve then marker else []

end Escape

end Placeholder
