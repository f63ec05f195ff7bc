import Placeholder.Document.Basic
import Placeholder.Failure
import Placeholder.Toml.Moment
/-!
The values that TOML can write. `Toml.toDocument` turns one into a document; it refuses exactly the
real numbers that are not finite, since no document holds those. The members of a table stand in
rising order of their keys.
-/
namespace Placeholder

/-- A TOML value. -/
inductive Toml where
  | text (value : Text)
  | integer (value : Int)
  | real (value : Binary64)
  | boolean (value : Bool)
  | moment (value : Moment)
  | list (items : List Toml)
  | table (members : List (Text × Toml))

namespace Toml

mutual

/-- The value as a document; the first real number that is not finite is the refusal. -/
def toDocument : Toml → Except Binary64 Document
  | text value => .ok (.text value)
  | integer value => .ok (.number (.whole value))
  | real value => if value.isFinite then .ok (.number (.real value)) else .error value
  | boolean value => .ok (.boolean value)
  | moment value => .ok (.text value.write)
  | list items => (itemsToDocuments items).map .list
  | table members => (membersToDocuments members).map .ofMembers

/-- Items as documents, in order. -/
def itemsToDocuments : List Toml → Except Binary64 (List Document)
  | [] => .ok []
  | item :: rest => do
    let document ← item.toDocument
    return document :: (← itemsToDocuments rest)

/-- Members as documents, in order. -/
def membersToDocuments : List (Text × Toml) → Except Binary64 (List (Text × Document))
  | [] => .ok []
  | (key, value) :: rest => do
    let document ← value.toDocument
    return (key, document) :: (← membersToDocuments rest)

end

end Toml

end Placeholder
