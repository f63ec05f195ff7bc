import Placeholder.Toml.Value
/-!
What a TOML text writes. The bounds of numbers belong to those who use them, so here a whole number has
any size, and a real number beyond double precision is only known to be one. `Written.toToml?` gives
the value of a data file, where whole numbers have sixty-four bits with a sign.
-/
namespace Placeholder.Toml

/-- A value as it is written. -/
inductive Written where
  | text (value : Text)
  | integer (value : Int)
  | real (value : Binary64)
  /-- A real number too large for double precision. -/
  | excess
  | boolean (value : Bool)
  | moment (value : Moment)
  | list (items : List Written)
  | table (members : List (Text × Written))

namespace Written

mutual

/-- Whether every whole number in the value lies between the bounds, and no real number is too large. -/
def numbersWithin (lowest highest : Int) : Written → Bool
  | integer value => lowest ≤ value && value ≤ highest
  | excess => false
  | list items => itemsWithin lowest highest items
  | table members => membersWithin lowest highest members
  | _ => true

def itemsWithin (lowest highest : Int) : List Written → Bool
  | [] => true
  | item :: rest => item.numbersWithin lowest highest && itemsWithin lowest highest rest

def membersWithin (lowest highest : Int) : List (Text × Written) → Bool
  | [] => true
  | (_, value) :: rest => value.numbersWithin lowest highest && membersWithin lowest highest rest

end

def momentKey : Text := "$__toml_private_datetime".toList

/-- Whether a table stands for a date or time: the key of one comes first in it. -/
def standsForMoment : List (Text × Written) → Bool
  | (key, _) :: _ => key = momentKey
  | [] => false

/-- The date or time that the first member writes. -/
def firstMoment? : List (Text × Written) → Option Moment
  | (_, text value) :: _ => Moment.read? value
  | _ => none

mutual

/-- The value in a data file. The other members of a table that stands for a date or time do not
count. -/
def toToml? : Written → Option Toml
  | text value => some (.text value)
  | integer value =>
    if leastSigned ≤ value ∧ value ≤ greatestSigned then some (.integer value) else none
  | real value => some (.real value)
  | excess => none
  | boolean value => some (.boolean value)
  | moment value => some (.moment value)
  | list items => (itemsToToml? items).map .list
  | table members =>
    if standsForMoment members then (firstMoment? members).map .moment
    else (membersToToml? members).map .table

/-- Items in a data file, in order. -/
def itemsToToml? : List Written → Option (List Toml)
  | [] => some []
  | item :: rest => do
    let value ← item.toToml?
    return value :: (← itemsToToml? rest)

/-- Members in a data file, in order. -/
def membersToToml? : List (Text × Written) → Option (List (Text × Toml))
  | [] => some []
  | (key, member) :: rest => do
    let value ← member.toToml?
    return (key, value) :: (← membersToToml? rest)

end

end Written

end Placeholder.Toml
