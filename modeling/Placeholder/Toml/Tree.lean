import Placeholder.Members
import Placeholder.Toml.Written
/-!
Building a TOML document statement by statement. What is there already decides what may be added: a
complete value is closed for good, a table is opened by a header once, and a dotted key adds only to
tables without a header, which belong to dotted keys from then on.
-/
namespace Placeholder.Toml

/-- What made a table. -/
inductive Origin where
  /-- A header of its own, or the document itself. -/
  | header
  /-- A header of a table further down. -/
  | passage
  /-- A dotted key, even if the table was a passage before. -/
  | dotted
deriving DecidableEq

/-- A part of a document that is being built. -/
inductive Node where
  | value (value : Written)
  | table (origin : Origin) (members : List (Text × Node))
  /-- A list of tables that headers make, the latest first. -/
  | tables (items : List Node)

namespace Node

/-- The document without a statement. -/
def empty : Node := table .header []

/-- Changes the table that a path leads to from a table. Tables on the way are made where they are
missing; in a list of tables the way leads through the latest. A dotted key does not pass through
tables that have a header. -/
def descend (isDotted : Bool) (change : Node → Option Node) : List Text → Node → Option Node
  | [], node => change node
  | key :: rest, table origin members => do
    let next ← match members.lookup key with
      | none => descend isDotted change rest (table (if isDotted then .dotted else .passage) [])
      | some (value _) => none
      | some (table origin inner) =>
        if isDotted && origin = .header then none
        else descend isDotted change rest (table (if isDotted then .dotted else origin) inner)
      | some (tables []) => none
      | some (tables (latest :: earlier)) =>
        (descend isDotted change rest latest).map fun changed => tables (changed :: earlier)
    return table origin (Members.put key next members)
  | _ :: _, _ => none

/-- Gives a key of a table its value. `isDotted` says whether a dotted key led to the table. -/
def assignHere (isDotted : Bool) (key : Text) (content : Written) : Node → Option Node
  | table origin members =>
    if decide (origin = .dotted) != isDotted || (members.lookup key).isSome then none
    else some (table origin (Members.put key (value content) members))
  | _ => none

def assign (path : List Text) (key : Text) (content : Written) (node : Node) : Option Node :=
  node.descend true (assignHere (!path.isEmpty) key content) path

def openTable (key : Text) : Node → Option Node
  | table origin members =>
    match members.lookup key with
    | none => some (table origin (Members.put key empty members))
    | some (table .passage inner) =>
      some (table origin (Members.put key (table .header inner) members))
    | some _ => none
  | _ => none

def openItem (key : Text) : Node → Option Node
  | table origin members =>
    match members.lookup key with
    | none => some (table origin (Members.put key (tables [empty]) members))
    | some (tables items) => some (table origin (Members.put key (tables (empty :: items)) members))
    | some _ => none
  | _ => none

mutual

def finish : Node → Written
  | value content => content
  | table _ members => .table (finishMembers members)
  | tables items => .list (finishItems items).reverse

def finishMembers : List (Text × Node) → List (Text × Written)
  | [] => []
  | (key, node) :: rest => (key, node.finish) :: finishMembers rest

def finishItems : List Node → List Written
  | [] => []
  | node :: rest => node.finish :: finishItems rest

end

end Node

/-- A statement of a document. A dotted key is the path to a table and a key in it. -/
inductive Statement where
  | assign (path : List Text) (key : Text) (value : Written)
  | openTable (path : List Text) (key : Text)
  | openItem (path : List Text) (key : Text)

/-- A document that is being built, and the table where assignments go. -/
structure Draft where
  root : Node
  place : List Text

namespace Draft

/-- The draft without a statement. -/
def empty : Draft := ⟨.empty, []⟩

def add (draft : Draft) : Statement → Option Draft
  | .assign path key value => do
    let root ← draft.root.descend false (Node.assign path key value) draft.place
    return { draft with root := root }
  | .openTable path key => do
    let root ← draft.root.descend false (Node.openTable key) path
    return ⟨root, path ++ [key]⟩
  | .openItem path key => do
    let root ← draft.root.descend false (Node.openItem key) path
    return ⟨root, path ++ [key]⟩

end Draft

end Placeholder.Toml
