import Placeholder.Yaml.Anchors
import Placeholder.Yaml.Core
/-!
Reading YAML. Aliases are followed while a document is read, so what they stand for counts where they
are: it must not nest too deep there, and only so many aliases may be followed in all. That also ends
the reading of a node that stands inside itself. Keys are scalars and are taken as they are written,
and of two entries with one key the later wins. `YamlFile.read?` gives the document that a text writes.
-/
namespace Placeholder.YamlFile

open Yaml

def isRefused (own : Properties Nat) : Bool :=
  own.tag.any Core.isLocal

/-- What is read at a place where `left` more aliases may be followed, and how many more may be after
it. -/
abbrev Reading (α : Type) := (left : Nat) → Option (α × Nat)

def follow (targets : List (Nat × Node Nat)) (node : Node Nat) : Reading (Node Nat) := fun left =>
  match node, left with
  | .alias _, 0 => none
  | .alias number, left + 1 => (targets.lookup number).map fun found => (found, left)
  | other, left => some (other, left)

/-- The text of a key. Its tag does not count. -/
def readKey (targets : List (Nat × Node Nat)) (key : Node Nat) : Reading Text := fun left =>
  match follow targets key left with
  | some (.scalar _ text _, left) => some (text, left)
  | _ => none

/-- What nodes mean, in order, if `read` says what a node means. -/
def readItems (read : Node Nat → Reading Document) : List (Node Nat) → Reading (List Document)
  | [], left => some ([], left)
  | item :: rest, left => do
    let (document, left) ← read item left
    let (others, left) ← readItems read rest left
    return (document :: others, left)

/-- What keys and their nodes mean, in order. -/
def readEntries (key : Node Nat → Reading Text) (read : Node Nat → Reading Document) :
    List (Node Nat × Node Nat) → Reading (List (Text × Document))
  | [], left => some ([], left)
  | (name, value) :: rest, left => do
    let (name, left) ← key name left
    let (document, left) ← read value left
    let (others, left) ← readEntries key read rest left
    return ((name, document) :: others, left)

/-- What a node means, if lists and objects nest in it no deeper than `depth`. -/
def read (targets : List (Nat × Node Nat)) (depth : Nat) (node : Node Nat) : Reading Document :=
  fun left => do
    let (found, left) ← follow targets node left
    match depth, found with
    | _, .alias _ => none
    | _, .scalar own text isPlain =>
      (Core.scalar? own.tag text isPlain).map fun document => (document, left)
    | 0, _ => none
    | depth + 1, .sequence own items =>
      if isRefused own then none
      else
        (readItems (read targets depth) items left).map fun (all, left) => (.list all, left)
    | depth + 1, .mapping own entries =>
      if isRefused own then none
      else
        (readEntries (readKey targets) (read targets depth) entries left).map fun (all, left) =>
          (.ofMembers all, left)

def isAllowed (c : Char) : Bool :=
  let n := c.toNat
  n = 0x09 || n = 0x0a || n = 0x0d || (0x20 ≤ n && n ≤ 0x7e) || n = 0x85 || (0xa0 ≤ n && n ≤ 0xfffd) ||
    0x10000 ≤ n

def deepest : Nat := 128

def followsPerEvent : Nat := 100

def read? (text : Text) : Option Document := do
  if text.all isAllowed then
    let tokens ← Token.ofText? text
    let root ← (← Node.ofTokens? tokens).numbered?
    let (document, _) ← read root.targets deepest root (followsPerEvent * root.size)
    return document
  else none

end Placeholder.YamlFile
