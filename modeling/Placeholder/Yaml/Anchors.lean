import Placeholder.Members
import Placeholder.Yaml.Node
/-!
Anchors by number. An anchored node gets as its number how many different names stand before it, and an
alias the number that its name has at that place. So a name that comes again gets a new number, which
the next new name may get too; in the end a number stands for the last node that begins with it, even
for the aliases before that node. `Node.numbered?` puts numbers in the place of names, and
`Node.anchored` lists what the numbers stand for.
-/
namespace Placeholder.Yaml

abbrev Numbers := List (Text × Nat)

namespace Properties

def numbered (numbers : Numbers) (own : Properties Text) : Properties Nat × Numbers :=
  match own.anchor with
  | none => (⟨none, own.tag⟩, numbers)
  | some name => (⟨some numbers.length, own.tag⟩, Members.put name numbers.length numbers)

end Properties

namespace Node

mutual

/-- A node with numbers for names, and the numbers after it. A name without a number is refused. -/
def number (numbers : Numbers) : Node Text → Option (Node Nat × Numbers)
  | .alias name => (numbers.lookup name).map fun n => (.alias n, numbers)
  | scalar own text isPlain =>
    let (own, numbers) := own.numbered numbers
    some (scalar own text isPlain, numbers)
  | sequence own items =>
    let (own, numbers) := own.numbered numbers
    (numberItems numbers items).map fun (items, numbers) => (sequence own items, numbers)
  | mapping own entries =>
    let (own, numbers) := own.numbered numbers
    (numberEntries numbers entries).map fun (entries, numbers) => (mapping own entries, numbers)

/-- Nodes with numbers for names, in order. -/
def numberItems (numbers : Numbers) : List (Node Text) → Option (List (Node Nat) × Numbers)
  | [] => some ([], numbers)
  | item :: rest => do
    let (item, numbers) ← number numbers item
    let (rest, numbers) ← numberItems numbers rest
    return (item :: rest, numbers)

/-- Entries with numbers for names, in order. -/
def numberEntries (numbers : Numbers) :
    List (Node Text × Node Text) → Option (List (Node Nat × Node Nat) × Numbers)
  | [] => some ([], numbers)
  | (key, value) :: rest => do
    let (key, numbers) ← number numbers key
    let (value, numbers) ← number numbers value
    let (rest, numbers) ← numberEntries numbers rest
    return ((key, value) :: rest, numbers)

end

def numbered? (root : Node Text) : Option (Node Nat) :=
  (number [] root).map (·.1)

def withAnchor (own : Properties Nat) (node : Node Nat) : List (Nat × Node Nat) :=
  match own.anchor with
  | none => []
  | some n => [(n, node)]

mutual

/-- The anchored nodes in a node, in the order in which they begin. -/
def anchored : Node Nat → List (Nat × Node Nat)
  | .alias _ => []
  | scalar own text isPlain => withAnchor own (scalar own text isPlain)
  | sequence own items => withAnchor own (sequence own items) ++ anchoredItems items
  | mapping own entries => withAnchor own (mapping own entries) ++ anchoredEntries entries

def anchoredItems : List (Node Nat) → List (Nat × Node Nat)
  | [] => []
  | item :: rest => anchored item ++ anchoredItems rest

def anchoredEntries : List (Node Nat × Node Nat) → List (Nat × Node Nat)
  | [] => []
  | (key, value) :: rest => anchored key ++ anchored value ++ anchoredEntries rest

end

/-- What each number stands for: the last node that begins with it. -/
def targets (root : Node Nat) : List (Nat × Node Nat) :=
  root.anchored.reverse

mutual

def size : Node Nat → Nat
  | .alias _ => 1
  | scalar _ _ _ => 1
  | sequence _ items => 2 + itemsSize items
  | mapping _ entries => 2 + entriesSize entries

def itemsSize : List (Node Nat) → Nat
  | [] => 0
  | item :: rest => size item + itemsSize rest

def entriesSize : List (Node Nat × Node Nat) → Nat
  | [] => 0
  | (key, value) :: rest => size key + size value + entriesSize rest

end

end Node

end Placeholder.Yaml
