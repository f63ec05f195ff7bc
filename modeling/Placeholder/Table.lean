import Placeholder.Members
/-!
Finite tables from texts to texts. The entries are kept in strictly rising order of their keys, so
a table has one form only and walking it visits the keys in order. `get?_insert` says what an
insertion does to the answers.
-/
namespace Placeholder

/-- A finite table, its entries in rising order of their keys. -/
structure Table where
  entries : List (Text × Text)
  ordered : entries.Pairwise (fun a b => a.1 < b.1)
deriving DecidableEq

namespace Table

/-- The table without entries. -/
def empty : Table := ⟨[], .nil⟩

/-- The table that answers `key` with `value` and everything else as before. -/
def insert (table : Table) (key value : Text) : Table :=
  ⟨Members.put key value table.entries, Members.put_ordered key value table.ordered⟩

/-- The table of the given entries; a later entry for the same key wins. -/
def ofList (entries : List (Text × Text)) : Table :=
  entries.foldl (fun table entry => table.insert entry.1 entry.2) empty

/-- `table` with the entries of `upper` laid over it. -/
def overlay (table upper : Table) : Table :=
  upper.entries.foldl (fun table entry => table.insert entry.1 entry.2) table

/-- The table with every value replaced; the keys stay. -/
def mapValues (table : Table) (f : Text → Text → Text) : Table :=
  ⟨table.entries.map fun entry => (entry.1, f entry.1 entry.2),
    List.pairwise_map.mpr table.ordered⟩

/-- The value of `key`. -/
def get? (table : Table) (key : Text) : Option Text :=
  table.entries.lookup key

/-- The keys, in rising order. -/
def keys (table : Table) : List Text :=
  table.entries.map (·.1)

def size (table : Table) : Nat :=
  table.entries.length

@[simp] theorem get?_empty (key : Text) : empty.get? key = none := rfl

theorem get?_insert (table : Table) (key value other : Text) :
    (table.insert key value).get? other = if other = key then some value else table.get? other :=
  Members.lookup_put key value other table.entries

theorem mem_entries_of_get? {table : Table} {key value : Text} (h : table.get? key = some value) :
    (key, value) ∈ table.entries := by
  obtain ⟨before, after, hSplit, _⟩ := List.lookup_eq_some_iff.mp h
  rw [hSplit]
  simp

theorem mem_keys_of_get? {table : Table} {key value : Text} (h : table.get? key = some value) :
    key ∈ table.keys :=
  List.mem_map_of_mem (f := Prod.fst) (mem_entries_of_get? h)

end Table

end Placeholder
