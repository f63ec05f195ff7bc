import Mathlib.Data.List.Sort
import Placeholder.Proofs.Table.Lookup
/-!
A table is what it answers. So it makes no difference in which order its entries are put in.
-/
namespace Placeholder.Table

variable {table other : Table} {entries : List (Text × Text)} {key value : Text}

theorem nodup_entries (table : Table) : table.entries.Nodup :=
  table.nodup_keys.of_map Prod.fst

/-- Tables with the same answers are the same. -/
theorem ext_get? (h : ∀ key, table.get? key = other.get? key) : table = other := by
  have hPerm : table.entries.Perm other.entries := by
    rw [List.perm_ext_iff_of_nodup table.nodup_entries other.nodup_entries]
    intro entry
    rw [← get?_eq_some_iff, ← get?_eq_some_iff, h]
  have hSame : table.entries = other.entries := by
    apply hPerm.eq_of_pairwise _ table.ordered other.ordered
    intro a b _ _ hLess hGreater
    exact absurd (List.lt_trans hLess hGreater) (List.lt_irrefl _)
  cases table
  cases other
  cases hSame
  rfl

/-- A table is put together from its entries in any order. -/
theorem ofList_of_perm (h : entries.Perm table.entries) : ofList entries = table := by
  have hNodup : (entries.reverse.map Prod.fst).Nodup := by
    rw [List.map_reverse, List.nodup_reverse]
    exact (h.map Prod.fst).nodup_iff.mpr table.nodup_keys
  apply ext_get?
  intro key
  apply Option.ext
  intro value
  rw [get?_ofList, Members.lookup_eq_some_iff hNodup, List.mem_reverse, h.mem_iff,
    get?_eq_some_iff]

end Placeholder.Table
