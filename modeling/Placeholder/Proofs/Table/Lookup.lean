import Mathlib.Data.List.Induction
import Placeholder.Table
/-!
What members and tables answer. Where no key comes twice, a member and an answer are the same thing, so
the order does not matter. Laying one table over another lets the upper one answer first, and replacing
the values replaces the answers.
-/
namespace Placeholder.Members

variable {α : Type} {members other : List (Text × α)} {key : Text} {value : α}

/-- In rising order no key comes twice. -/
theorem nodup_keys (h : members.Pairwise fun a b => a.1 < b.1) : (members.map Prod.fst).Nodup := by
  refine List.pairwise_map.mpr (h.imp ?_)
  intro first second hLess hSame
  exact List.lt_irrefl second.1 (hSame ▸ hLess)

/-- Where no key comes twice, a member is the first of its key. -/
theorem lookup_of_mem (h : (members.map Prod.fst).Nodup) (hMem : (key, value) ∈ members) :
    members.lookup key = some value := by
  induction members with
  | nil => cases hMem
  | cons member rest ih =>
      rw [List.map_cons, List.nodup_cons] at h
      rw [lookup_cons]
      rcases List.mem_cons.mp hMem with rfl | hLater
      · rw [if_pos rfl]
      · rw [if_neg, ih h.2 hLater]
        rintro rfl
        exact h.1 (List.mem_map.mpr ⟨_, hLater, rfl⟩)

theorem lookup_eq_some_iff (h : (members.map Prod.fst).Nodup) :
    members.lookup key = some value ↔ (key, value) ∈ members := by
  constructor
  · intro hLookup
    obtain ⟨before, after, hSplit, _⟩ := List.lookup_eq_some_iff.mp hLookup
    simp [hSplit]
  · exact lookup_of_mem h

/-- Then the order does not matter. -/
theorem lookup_of_perm (hPerm : members.Perm other) (h : (other.map Prod.fst).Nodup) (key : Text) :
    members.lookup key = other.lookup key := by
  have hMembers : (members.map Prod.fst).Nodup := (hPerm.map Prod.fst).nodup_iff.mpr h
  apply Option.ext
  intro value
  rw [lookup_eq_some_iff hMembers, lookup_eq_some_iff h, hPerm.mem_iff]

/-- A new key is put somewhere, and nothing else changes. -/
theorem put_perm (h : key ∉ members.map Prod.fst) (value : α) :
    (put key value members).Perm ((key, value) :: members) := by
  induction members with
  | nil => exact .refl _
  | cons member rest ih =>
      rw [List.map_cons, List.mem_cons, not_or] at h
      rw [put]
      split
      · exact .refl _
      · rw [if_neg h.1]
        exact ((ih h.2).cons member).trans (.swap ..)

/-- Members whose keys all differ are kept one and all. -/
theorem ofList_perm (h : (members.map Prod.fst).Nodup) : (ofList members).Perm members := by
  -- The members are put in one by one, so the induction takes them away at the end.
  induction members using List.reverseRecOn with
  | nil => exact .refl _
  | append_singleton before last ih =>
      rw [List.map_append, List.map_singleton, List.nodup_append] at h
      obtain ⟨hNodup, _, hApart⟩ := h
      have hBefore : (ofList before).Perm before := ih hNodup
      have hNew : last.1 ∉ (ofList before).map Prod.fst := by
        rw [(hBefore.map Prod.fst).mem_iff]
        exact fun hMem => hApart last.1 hMem last.1 (List.mem_singleton_self _) rfl
      have hPut : ofList (before ++ [last]) = put last.1 last.2 (ofList before) := by
        rw [ofList, List.foldl_append]
        rfl
      rw [hPut]
      exact ((put_perm hNew last.2).trans (hBefore.cons last)).trans
        (List.perm_append_singleton last before).symm

end Placeholder.Members

namespace Placeholder.Table

theorem nodup_keys (table : Table) : table.keys.Nodup :=
  Members.nodup_keys table.ordered

theorem get?_eq_some_iff {table : Table} {key value : Text} :
    table.get? key = some value ↔ (key, value) ∈ table.entries :=
  Members.lookup_eq_some_iff table.nodup_keys

theorem exists_of_mem_keys {table : Table} {key : Text} (h : key ∈ table.keys) :
    ∃ value, table.get? key = some value := by
  obtain ⟨entry, hMem, rfl⟩ := List.mem_map.mp h
  exact ⟨entry.2, get?_eq_some_iff.mpr hMem⟩

theorem get?_foldl_insert {entries : List (Text × Text)}
    (h : entries.Pairwise fun a b => a.1 < b.1) (table : Table) (key : Text) :
    (entries.foldl (fun table entry => table.insert entry.1 entry.2) table).get? key =
      (entries.lookup key).or (table.get? key) := by
  induction entries generalizing table with
  | nil => rfl
  | cons entry rest ih =>
      obtain ⟨hBelow, hRest⟩ := List.pairwise_cons.mp h
      rw [List.foldl_cons, ih hRest, get?_insert, Members.lookup_cons]
      by_cases hKey : key = entry.1
      · have hNone : rest.lookup key = none := by
          cases hLookup : rest.lookup key with
          | none => rfl
          | some value =>
              obtain ⟨before, after, hSplit, _⟩ := List.lookup_eq_some_iff.mp hLookup
              have hLess := hBelow (key, value) (by simp [hSplit])
              rw [hKey] at hLess
              exact absurd hLess (List.lt_irrefl _)
        rw [hNone, if_pos hKey, if_pos hKey, Option.none_or, Option.some_or]
      · rw [if_neg hKey, if_neg hKey]

theorem get?_overlay (table upper : Table) (key : Text) :
    (table.overlay upper).get? key = (upper.get? key).or (table.get? key) :=
  get?_foldl_insert upper.ordered table key

theorem lookup_map (f : Text → Text → Text) (entries : List (Text × Text)) (key : Text) :
    (entries.map fun entry => (entry.1, f entry.1 entry.2)).lookup key =
      (entries.lookup key).map (f key) := by
  induction entries with
  | nil => rfl
  | cons entry rest ih =>
      rw [List.map_cons, Members.lookup_cons, Members.lookup_cons, ih]
      by_cases hKey : key = entry.1
      · rw [if_pos hKey, if_pos hKey, Option.map_some, hKey]
      · rw [if_neg hKey, if_neg hKey]

theorem get?_mapValues (table : Table) (f : Text → Text → Text) (key : Text) :
    (table.mapValues f).get? key = (table.get? key).map (f key) :=
  lookup_map f table.entries key

/-- Of two entries for one key the later answers. -/
theorem get?_ofList (entries : List (Text × Text)) (key : Text) :
    (ofList entries).get? key = entries.reverse.lookup key := by
  suffices h : ∀ table : Table,
      (entries.foldl (fun table entry => table.insert entry.1 entry.2) table).get? key =
        (entries.reverse.lookup key).or (table.get? key) by
    rw [ofList, h, get?_empty, Option.or_none]
  induction entries with
  | nil => exact fun table => rfl
  | cons entry rest ih =>
      intro table
      rw [List.foldl_cons, ih, get?_insert, List.reverse_cons, List.lookup_append, Option.or_assoc,
        Members.lookup_cons]
      split <;> rfl

end Placeholder.Table
