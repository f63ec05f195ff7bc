import Placeholder.Text
/-!
Keyed members in strictly rising order of their keys. `Members.put` is the one way to change them: it
gives a key its value, in the place that the order wants. `lookup_put` says what that does to the
answers, `put_ordered` that the order is kept.
-/
namespace Placeholder.Members

variable {α : Type}

theorem lt_of_not_lt_of_ne {a b : Text} (h : ¬ a < b) (hne : a ≠ b) : b < a := by
  rcases List.le_total a b with hle | hle
  · exact absurd (List.le_antisymm hle (List.not_lt.mp h)) hne
  · exact List.not_le.mp fun hab => hne (List.le_antisymm hab hle)

/-- The members with `key` given the value. -/
def put (key : Text) (value : α) : List (Text × α) → List (Text × α)
  | [] => [(key, value)]
  | member :: rest =>
    if key < member.1 then (key, value) :: member :: rest
    else if key = member.1 then (key, value) :: rest
    else member :: put key value rest

/-- Members one after the other; a later one wins over an earlier one of the same key. -/
def ofList (members : List (Text × α)) : List (Text × α) :=
  members.foldl (fun all member => put member.1 member.2 all) []

theorem mem_put {key : Text} {value : α} {members : List (Text × α)} {member : Text × α}
    (h : member ∈ put key value members) : member = (key, value) ∨ member ∈ members := by
  induction members with
  | nil => simpa [put] using h
  | cons head rest ih =>
    simp only [put] at h
    split at h
    · simpa using h
    · split at h
      · rcases List.mem_cons.mp h with h | h
        · exact Or.inl h
        · exact Or.inr (List.mem_cons_of_mem _ h)
      · rcases List.mem_cons.mp h with h | h
        · exact Or.inr (h ▸ List.mem_cons_self ..)
        · exact (ih h).imp id (List.mem_cons_of_mem _)

theorem put_ordered (key : Text) (value : α) {members : List (Text × α)}
    (h : members.Pairwise (fun a b => a.1 < b.1)) :
    (put key value members).Pairwise (fun a b => a.1 < b.1) := by
  induction members with
  | nil => simp [put]
  | cons head rest ih =>
    have hRest := List.pairwise_cons.mp h
    simp only [put]
    split
    · rename_i hLt
      refine List.pairwise_cons.mpr ⟨?_, h⟩
      intro member hMem
      rcases List.mem_cons.mp hMem with rfl | hMem
      · exact hLt
      · exact List.lt_trans hLt (hRest.1 member hMem)
    · rename_i hNotLt
      split
      · rename_i hEq
        refine List.pairwise_cons.mpr ⟨?_, hRest.2⟩
        intro member hMem
        simpa [hEq] using hRest.1 member hMem
      · rename_i hNe
        refine List.pairwise_cons.mpr ⟨?_, ih hRest.2⟩
        intro member hMem
        rcases mem_put hMem with rfl | hMem
        · exact lt_of_not_lt_of_ne hNotLt hNe
        · exact hRest.1 member hMem

theorem lookup_cons (member : Text × α) (rest : List (Text × α)) (key : Text) :
    (member :: rest).lookup key = if key = member.1 then some member.2 else rest.lookup key := by
  obtain ⟨own, value⟩ := member
  by_cases h : key = own
  · simp [h]
  · simp [List.lookup_cons, beq_eq_false_iff_ne.mpr h, h]

theorem lookup_put (key : Text) (value : α) (other : Text) (members : List (Text × α)) :
    (put key value members).lookup other =
      if other = key then some value else members.lookup other := by
  induction members with
  | nil => exact lookup_cons (key, value) [] other
  | cons head rest ih =>
    simp only [put]
    split
    · rw [lookup_cons]
    · split
      · rename_i hKey
        rw [lookup_cons, lookup_cons, hKey]
        split <;> rfl
      · rename_i hNe
        rw [lookup_cons, lookup_cons, ih]
        split
        · rename_i hHead
          rw [if_neg fun hEq : other = key => hNe (hEq.symm.trans hHead)]
        · rfl

end Placeholder.Members
