import Placeholder.Proofs.Property.Circles
import Placeholder.Proofs.Property.Overriding
import Placeholder.Proofs.Table.Contents
/-!
What becomes of a table of properties. A value that gets into a circle is left as it is written, with one
warning; every other one becomes its full expansion. The keys may be gone through one after the other
and in any order, since references are looked up in the values as they were written. An expansion
never goes deeper than there are keys.
-/
namespace Placeholder

namespace PropertyScope

variable {scope : PropertyScope} {chain : List Text} {pieces : List PropertyPiece} {depth : Nat}

/-- The expansion of pieces as far as no more than `depth` values are open inside each other. -/
def expandWithin (scope : PropertyScope) (depth : Nat) (chain : List Text) :
    List PropertyPiece → Option (Except (List Text) Text)
  | [] => some (.ok [])
  | .literal text :: rest => (scope.expandWithin depth chain rest).map (·.map (text ++ ·))
  | .reference key :: rest =>
    if chain.contains key then some (.error (chain ++ [key]))
    else
      match scope.get? key with
      | none => (scope.expandWithin depth chain rest).map (·.map (PropertyPiece.written key ++ ·))
      | some value =>
        if Text.occursIn PropertyPiece.opening value then
          match depth with
          | 0 => none
          | inside + 1 =>
            (scope.expandWithin inside (chain ++ [key]) (PropertyPiece.ofValue value)).bind fun
              | .error path => some (.error path)
              | .ok expanded => (scope.expandWithin (inside + 1) chain rest).map (·.map (expanded ++ ·))
        else (scope.expandWithin depth chain rest).map (·.map (value ++ ·))
termination_by pieces => (depth, pieces.length)

/-- Every value that is opened takes a key that is not on the chain yet, so an expansion goes no deeper
than there is room on the chain. -/
theorem expandWithin_of_room (h : scope.room chain ≤ depth) :
    scope.expandWithin depth chain pieces = some (scope.expand chain pieces) := by
  induction chain, pieces using PropertyScope.expand.induct scope generalizing depth with
  | case1 chain => rw [expandWithin, expand]
  | case2 chain front rest ih => rw [expandWithin, expand, ih h, Option.map_some]
  | case3 chain key rest hCircle => rw [expandWithin, if_pos hCircle, expand_of_circle hCircle]
  | case4 chain key rest hNew hNone ih =>
      rw [expandWithin, if_neg hNew, expand_of_none hNew hNone, hNone]
      simp only [ih h, Option.map_some]
  | case5 chain key rest hNew value hGet hOpens path hPath ih =>
      have hLess := room_append_lt (mem_keys_of_get? hGet) (Bool.not_eq_true _ ▸ hNew)
      obtain ⟨inside, rfl⟩ : ∃ inside, depth = inside + 1 := ⟨depth - 1, by omega⟩
      rw [expandWithin, if_neg hNew, expand_of_value hNew hGet, hGet]
      simp only [if_pos hOpens, ih (Nat.le_of_lt_succ (Nat.lt_of_lt_of_le hLess h)), hPath,
        Option.bind_some]
  | case6 chain key rest hNew value hGet hOpens expanded hExpanded ihInner ih =>
      have hLess := room_append_lt (mem_keys_of_get? hGet) (Bool.not_eq_true _ ▸ hNew)
      obtain ⟨inside, rfl⟩ : ∃ inside, depth = inside + 1 := ⟨depth - 1, by omega⟩
      rw [expandWithin, if_neg hNew, expand_of_value hNew hGet, hGet]
      simp only [if_pos hOpens, ihInner (Nat.le_of_lt_succ (Nat.lt_of_lt_of_le hLess h)), hExpanded,
        Option.bind_some, ih h, Option.map_some]
  | case7 chain key rest hNew value hGet hPlain ih =>
      rw [expandWithin, if_neg hNew, expand_of_value hNew hGet, hGet]
      simp only [if_neg hPlain, ih h, Option.map_some]

end PropertyScope

/-- About every key there is one warning at most. -/
theorem CircularWarning.filter_key_eq {warnings : List CircularWarning} {warning : CircularWarning}
    (h : warnings.Pairwise fun a b => a.key < b.key) (hMem : warning ∈ warnings) :
    warnings.filter (·.key = warning.key) = [warning] := by
  induction warnings with
  | nil => cases hMem
  | cons first rest ih =>
      obtain ⟨hBelow, hRest⟩ := List.pairwise_cons.mp h
      rcases List.mem_cons.mp hMem with rfl | hLater
      · have hNone : rest.filter (·.key = warning.key) = [] := by
          rw [List.filter_eq_nil_iff]
          intro other hOther hSame
          have hLess := hBelow other hOther
          rw [of_decide_eq_true hSame] at hLess
          exact List.lt_irrefl _ hLess
        rw [List.filter_cons, if_pos (decide_eq_true rfl), hNone]
      · have hLess := hBelow warning hLater
        have hOther : ¬ first.key = warning.key := fun hSame =>
          List.lt_irrefl warning.key (hSame ▸ hLess)
        rw [List.filter_cons_of_neg (by simpa using hOther), ih hRest hLater]

namespace PropertyResolver

variable {r : PropertyResolver} {table : Table} {state : Table × List CircularWarning} {key value : Text}
  {keys : List Text}

theorem get?_resolved_of_error {path : List Text} (h : table.get? key = some value)
    (hSettle : (r.scope table).settle key value = .error path) :
    (r.resolved table).get? key = some value := by
  rw [resolved, Table.get?_mapValues, h, Option.map_some]
  simp only [hSettle]

/-- The warning about a key. -/
def warning? (r : PropertyResolver) (table : Table) (key : Text) : Option CircularWarning :=
  (table.get? key).bind fun value =>
    match (r.scope table).settle key value with
    | .ok _ => none
    | .error path => some ⟨key, path⟩

theorem eq_of_warning? {warning : CircularWarning} (h : r.warning? table key = some warning) :
    warning.key = key := by
  obtain ⟨value, _, hWarning⟩ := Option.bind_eq_some_iff.mp h
  split at hWarning
  · cases hWarning
  · cases hWarning
    rfl

theorem warnings_eq (r : PropertyResolver) (table : Table) :
    r.warnings table = table.keys.filterMap (r.warning? table) := by
  rw [warnings, Table.keys, List.filterMap_map]
  apply List.filterMap_congr
  intro entry hMem
  have hGet : table.get? entry.1 = some entry.2 := Table.get?_eq_some_iff.mpr hMem
  cases hSettle : (r.scope table).settle entry.1 entry.2 <;>
    simp only [Function.comp_apply, warning?, hGet, Option.bind_some, hSettle]

/-- The warnings come in the order of the keys. -/
theorem warnings_ordered (r : PropertyResolver) (table : Table) :
    (r.warnings table).Pairwise fun a b => a.key < b.key := by
  rw [warnings_eq]
  refine List.Pairwise.filterMap _ ?_ (List.pairwise_map.mpr table.ordered)
  intro key other hLess warning hWarning later hLater
  rwa [eq_of_warning? hWarning, eq_of_warning? hLater]

/-- What the loop over the keys does about one of them: a value that opens a reference is expanded in
place, or a warning goes out. References are looked up in the table as it was before the loop. -/
def treat (r : PropertyResolver) (table : Table) (state : Table × List CircularWarning) (key : Text) :
    Table × List CircularWarning :=
  match (r.scope table).known.get? key with
  | none => state
  | some value =>
    if Text.occursIn PropertyPiece.opening value then
      match (r.scope table).expand [key] (PropertyPiece.ofValue value) with
      | .ok text => (state.1.insert key text, state.2)
      | .error path => (state.1, state.2 ++ [⟨key, path⟩])
    else state

/-- One round of the loop. -/
theorem treat_eq (hGet : table.get? key = some value) (hState : state.1.get? key = some value) :
    (∀ other, (r.treat table state key).1.get? other =
      if other = key then (r.resolved table).get? key else state.1.get? other) ∧
    (r.treat table state key).2 = state.2 ++ (r.warning? table key).toList := by
  have hKnown : (r.scope table).known.get? key = some value := by
    rw [scope, Table.get?_overlay, hGet, Option.some_or]
  have hSame (other : Text) :
      state.1.get? other = if other = key then some value else state.1.get? other := by
    split
    · rename_i hKey
      rw [hKey, hState]
    · rfl
  rw [treat, hKnown]
  simp only [warning?, hGet, Option.bind_some]
  by_cases hOpens : Text.occursIn PropertyPiece.opening value = true
  · rw [if_pos hOpens]
    cases hExpand : (r.scope table).expand [key] (PropertyPiece.ofValue value) with
    | ok text =>
        have hSettle : (r.scope table).settle key value = .ok text := by
          rw [PropertyScope.settle, if_pos hOpens, hExpand]
        simp only [hSettle, get?_resolved_of_ok hGet hSettle, Table.get?_insert]
        simp
    | error path =>
        have hSettle : (r.scope table).settle key value = .error path := by
          rw [PropertyScope.settle, if_pos hOpens, hExpand]
        simp only [hSettle, get?_resolved_of_error hGet hSettle]
        exact ⟨hSame, rfl⟩
  · have hSettle : (r.scope table).settle key value = .ok value := by
      rw [PropertyScope.settle, if_neg hOpens]
    simp only [if_neg hOpens, hSettle, get?_resolved_of_ok hGet hSettle]
    exact ⟨hSame, (List.append_nil _).symm⟩

/-- The loop, over keys that have not been treated yet. -/
theorem foldl_treat (state : Table × List CircularWarning) (hNodup : keys.Nodup) (hKeys : ∀ key ∈ keys, key ∈ table.keys)
    (hState : ∀ key ∈ keys, state.1.get? key = table.get? key) :
    (∀ other, (keys.foldl (r.treat table) state).1.get? other =
      if other ∈ keys then (r.resolved table).get? other else state.1.get? other) ∧
    (keys.foldl (r.treat table) state).2 = state.2 ++ keys.filterMap (r.warning? table) := by
  induction keys generalizing state with
  | nil => simp
  | cons key rest ih =>
      obtain ⟨hFresh, hNodup⟩ := List.nodup_cons.mp hNodup
      obtain ⟨value, hGet⟩ := Table.exists_of_mem_keys (hKeys key (List.mem_cons_self ..))
      obtain ⟨hTable, hWarnings⟩ :=
        treat_eq (r := r) hGet ((hState key (List.mem_cons_self ..)).trans hGet)
      have hLater : ∀ other ∈ rest, (r.treat table state key).1.get? other = table.get? other := by
        intro other hMem
        have hOther : ¬ other = key := fun hSame => hFresh (hSame ▸ hMem)
        rw [hTable, if_neg hOther, hState other (List.mem_cons_of_mem _ hMem)]
      obtain ⟨hRestTable, hRestWarnings⟩ :=
        ih _ hNodup (fun other hMem => hKeys other (List.mem_cons_of_mem _ hMem)) hLater
      constructor
      · intro other
        rw [List.foldl_cons, hRestTable, hTable]
        by_cases hRest : other ∈ rest
        · rw [if_pos hRest, if_pos (List.mem_cons_of_mem _ hRest)]
        · by_cases hSame : other = key
          · rw [if_neg hRest, if_pos hSame, hSame, if_pos (List.mem_cons_self ..)]
          · rw [if_neg hRest, if_neg hSame, if_neg fun hMem => (List.mem_cons.mp hMem).elim hSame hRest]
      · rw [List.foldl_cons, hRestWarnings, hWarnings, List.append_assoc, List.filterMap_cons]
        cases r.warning? table key <;> rfl

/-- The loop over all keys, in whatever order they come. -/
theorem foldl_treat_of_perm (h : keys.Perm table.keys) :
    keys.foldl (r.treat table) (table, []) =
      (r.resolved table, keys.filterMap (r.warning? table)) := by
  obtain ⟨hTable, hWarnings⟩ := foldl_treat (r := r) (table, [])
    (h.nodup_iff.mpr table.nodup_keys) (fun key hMem => h.mem_iff.mp hMem) (fun _ _ => rfl)
  apply Prod.ext
  · apply Table.ext_get?
    intro other
    rw [hTable]
    split
    · rfl
    · rename_i hNot
      have hNone : table.get? other = none := by
        cases hGet : table.get? other with
        | none => rfl
        | some value => exact absurd (h.mem_iff.mpr (Table.mem_keys_of_get? hGet)) hNot
      rw [hNone, get?_resolved_of_none hNone]
  · rw [hWarnings, List.nil_append]

/-- What resolving a table does about circles, and about everything else. -/
structure Resolves (r : PropertyResolver) (table : Table) : Prop where
  /-- A value that gets into a circle stays as it is written. There is one warning about its key, and the
  path of the warning goes from the key along references up to the first key that comes again. -/
  circular : ∀ key value, table.get? key = some value → (r.scope table).Circular key →
    (r.resolved table).get? key = some value ∧
      ∃ path, (r.scope table).LeadsBack [key] path ∧
        (r.warnings table).filter (·.key = key) = [⟨key, path⟩]
  /-- Every other value becomes its full expansion, without a warning. -/
  settled : ∀ key value, table.get? key = some value → ¬ (r.scope table).Circular key →
    ∃ text, (∀ other, (r.scope table).Expands (PropertyPiece.ofValue value) other ↔ other = text) ∧
      (r.resolved table).get? key = some text ∧ (r.warnings table).filter (·.key = key) = []
  /-- No key is added, and there are no warnings about other keys. -/
  others : ∀ key, table.get? key = none →
    (r.resolved table).get? key = none ∧ (r.warnings table).filter (·.key = key) = []
  ordered : (r.warnings table).Pairwise fun a b => a.key < b.key
  /-- The loop over the keys, in their order. -/
  loop : table.keys.foldl (r.treat table) (table, []) = (r.resolved table, r.warnings table)
  /-- In any other order the loop ends with the same table, with the same known properties behind it, and
  with the same warnings up to their order. -/
  anyOrder : ∀ keys : List Text, keys.Perm table.keys →
    let after := keys.foldl (r.treat table) (table, [])
    after.1 = r.resolved table ∧ r.known.overlay after.1 = (r.learn table).known ∧
      after.2.Perm (r.warnings table)
  /-- Afterwards the resolved entries answer before what was known. -/
  learned : ∀ key, (r.learn table).known.get? key =
    ((r.resolved table).get? key).or (r.known.get? key)
  /-- No more values are open inside each other than there are keys. -/
  ends : ∀ key pieces, (r.scope table).expandWithin (r.scope table).keys.length [key] pieces =
    some ((r.scope table).expand [key] pieces)

theorem filter_warnings_eq_nil (h : ∀ path, ⟨key, path⟩ ∉ r.warnings table) :
    (r.warnings table).filter (·.key = key) = [] := by
  rw [List.filter_eq_nil_iff]
  rintro ⟨own, path⟩ hMem hSame
  obtain rfl : own = key := of_decide_eq_true hSame
  exact h path hMem

/-- Circles are found exactly, and what is in none is resolved in full. -/
theorem resolves_exactly (r : PropertyResolver) (table : Table) : r.Resolves table where
  circular key value hGet hCircular := by
    rcases PropertyScope.settle_cases (get?_scope (r := r) hGet) with
      ⟨text, _, _, hNot⟩ | ⟨path, hSettle, hLeadsBack, _⟩
    · exact absurd hCircular hNot
    · have hMem := (mem_warnings_iff hGet).mpr hSettle
      exact ⟨get?_resolved_of_error hGet hSettle, path, hLeadsBack,
        CircularWarning.filter_key_eq (r.warnings_ordered table) hMem⟩
  settled key value hGet hNot := by
    rcases PropertyScope.settle_cases (get?_scope (r := r) hGet) with
      ⟨text, hSettle, hExpands, _⟩ | ⟨path, _, _, hCircular⟩
    · refine ⟨text, fun other => ?_, get?_resolved_of_ok hGet hSettle, filter_warnings_eq_nil ?_⟩
      · constructor
        · exact fun hOther => hOther.unique hExpands
        · rintro rfl
          exact hExpands
      · intro path hMem
        cases hSettle.symm.trans ((mem_warnings_iff hGet).mp hMem)
    · exact absurd hCircular hNot
  others key hNone := by
    refine ⟨get?_resolved_of_none hNone, filter_warnings_eq_nil fun path hMem => ?_⟩
    rw [warnings_eq, List.mem_filterMap] at hMem
    obtain ⟨own, hOwn, hWarning⟩ := hMem
    obtain ⟨value, hGet⟩ := Table.exists_of_mem_keys hOwn
    obtain rfl : key = own := eq_of_warning? hWarning
    cases hNone.symm.trans hGet
  ordered := r.warnings_ordered table
  loop := by rw [foldl_treat_of_perm (List.Perm.refl _), warnings_eq]
  anyOrder keys hPerm := by
    rw [foldl_treat_of_perm hPerm, warnings_eq]
    exact ⟨rfl, rfl, hPerm.filterMap _⟩
  learned key := by rw [learn, Table.get?_overlay]
  ends key pieces := PropertyScope.expandWithin_of_room (List.length_filter_le _ _)

/-- A key that refers to another one, which the fallback table lets refer to itself. -/
theorem resolves_exactly_self_reference :
    let r : PropertyResolver := ⟨.empty, .ofList [(['b'], PropertyPiece.written ['b'])]⟩
    let table : Table := .ofList [(['a'], PropertyPiece.written ['b'])]
    (r.scope table).Circular ['a'] ∧
      (r.resolved table).get? ['a'] = some (PropertyPiece.written ['b']) ∧
      ∃ path, (r.scope table).LeadsBack [['a']] path ∧
        (r.warnings table).filter (·.key = ['a']) = [⟨['a'], path⟩] := by
  intro r table
  have hPieces : PropertyPiece.ofValue (PropertyPiece.written ['b']) =
      [.literal [], .reference ['b'], .literal []] := PropertyPiece.ofValue_written (by decide)
  have hFirst : (r.scope table).Refers ['a'] ['b'] :=
    ⟨PropertyPiece.written ['b'], rfl, by rw [hPieces]; decide, rfl⟩
  have hAgain : (r.scope table).Refers ['b'] ['b'] :=
    ⟨PropertyPiece.written ['b'], rfl, by rw [hPieces]; decide, rfl⟩
  have hCircular : (r.scope table).Circular ['a'] := ⟨['b'], .single hFirst, .single hAgain⟩
  exact ⟨hCircular, (resolves_exactly r table).circular _ _ rfl hCircular⟩

end PropertyResolver

end Placeholder
