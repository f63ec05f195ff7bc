import Placeholder.Proofs.Property.Overriding
import Placeholder.Proofs.Table.Contents
import Placeholder.Property.Loading
/-!
Property files loaded in order. What was loaded is at every moment what the resolver has learned, so
loading may stop anywhere and go on from there with a resolver that knows what was loaded. An entry
is resolved when its file is loaded and never again. The first file that cannot be read, or is
malformed, decides how loading ends.
-/
namespace Placeholder

namespace Table

variable {table : Table} {key : Text}

theorem mem_keys_iff : key ∈ table.keys ↔ (table.get? key).isSome := by
  rw [Option.isSome_iff_exists]
  exact ⟨exists_of_mem_keys, fun ⟨_, hGet⟩ => mem_keys_of_get? hGet⟩

theorem mem_keys_overlay {upper : Table} : key ∈ (table.overlay upper).keys ↔
    key ∈ upper.keys ∨ key ∈ table.keys := by
  rw [mem_keys_iff, mem_keys_iff, mem_keys_iff, get?_overlay, Option.isSome_or, Bool.or_eq_true]

theorem overlay_empty (table : Table) : table.overlay .empty = table := rfl

theorem empty_overlay (table : Table) : Table.empty.overlay table = table := by
  apply ext_get?
  intro key
  rw [get?_overlay, get?_empty, Option.or_none]

/-- It makes no difference which two of three tables are laid over each other first. -/
theorem overlay_assoc (lower middle upper : Table) :
    (lower.overlay middle).overlay upper = lower.overlay (middle.overlay upper) := by
  apply ext_get?
  intro key
  rw [get?_overlay, get?_overlay, get?_overlay, get?_overlay, Option.or_assoc]

end Table

namespace PropertyResolver

variable {r : PropertyResolver} {tables : List Table} {files : List FileRead}

/-- The resolver that knows these properties too. -/
def knowing (r : PropertyResolver) (table : Table) : PropertyResolver :=
  { r with known := r.known.overlay table }

theorem mem_keys_resolved {table : Table} {key : Text} :
    key ∈ (r.resolved table).keys ↔ key ∈ table.keys := by
  rw [Table.mem_keys_iff, Table.mem_keys_iff, resolved, Table.get?_mapValues, Option.isSome_map]

/-- What a resolver has learned from tables is what it made of them. -/
theorem learnAll_eq (r : PropertyResolver) (tables : List Table) :
    r.learnAll tables = r.knowing (r.resolveAll tables).table := by
  induction tables generalizing r with
  | nil => rw [learnAll, List.foldl_nil, resolveAll, knowing, Table.overlay_empty]
  | cons table rest ih =>
      have hRest : r.learnAll (table :: rest) = (r.learn table).learnAll rest := rfl
      rw [hRest, ih, resolveAll, knowing, knowing, learn]
      simp only [Table.overlay_assoc]

/-- Tables may be resolved in two parts. -/
theorem resolveAll_append (r : PropertyResolver) (first second : List Table) :
    r.resolveAll (first ++ second) =
      ⟨(r.resolveAll first).table.overlay ((r.learnAll first).resolveAll second).table,
        (r.resolveAll first).warnings ++ ((r.learnAll first).resolveAll second).warnings⟩ := by
  induction first generalizing r with
  | nil =>
      rw [List.nil_append, resolveAll, Table.empty_overlay]
      rfl
  | cons table rest ih =>
      have hRest : r.learnAll (table :: rest) = (r.learn table).learnAll rest := rfl
      rw [List.cons_append, resolveAll, ih, resolveAll, hRest]
      simp only [Table.overlay_assoc, List.append_assoc]

/-- Nothing but the keys of the tables gets into the result, and all of them do. -/
theorem mem_keys_resolveAll {key : Text} :
    key ∈ (r.resolveAll tables).table.keys ↔ ∃ table ∈ tables, key ∈ table.keys := by
  induction tables generalizing r with
  | nil => simp [resolveAll, Table.keys, Table.empty]
  | cons table rest ih =>
      rw [resolveAll, Table.mem_keys_overlay, ih, mem_keys_resolved, List.exists_mem_cons_iff, or_comm]

theorem load_eq_ok_iff {loaded : Loaded} : r.load files = .ok loaded ↔
    ∃ tables, files.map PropertyFile.ofRead = tables.map .ok ∧ r.resolveAll tables = loaded := by
  rw [load]
  constructor
  · intro h
    cases hTables : files.mapM PropertyFile.ofRead with
    | error failure =>
        rw [hTables] at h
        cases h
    | ok tables =>
        rw [hTables] at h
        exact ⟨tables, mapM_eq_ok_iff.mp hTables, Except.ok.inj h⟩
  · rintro ⟨tables, hTables, rfl⟩
    rw [mapM_eq_ok_iff.mpr hTables]
    rfl

theorem load_eq_error_iff {failure : Failure} : r.load files = .error failure ↔
    files.mapM PropertyFile.ofRead = .error failure := by
  rw [load]
  cases files.mapM PropertyFile.ofRead with
  | error met =>
      exact ⟨fun h => congrArg Except.error (Except.error.inj h),
        fun h => congrArg Except.error (Except.error.inj h)⟩
  | ok tables =>
      constructor
      · intro h
        cases h
      · intro h
        cases h

/-- How files are loaded one after the other. -/
structure LoadsInOrder (r : PropertyResolver) : Prop where
  /-- If all files can be read, loading them is loading the first of them, and then the others with a resolver
  that knows what was loaded. Of two entries for one key the later counts. -/
  parts : ∀ first second, (∀ file ∈ first ++ second, ∃ table, PropertyFile.ofRead file = .ok table) →
    ∃ front back, r.load first = .ok front ∧ (r.knowing front.table).load second = .ok back ∧
      r.load (first ++ second) =
        .ok ⟨front.table.overlay back.table, front.warnings ++ back.warnings⟩
  /-- An entry keeps the value that it got when its file was loaded, unless a file behind it has an entry
  for the same key. -/
  kept : ∀ before file after table front loaded key, PropertyFile.ofRead file = .ok table →
    key ∈ table.keys →
    (∀ later ∈ after, ∀ other, PropertyFile.ofRead later = .ok other → key ∉ other.keys) →
    r.load before = .ok front → r.load (before ++ file :: after) = .ok loaded →
    loaded.table.get? key = ((r.knowing front.table).resolved table).get? key
  /-- The keys are those of the files. -/
  keys : ∀ files loaded key, r.load files = .ok loaded →
    (key ∈ loaded.table.keys ↔
      ∃ file ∈ files, ∃ table, PropertyFile.ofRead file = .ok table ∧ key ∈ table.keys)
  /-- Loading ends with the failure of the first file that fails, and only so without a table. -/
  fails : ∀ files failure, r.load files = .error failure ↔
    ∃ before file after, files = before ++ file :: after ∧
      (∀ earlier ∈ before, ∃ table, PropertyFile.ofRead earlier = .ok table) ∧
      PropertyFile.ofRead file = .error failure

theorem loads_in_order (r : PropertyResolver) : r.LoadsInOrder where
  parts first second hAll := by
    obtain ⟨tables, hFirst⟩ := exists_results fun file hMem => hAll file (List.mem_append_left _ hMem)
    obtain ⟨later, hSecond⟩ := exists_results fun file hMem => hAll file (List.mem_append_right _ hMem)
    refine ⟨_, _, load_eq_ok_iff.mpr ⟨tables, hFirst, rfl⟩,
      load_eq_ok_iff.mpr ⟨later, hSecond, rfl⟩, load_eq_ok_iff.mpr ⟨tables ++ later, ?_, ?_⟩⟩
    · rw [List.map_append, List.map_append, hFirst, hSecond]
    · rw [resolveAll_append, learnAll_eq]
  kept before file after table front loaded key hTable hKey hLast hFront hLoaded := by
    obtain ⟨tables, hTables, rfl⟩ := load_eq_ok_iff.mp hFront
    obtain ⟨all, hAll, rfl⟩ := load_eq_ok_iff.mp hLoaded
    rw [List.map_append, List.map_cons, hTables, hTable] at hAll
    obtain ⟨known, rest, rfl, hKnown, hRest⟩ := List.map_eq_append_iff.mp hAll.symm
    obtain ⟨own, behind, rfl, hOwn, hBehind⟩ := List.map_eq_cons_iff.mp hRest
    obtain rfl : known = tables := List.map_injective_iff.mpr (fun _ _ => Except.ok.inj) hKnown
    obtain rfl : own = table := Except.ok.inj hOwn
    have hNone : ∀ other ∈ behind, other.get? key = none := by
      intro other hMem
      obtain ⟨later, hLater, hOther⟩ := (mem_results_iff hBehind.symm).mp hMem
      have hNot := hLast later hLater other hOther
      rwa [Table.mem_keys_iff, Option.not_isSome_iff_eq_none] at hNot
    rw [← mem_keys_resolved (r := r.learnAll known)] at hKey
    obtain ⟨text, hText⟩ := Table.exists_of_mem_keys hKey
    rw [get?_resolveAll_of_last hNone hText, ← learnAll_eq, hText]
  keys files loaded key hLoaded := by
    obtain ⟨tables, hTables, rfl⟩ := load_eq_ok_iff.mp hLoaded
    rw [mem_keys_resolveAll]
    constructor
    · rintro ⟨table, hMem, hKey⟩
      obtain ⟨file, hFile, hTable⟩ := (mem_results_iff hTables).mp hMem
      exact ⟨file, hFile, table, hTable, hKey⟩
    · rintro ⟨file, hFile, table, hTable, hKey⟩
      exact ⟨table, (mem_results_iff hTables).mpr ⟨file, hFile, hTable⟩, hKey⟩
  fails files failure := load_eq_error_iff.trans mapM_eq_error_iff_first

/-- A file that refers to a key which only the file behind it defines. The reference stays as it was when
its own file was loaded. -/
theorem loads_in_order_defined_late :
    let r : PropertyResolver := ⟨.empty, .empty⟩
    let first : FileRead := ⟨['f'], .ok (Utf8.encodeText ['a', '=', '$', '\x7b', 'b', '\x7d'])⟩
    let second : FileRead := ⟨['g'], .ok (Utf8.encodeText ['b', '=', 'v'])⟩
    (∀ file ∈ [first] ++ [second], ∃ table, PropertyFile.ofRead file = .ok table) ∧
      ∃ front back, r.load [first] = .ok front ∧ (r.knowing front.table).load [second] = .ok back ∧
        ∃ loaded, r.load ([first] ++ [second]) = .ok loaded ∧
          loaded = ⟨front.table.overlay back.table, front.warnings ++ back.warnings⟩ ∧
          loaded.table.get? ['a'] = some (PropertyPiece.written ['b']) := by
  intro r first second
  let own : Table := .ofList [(['a'], PropertyPiece.written ['b'])]
  have hOrder := loads_in_order r
  have hFirst : PropertyFile.ofRead first = .ok own := by with_unfolding_all rfl
  have hSecond : PropertyFile.ofRead second = .ok (.ofList [(['b'], ['v'])]) := by
    with_unfolding_all rfl
  have hAll : ∀ file ∈ [first] ++ [second], ∃ table, PropertyFile.ofRead file = .ok table := by
    simp [hFirst, hSecond]
  obtain ⟨front, back, hFront, hBack, hLoaded⟩ := hOrder.parts [first] [second] hAll
  have hLast : ∀ later ∈ [second], ∀ other, PropertyFile.ofRead later = .ok other →
      ['a'] ∉ other.keys := by
    intro later hMem other hOther
    obtain rfl := List.mem_singleton.mp hMem
    rw [← Except.ok.inj (hSecond.symm.trans hOther)]
    decide
  have hKept := hOrder.kept [] first [second] own ⟨.empty, []⟩ _ ['a'] hFirst (by decide) hLast rfl
    hLoaded
  have hSettle : ((r.knowing .empty).scope own).settle ['a'] (PropertyPiece.written ['b']) =
      .ok (PropertyPiece.written ['b']) :=
    PropertyScope.settle_written_of_none (by decide) (by decide) rfl
  rw [get?_resolved_of_ok rfl hSettle] at hKept
  exact ⟨hAll, front, back, hFront, hBack, _, hLoaded, rfl, hKept⟩

end PropertyResolver

end Placeholder
