import Placeholder.Configuration.Sources
import Placeholder.Proofs.Property.Expanding
import Placeholder.Proofs.Sources.Order
/-!
Definitions that override everything, as filter files see them. A definition reaches the references in
every filter file, at any depth, as long as neither that file nor one before it has an entry for the
same key. An entry hides the definition from there on, though not from the text that is filtered.
-/
namespace Placeholder

namespace PropertyResolver

variable {r : PropertyResolver} {before after : List Table} {table : Table} {key value : Text}

/-- The resolver behind these tables. -/
def learnAll (r : PropertyResolver) (tables : List Table) : PropertyResolver :=
  tables.foldl learn r

theorem get?_resolved_of_none (h : table.get? key = none) : (r.resolved table).get? key = none := by
  rw [resolved, Table.get?_mapValues, h, Option.map_none]

/-- What tables say nothing about is as before. -/
theorem get?_known_learnAll (h : ∀ table ∈ before, table.get? key = none) :
    (r.learnAll before).known.get? key = r.known.get? key := by
  induction before generalizing r with
  | nil => rfl
  | cons table before ih =>
      have hHere := get?_resolved_of_none (r := r) (h table (List.mem_cons_self ..))
      show ((r.learn table).learnAll before).known.get? key = _
      rw [ih fun later hMem => h later (List.mem_cons_of_mem _ hMem), learn, Table.get?_overlay, hHere,
        Option.none_or]

/-- What no table says anything about has no value from them. -/
theorem get?_resolveAll_of_none (h : ∀ table ∈ after, table.get? key = none) :
    (r.resolveAll after).table.get? key = none := by
  induction after generalizing r with
  | nil => rfl
  | cons table after ih =>
      rw [resolveAll, Table.get?_overlay, ih fun later hMem => h later (List.mem_cons_of_mem _ hMem),
        Option.none_or]
      exact get?_resolved_of_none (h table (List.mem_cons_self ..))

/-- The last table with an entry counts. -/
theorem get?_resolveAll_of_last {text : Text} (h : ∀ table ∈ after, table.get? key = none)
    (hLast : ((r.learnAll before).resolved table).get? key = some text) :
    (r.resolveAll (before ++ table :: after)).table.get? key = some text := by
  induction before generalizing r with
  | nil =>
      rw [List.nil_append, resolveAll, Table.get?_overlay, get?_resolveAll_of_none h, Option.none_or]
      exact hLast
  | cons first before ih =>
      rw [List.cons_append, resolveAll, Table.get?_overlay, ih hLast, Option.some_or]

/-- Without any warnings there are none about one of the tables. -/
theorem warnings_learnAll (h : (r.resolveAll (before ++ table :: after)).warnings = []) :
    (r.learnAll before).warnings table = [] := by
  induction before generalizing r with
  | nil =>
      rw [List.nil_append, resolveAll] at h
      exact (List.append_eq_nil_iff.mp h).1
  | cons first before ih =>
      rw [List.cons_append, resolveAll] at h
      exact ih (List.append_eq_nil_iff.mp h).2

/-- Where every entry can be resolved there are none. -/
theorem warnings_eq_nil (h : ∀ entry ∈ table.entries,
    ∃ text, (r.scope table).settle entry.1 entry.2 = .ok text) : r.warnings table = [] := by
  rw [warnings, List.filterMap_eq_nil_iff]
  intro entry hMem
  obtain ⟨text, hSettle⟩ := h entry hMem
  simp only [hSettle]

/-- An entry without a warning has its references filled in. -/
theorem exists_settled (h : r.warnings table = []) (hSome : table.get? key = some value) :
    ∃ text, (r.scope table).settle key value = .ok text ∧ (r.resolved table).get? key = some text := by
  cases hSettle : (r.scope table).settle key value with
  | ok text => exact ⟨text, rfl, get?_resolved_of_ok hSome hSettle⟩
  | error path =>
      have hMem := (mem_warnings_iff hSome).mpr hSettle
      rw [h] at hMem
      cases hMem

end PropertyResolver

namespace Configuration

variable {c : Configuration} {overrides vars : Table} {files : ConfigurationFiles}
  {prepared : Prepared} {before after : List Table} {table : Table} {key value : Text}

/-- What an expander is made of. -/
theorem eq_of_prepare {tables : List Table}
    (hPrepared : c.prepare overrides vars files = .ok prepared)
    (hTables : files.filters.mapM PropertyFile.ofRead = .ok tables) :
    ∃ model, prepared = ⟨c.expander (c.sources overrides vars
        ((c.resolver overrides vars).resolveAll tables).table model),
      ((c.resolver overrides vars).resolveAll tables).warnings⟩ := by
  simp only [prepare, PropertyResolver.load, hTables] at hPrepared
  cases hModel : c.modelSources files.model with
  | error failure =>
      rw [hModel] at hPrepared
      cases hPrepared
  | ok model =>
      rw [hModel] at hPrepared
      exact ⟨model, (Except.ok.inj hPrepared).symm⟩

/-- Without a project model the filter files are all that is needed. -/
theorem prepare_of_tables (c : Configuration) (overrides vars : Table) {tables : List Table}
    (hTables : files.filters.mapM PropertyFile.ofRead = .ok tables) (hModel : files.model = none) :
    c.prepare overrides vars files = .ok ⟨c.expander (c.sources overrides vars
        ((c.resolver overrides vars).resolveAll tables).table []),
      ((c.resolver overrides vars).resolveAll tables).warnings⟩ := by
  have hSources : c.modelSources none = .ok [] := by
    simp only [modelSources]
    cases c.project <;> rfl
  simp only [prepare, PropertyResolver.load, hTables, hModel, hSources]
  rfl

/-- Definitions, properties and filter files are asked before everything else. -/
theorem ask_of_first {filtered : Table} {model : List ValueSource}
    (h : [overrides.get?, c.properties.get?, filtered.get?].findSome? (· key) = some value) :
    ((c.expander (c.sources overrides vars filtered model)).ask key).1 = .ok (some value) := by
  have hOrder := askInOrder_ofAnswers [overrides.get?, c.properties.get?, filtered.get?] key 0
    (model ++ if c.environment then [.ofEnvironment vars] else [])
  rw [h] at hOrder
  exact hOrder

/-- Definitions in filter files. Where nothing is circular and neither this filter file nor one before it
has an entry for the key, a reference to it stands for the definition, expanded in turn, wherever
references lead to it from a value of this file; and the value of a property is the value in the file
with its references filled in. In the text that is filtered the key has the same definition. -/
theorem override_reaches (hPrepared : c.prepare overrides vars files = .ok prepared)
    (hNoCircle : prepared.warnings = [])
    (hTables : files.filters.mapM PropertyFile.ofRead = .ok (before ++ table :: after))
    (hDefined : overrides.get? key = some value)
    (hUnhidden : ∀ other ∈ before ++ [table], other.get? key = none) :
    let scope := ((c.resolver overrides vars).learnAll before).scope table
    (prepared.expander.ask key).1 = .ok (some value) ∧ scope.get? key = some value ∧
    ∀ own written, table.get? own = some written →
      (scope.Leads written key →
        scope.full key = (PropertyPiece.ofValue value).flatMap (PropertyPiece.fill scope.full)) ∧
      (overrides.get? own = none → c.properties.get? own = none →
        (∀ later ∈ after, later.get? own = none) →
        (prepared.expander.ask own).1 =
          .ok (some ((PropertyPiece.ofValue written).flatMap (PropertyPiece.fill scope.full)))) := by
  intro scope
  obtain ⟨model, rfl⟩ := eq_of_prepare hPrepared hTables
  have hGet : scope.get? key = some value := by
    have hBefore : ∀ other ∈ before, other.get? key = none := fun other hMem =>
      hUnhidden other (List.mem_append_left _ hMem)
    have hOwn : table.get? key = none := hUnhidden table (by simp)
    have hKnown : ((c.resolver overrides vars).learnAll before).known.get? key = some value := by
      rw [PropertyResolver.get?_known_learnAll hBefore, resolver, Table.get?_overlay, hDefined,
        Option.some_or]
    show ((((c.resolver overrides vars).learnAll before).known.overlay table).get? key).or _ = _
    rw [Table.get?_overlay, hOwn, Option.none_or, hKnown, Option.some_or]
  refine ⟨ask_of_first (by simp [hDefined]), hGet, fun own written hOwn => ?_⟩
  obtain ⟨text, hSettle, hResolved⟩ :=
    PropertyResolver.exists_settled (PropertyResolver.warnings_learnAll hNoCircle) hOwn
  refine ⟨fun hLeads => PropertyScope.full_of_leads hLeads hSettle hGet, ?_⟩
  intro hNoDefinition hNoProperty hLast
  rw [← (PropertyScope.fills_of_settle hSettle).text]
  apply ask_of_first
  have hLoaded := PropertyResolver.get?_resolveAll_of_last hLast hResolved
  simp [hNoDefinition, hNoProperty, hLoaded]

/-- A filter file that refers to a definition. -/
theorem override_reaches_reference :
    let overrides : Table := .ofList [(['k'], ['v'])]
    let table : Table := .ofList [(['m'], ['$', '\x7b', 'k', '\x7d'])]
    let content : Text := ['m', '=', '$', '\x7b', 'k', '\x7d']
    let files : ConfigurationFiles := ⟨[⟨['f'], .ok (Utf8.encodeText content)⟩], none⟩
    ∃ prepared, Configuration.standard.prepare overrides .empty files = .ok prepared ∧
      prepared.warnings = [] ∧ files.filters.mapM PropertyFile.ofRead = .ok ([] ++ table :: []) ∧
      overrides.get? ['k'] = some ['v'] ∧
      (∀ other ∈ [] ++ [table], other.get? ['k'] = none) ∧
      let scope := ((Configuration.standard.resolver overrides .empty).learnAll []).scope table
      (prepared.expander.ask ['k']).1 = .ok (some ['v']) ∧ scope.get? ['k'] = some ['v'] ∧
      ∀ own written, table.get? own = some written →
        (scope.Leads written ['k'] → scope.full ['k'] =
          (PropertyPiece.ofValue ['v']).flatMap (PropertyPiece.fill scope.full)) ∧
        (overrides.get? own = none → Configuration.standard.properties.get? own = none →
          (∀ later ∈ [], Table.get? later own = none) →
          (prepared.expander.ask own).1 =
            .ok (some ((PropertyPiece.ofValue written).flatMap (PropertyPiece.fill scope.full)))) := by
  intro overrides table content files
  let r := Configuration.standard.resolver overrides .empty
  have hTables : files.filters.mapM PropertyFile.ofRead = .ok ([] ++ table :: []) := by
    with_unfolding_all rfl
  have hUnhidden : ∀ other ∈ [] ++ [table], other.get? ['k'] = none := by decide
  have hSettle : (r.scope table).settle ['m'] (PropertyPiece.written ['k']) = .ok ['v'] :=
    PropertyScope.settle_written (by decide) (by decide) rfl (by decide)
  have hNoCircle : (r.resolveAll ([] ++ table :: [])).warnings = [] := by
    show r.warnings table ++ [] = []
    rw [List.append_nil]
    apply PropertyResolver.warnings_eq_nil
    intro entry hMem
    obtain rfl := List.mem_singleton.mp hMem
    exact ⟨_, hSettle⟩
  have hPrepared := prepare_of_tables .standard overrides .empty hTables rfl
  exact ⟨_, hPrepared, hNoCircle, hTables, rfl, hUnhidden,
    override_reaches hPrepared hNoCircle hTables rfl hUnhidden⟩

/-- A filter file with an entry for a key that is defined. In the text that is filtered the key has its
definition, but a property of the file that refers to the key has the entry. -/
theorem entry_hides_override :
    let overrides : Table := .ofList [(['k'], ['c', 'l', 'i'])]
    let content : Text :=
      ['k', '=', 'f', 'i', 'l', 'e', '\n', 'm', '=', '$', '\x7b', 'k', '\x7d']
    let files : ConfigurationFiles := ⟨[⟨['f'], .ok (Utf8.encodeText content)⟩], none⟩
    ∃ prepared, Configuration.standard.prepare overrides .empty files = .ok prepared ∧
      prepared.warnings = [] ∧ (prepared.expander.ask ['k']).1 = .ok (some ['c', 'l', 'i']) ∧
      (prepared.expander.ask ['m']).1 = .ok (some ['f', 'i', 'l', 'e']) := by
  intro overrides content files
  let table : Table := .ofList [(['k'], ['f', 'i', 'l', 'e']), (['m'], ['$', '\x7b', 'k', '\x7d'])]
  let r := Configuration.standard.resolver overrides .empty
  have hTables : files.filters.mapM PropertyFile.ofRead = .ok ([] ++ table :: []) := by
    with_unfolding_all rfl
  have hSettle : (r.scope table).settle ['m'] (PropertyPiece.written ['k']) =
      .ok ['f', 'i', 'l', 'e'] :=
    PropertyScope.settle_written (by decide) (by decide) rfl (by decide)
  have hNoCircle : (r.resolveAll ([] ++ table :: [])).warnings = [] := by
    show r.warnings table ++ [] = []
    rw [List.append_nil]
    apply PropertyResolver.warnings_eq_nil
    intro entry hMem
    rcases List.mem_pair.mp hMem with rfl | rfl
    · exact ⟨_, rfl⟩
    · exact ⟨_, hSettle⟩
  refine ⟨_, prepare_of_tables .standard overrides .empty hTables rfl, hNoCircle,
    ask_of_first rfl, ask_of_first ?_⟩
  have hResolved : ((r.learnAll []).resolved table).get? ['m'] = some ['f', 'i', 'l', 'e'] :=
    PropertyResolver.get?_resolved_of_ok rfl hSettle
  have hLast : ∀ later ∈ ([] : List Table), later.get? ['m'] = none := nofun
  exact PropertyResolver.get?_resolveAll_of_last hLast hResolved

end Configuration

end Placeholder
