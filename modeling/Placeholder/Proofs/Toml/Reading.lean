import Placeholder.Proofs.Toml.Conversion
/-!
Reading puts the members of every table in rising order of their keys, at any depth: whatever a
statement changes, it puts one member into a table. So a value that has been read has each key once,
and its document keeps it.
-/
namespace Placeholder.Toml

namespace Written

def IsScalar : Written → Prop
  | list _ => False
  | table _ => False
  | _ => True

/-- Every table inside has its members in rising order. -/
inductive Sorted : Written → Prop where
  | scalar {written : Written} (h : written.IsScalar) : Sorted written
  | list {items : List Written} (h : ∀ item ∈ items, Sorted item) : Sorted (.list items)
  | table {members : List (Text × Written)} (hRising : members.Pairwise fun a b => a.1 < b.1)
      (h : ∀ member ∈ members, Sorted member.2) : Sorted (.table members)

theorem distinct_of_items {items : List Written} {values : List Toml}
    (hItems : ∀ item ∈ items, ∀ value, item.toToml? = some value → value.Distinct)
    (h : itemsToToml? items = some values) : ∀ value ∈ values, value.Distinct := by
  induction items generalizing values with
  | nil =>
      cases h
      simp
  | cons item rest ih =>
      rw [itemsToToml?] at h
      obtain ⟨value, hValue, hRest⟩ := Option.bind_eq_some_iff.mp h
      obtain ⟨later, hLater, hAll⟩ := Option.bind_eq_some_iff.mp hRest
      cases hAll
      rw [List.forall_mem_cons] at hItems ⊢
      exact ⟨hItems.1 value hValue, ih hItems.2 hLater⟩

theorem distinct_of_members {members : List (Text × Written)} {values : List (Text × Toml)}
    (hMembers : ∀ member ∈ members, ∀ value, member.2.toToml? = some value → value.Distinct)
    (h : membersToToml? members = some values) :
    values.map Prod.fst = members.map Prod.fst ∧ ∀ member ∈ values, member.2.Distinct := by
  induction members generalizing values with
  | nil =>
      cases h
      simp
  | cons member rest ih =>
      rw [membersToToml?] at h
      obtain ⟨value, hValue, hRest⟩ := Option.bind_eq_some_iff.mp h
      obtain ⟨later, hLater, hAll⟩ := Option.bind_eq_some_iff.mp hRest
      cases hAll
      rw [List.forall_mem_cons] at hMembers
      obtain ⟨hKeys, hDistinct⟩ := ih hMembers.2 hLater
      rw [List.map_cons, List.map_cons, hKeys, List.forall_mem_cons]
      exact ⟨rfl, hMembers.1 value hValue, hDistinct⟩

theorem Sorted.distinct {written : Written} (hSorted : written.Sorted) {value : Toml}
    (h : written.toToml? = some value) : value.Distinct := by
  induction hSorted generalizing value with
  | @scalar written hScalar =>
      cases written with
      | list items => cases hScalar
      | table members => cases hScalar
      | excess => cases h
      | integer n =>
          rw [toToml?] at h
          split at h
          · cases h
            rintro members ⟨⟩
          · cases h
      | text _ | real _ | boolean _ | moment _ =>
          cases h
          rintro members ⟨⟩
  | @list items _ ih =>
      obtain ⟨values, hValues, rfl⟩ := Option.map_eq_some_iff.mp h
      exact distinct_list_iff.mpr (distinct_of_items (fun item hMem _ => ih item hMem) hValues)
  | @table members hRising _ ih =>
      rw [toToml?] at h
      split at h
      · obtain ⟨moment, _, rfl⟩ := Option.map_eq_some_iff.mp h
        rintro members ⟨⟩
      · obtain ⟨values, hValues, rfl⟩ := Option.map_eq_some_iff.mp h
        obtain ⟨hKeys, hDistinct⟩ :=
          distinct_of_members (fun member hMem _ => ih member hMem) hValues
        exact distinct_table_iff.mpr ⟨hKeys ▸ Members.nodup_keys hRising, hDistinct⟩

end Written

namespace Node

/-- The same for a part of a document that is being built. -/
inductive Sorted : Node → Prop where
  | value {content : Written} (h : content.Sorted) : Sorted (.value content)
  | table {origin : Origin} {members : List (Text × Node)}
      (hRising : members.Pairwise fun a b => a.1 < b.1) (h : ∀ member ∈ members, Sorted member.2) :
      Sorted (.table origin members)
  | tables {items : List Node} (h : ∀ item ∈ items, Sorted item) : Sorted (.tables items)

variable {node changed : Node} {origin other : Origin} {members : List (Text × Node)} {key : Text}

theorem sorted_of_no_member : (table origin []).Sorted := .table .nil (by simp)

/-- A member is put where it belongs. -/
theorem sorted_put (h : (table origin members).Sorted) (hNode : node.Sorted) :
    (table other (Members.put key node members)).Sorted := by
  cases h with
  | table hRising hMembers =>
      refine .table (Members.put_ordered key node hRising) ?_
      intro member hMem
      rcases Members.mem_put hMem with rfl | hBefore
      · exact hNode
      · exact hMembers member hBefore

theorem sorted_of_lookup (h : (table origin members).Sorted)
    (hNode : members.lookup key = some node) : node.Sorted := by
  cases h with
  | table _ hMembers =>
      obtain ⟨before, after, rfl, _⟩ := List.lookup_eq_some_iff.mp hNode
      exact hMembers (key, node) (by simp)

theorem sorted_origin (h : (table origin members).Sorted) : (table other members).Sorted := by
  cases h with
  | table hRising hMembers => exact .table hRising hMembers

/-- Whatever becomes of the member, the table is in order with it. -/
theorem sorted_of_put_back {next : Option Node} (h : (table origin members).Sorted)
    (hNext : ∀ found, next = some found → found.Sorted)
    (hChanged : (next.bind fun found => some (table origin (Members.put key found members))) =
      some changed) : changed.Sorted := by
  obtain ⟨found, hFound, hTable⟩ := Option.bind_eq_some_iff.mp hChanged
  cases hTable
  exact sorted_put h (hNext found hFound)

/-- A change that leaves the tables in order. -/
def Orderly (change : Node → Option Node) : Prop :=
  ∀ node changed, node.Sorted → change node = some changed → changed.Sorted

theorem descend_orderly {change : Node → Option Node} (hChange : Orderly change) (isDotted : Bool)
    (path : List Text) : Orderly (descend isDotted change path) := by
  induction path with
  | nil => exact hChange
  | cons key rest ih =>
      intro node changed hNode h
      cases node with
      | value content => cases h
      | tables items => cases h
      | table origin members =>
          rw [descend] at h
          cases hLookup : members.lookup key with
          | none =>
              rw [hLookup] at h
              exact sorted_of_put_back hNode (ih _ · sorted_of_no_member) h
          | some found =>
              have hFound := sorted_of_lookup hNode hLookup
              rw [hLookup] at h
              cases found with
              | value content => cases h
              | table origin inner =>
                  cases hClosed : isDotted && origin = .header with
                  | true =>
                      simp only [hClosed] at h
                      cases h
                  | false =>
                      simp only [hClosed] at h
                      exact sorted_of_put_back hNode (ih _ · (sorted_origin hFound)) h
              | tables items =>
                  cases hFound with
                  | tables hItems =>
                      cases items with
                      | nil => cases h
                      | cons latest earlier =>
                          rw [List.forall_mem_cons] at hItems
                          refine sorted_of_put_back hNode ?_ h
                          intro found hChanged
                          obtain ⟨last, hLast, rfl⟩ := Option.map_eq_some_iff.mp hChanged
                          refine .tables (List.forall_mem_cons.mpr ⟨?_, hItems.2⟩)
                          exact ih _ _ hItems.1 hLast

theorem assign_orderly {content : Written} (hContent : content.Sorted) (path : List Text)
    (key : Text) : Orderly (assign path key content) := by
  refine descend_orderly ?_ true path
  intro node changed hNode h
  cases node with
  | value content => cases h
  | tables items => cases h
  | table origin members =>
      rw [assignHere] at h
      split at h
      · cases h
      · cases h
        exact sorted_put hNode (.value hContent)

theorem openTable_orderly (key : Text) : Orderly (openTable key) := by
  intro node changed hNode h
  cases node with
  | value content => cases h
  | tables items => cases h
  | table origin members =>
      rw [openTable] at h
      split at h
      · cases h
        exact sorted_put hNode sorted_of_no_member
      · rename_i hLookup
        cases h
        exact sorted_put hNode (sorted_origin (sorted_of_lookup hNode hLookup))
      · cases h

theorem openItem_orderly (key : Text) : Orderly (openItem key) := by
  intro node changed hNode h
  cases node with
  | value content => cases h
  | tables items => cases h
  | table origin members =>
      rw [openItem] at h
      split at h
      · cases h
        refine sorted_put hNode (.tables ?_)
        exact List.forall_mem_singleton.mpr sorted_of_no_member
      · rename_i items hLookup
        cases h
        have hFound := sorted_of_lookup hNode hLookup
        cases hFound with
        | tables hItems =>
            refine sorted_put hNode (.tables (List.forall_mem_cons.mpr ⟨?_, hItems⟩))
            exact sorted_of_no_member
      · cases h

theorem finishMembers_eq (members : List (Text × Node)) :
    finishMembers members = members.map fun member => (member.1, member.2.finish) := by
  induction members with
  | nil => rfl
  | cons member rest ih => rw [finishMembers, ih, List.map_cons]

theorem finishItems_eq (items : List Node) : finishItems items = items.map finish := by
  induction items with
  | nil => rfl
  | cons item rest ih => rw [finishItems, ih, List.map_cons]

/-- What a node ends as is in order with it. -/
theorem Sorted.finish (h : node.Sorted) : node.finish.Sorted := by
  induction h with
  | value hContent => exact hContent
  | @table origin members hRising _ ih =>
      rw [Node.finish, finishMembers_eq]
      refine .table (List.pairwise_map.mpr hRising) ?_
      exact List.forall_mem_map.mpr ih
  | @tables items _ ih =>
      rw [Node.finish, finishItems_eq]
      refine .list fun written hMem => ?_
      obtain ⟨item, hItem, rfl⟩ := List.mem_map.mp (List.mem_reverse.mp hMem)
      exact ih item hItem

end Node

/-- A statement whose value is in order. -/
def Statement.Sorted : Statement → Prop
  | .assign _ _ content => content.Sorted
  | .openTable _ _ => True
  | .openItem _ _ => True

theorem Draft.sorted_add {draft next : Draft} {statement : Statement} (h : draft.root.Sorted)
    (hStatement : statement.Sorted) (hNext : draft.add statement = some next) :
    next.root.Sorted := by
  cases statement with
  | assign path key content =>
      obtain ⟨root, hRoot, hDraft⟩ := Option.bind_eq_some_iff.mp hNext
      cases hDraft
      have hAssign := Node.assign_orderly hStatement path key
      exact Node.descend_orderly hAssign false draft.place _ _ h hRoot
  | openTable path key =>
      obtain ⟨root, hRoot, hDraft⟩ := Option.bind_eq_some_iff.mp hNext
      cases hDraft
      exact Node.descend_orderly (Node.openTable_orderly key) false path _ _ h hRoot
  | openItem path key =>
      obtain ⟨root, hRoot, hDraft⟩ := Option.bind_eq_some_iff.mp hNext
      cases hDraft
      exact Node.descend_orderly (Node.openItem_orderly key) false path _ _ h hRoot

end Placeholder.Toml

namespace Placeholder.TomlFile

open Toml

variable {text rest : Text} {written : Written}

/-! ### Words -/

theorem isScalar_of_real {negative : Bool} (h : Scalar.real? negative text = some written) :
    written.IsScalar := by
  obtain ⟨front, _, h⟩ := Option.bind_eq_some_iff.mp h
  obtain ⟨whole, _, h⟩ := Option.bind_eq_some_iff.mp h
  obtain ⟨digits, _, h⟩ := Option.bind_eq_some_iff.mp h
  cases h
  split <;> trivial

theorem isScalar_of_unsigned {negative : Bool} (h : Scalar.unsigned? negative text = some written) :
    written.IsScalar := by
  rw [Scalar.unsigned?] at h
  split at h
  · cases h
    trivial
  · split at h
    · cases h
      trivial
    · split at h
      · cases h
        trivial
      · exact isScalar_of_real h

theorem isScalar_of_number (h : Scalar.number? text = some written) : written.IsScalar := by
  have hWhole (found : Option Int) (hFound : found.map Written.integer = some written) :
      written.IsScalar := by
    obtain ⟨n, _, rfl⟩ := Option.map_eq_some_iff.mp hFound
    trivial
  rw [Scalar.number?.eq_def] at h
  split at h
  · exact hWhole _ h
  · exact hWhole _ h
  · exact hWhole _ h
  · exact isScalar_of_unsigned h
  · exact isScalar_of_unsigned h
  · exact isScalar_of_unsigned h

theorem isScalar_of_word? (h : Scalar.word? text = some written) : written.IsScalar := by
  rw [Scalar.word?] at h
  split at h
  · cases h
    trivial
  · split at h
    · cases h
      trivial
    · split at h
      · cases h
        trivial
      · exact isScalar_of_number h

theorem isScalar_of_word (h : Scalar.word text = some (written, rest)) : written.IsScalar := by
  rw [Scalar.word] at h
  simp only at h
  split at h
  · obtain ⟨found, hFound, hPair⟩ := Option.map_eq_some_iff.mp h
    cases hPair
    exact isScalar_of_word? hFound
  · obtain ⟨found, hFound, hPair⟩ := Option.map_eq_some_iff.mp h
    cases hPair
    exact isScalar_of_word? hFound

/-! ### Values -/

/-- With `n` steps everything is read in order. -/
structure ReadsSorted (n : Nat) : Prop where
  value (depth : Nat) (text : Text) (written : Written) (rest : Text) :
    value n depth text = some (written, rest) → written.Sorted
  items (depth : Nat) (seen : List Written) (text : Text) (all : List Written) (rest : Text) :
    (∀ item ∈ seen, item.Sorted) → items n depth seen text = some (all, rest) →
      ∀ item ∈ all, item.Sorted
  members (depth : Nat) (table : Node) (text : Text) (found : Node) (rest : Text) :
    table.Sorted → members n depth table text = some (found, rest) → found.Sorted

theorem ReadsSorted.value_succ {n depth : Nat} (hReads : ReadsSorted n)
    (h : TomlFile.value (n + 1) depth text = some (written, rest)) : written.Sorted := by
  have hText (found : Option (Text × Text))
      (hFound : found.map (fun pair => (Written.text pair.1, pair.2)) = some (written, rest)) :
      written.Sorted := by
    obtain ⟨pair, _, hPair⟩ := Option.map_eq_some_iff.mp hFound
    cases hPair
    exact .scalar trivial
  rw [TomlFile.value.eq_def] at h
  simp only at h
  split at h
  · exact hText _ h
  · exact hText _ h
  · exact hText _ h
  · exact hText _ h
  · cases depth with
    | zero => cases h
    | succ depth =>
        obtain ⟨⟨all, later⟩, hAll, hPair⟩ := Option.map_eq_some_iff.mp h
        cases hPair
        exact .list (hReads.items _ _ _ _ _ (by simp) hAll)
  · cases depth with
    | zero => cases h
    | succ depth =>
        obtain ⟨⟨table, later⟩, hTable, hPair⟩ := Option.map_eq_some_iff.mp h
        cases hPair
        exact (hReads.members _ _ _ _ _ Node.sorted_of_no_member hTable).finish
  · exact .scalar (isScalar_of_word h)

theorem ReadsSorted.items_succ {n depth : Nat} (hReads : ReadsSorted n) {seen all : List Written}
    (hSeen : ∀ item ∈ seen, item.Sorted)
    (h : TomlFile.items (n + 1) depth seen text = some (all, rest)) : ∀ item ∈ all, item.Sorted := by
  rw [TomlFile.items.eq_def] at h
  simp only at h
  split at h
  · cases h
  · cases h
    simpa using hSeen
  · split at h
    · cases h
    · rename_i item later hItem
      have hMore : ∀ other ∈ item :: seen, other.Sorted :=
        List.forall_mem_cons.mpr ⟨hReads.value _ _ _ _ hItem, hSeen⟩
      split at h
      · exact hReads.items _ _ _ _ _ hMore h
      · cases h
        intro other hMem
        exact hMore other (List.mem_reverse.mp hMem)
      · cases h

theorem ReadsSorted.members_succ {n depth : Nat} (hReads : ReadsSorted n) {table found : Node}
    (hTable : table.Sorted)
    (h : TomlFile.members (n + 1) depth table text = some (found, rest)) : found.Sorted := by
  rw [TomlFile.members.eq_def] at h
  simp only at h
  split at h
  · cases h
  · cases h
    exact hTable
  · split at h
    · cases h
    · split at h
      · cases h
      · rename_i content later hContent
        have hChanged := Node.assign_orderly (hReads.value _ _ _ _ hContent)
        split at h
        · rename_i changed _ hAssign _
          exact hReads.members _ _ _ _ _ (hChanged _ _ _ _ hTable hAssign) h
        · rename_i changed _ hAssign _
          cases h
          exact hChanged _ _ _ _ hTable hAssign
        · cases h

theorem readsSorted (n : Nat) : ReadsSorted n := by
  induction n with
  | zero =>
      constructor
      case value =>
        intro depth text written rest h
        cases h
      case items =>
        intro depth seen text all rest _ h
        cases h
      case members =>
        intro depth table text found rest _ h
        cases h
  | succ n ih =>
      constructor
      case value => exact fun _ _ _ _ => ih.value_succ
      case items => exact fun _ _ _ _ _ => ih.items_succ
      case members => exact fun _ _ _ _ _ => ih.members_succ

/-! ### Documents -/

theorem sorted_of_statement {found : Statement} (h : statement text = some (found, rest)) :
    found.Sorted := by
  rw [statement.eq_def] at h
  split at h
  · obtain ⟨parts, _, hPair⟩ := Option.map_eq_some_iff.mp h
    cases hPair
    trivial
  · obtain ⟨parts, _, hPair⟩ := Option.map_eq_some_iff.mp h
    cases hPair
    trivial
  · obtain ⟨⟨path, name, behind⟩, _, h⟩ := Option.bind_eq_some_iff.mp h
    simp only at h
    split at h
    · obtain ⟨⟨content, later⟩, hContent, h⟩ := Option.bind_eq_some_iff.mp h
      obtain ⟨last, _, hPair⟩ := Option.bind_eq_some_iff.mp h
      cases hPair
      exact (readsSorted _).value _ _ _ _ hContent
    · cases h

theorem sorted_of_statements {n : Nat} {draft final : Draft} (hDraft : draft.root.Sorted)
    (h : statements n draft text = some final) : final.root.Sorted := by
  induction n generalizing draft text with
  | zero => cases h
  | succ n ih =>
      rw [statements] at h
      split at h
      · cases h
      · cases h
        exact hDraft
      · split at h
        · cases h
        · rename_i hStatement
          obtain ⟨next, hNext, hLater⟩ := Option.bind_eq_some_iff.mp h
          exact ih (Draft.sorted_add hDraft (sorted_of_statement hStatement) hNext) hLater

/-- What a TOML text writes has the members of every table in rising order. -/
theorem sorted_of_read (h : read? text = some written) : written.Sorted := by
  obtain ⟨draft, hDraft, rfl⟩ := Option.map_eq_some_iff.mp h
  exact (sorted_of_statements Node.sorted_of_no_member hDraft).finish

/-- So the value that it stands for has each key once. -/
theorem distinct_of_read {value : Toml} (h : (read? text).bind Written.toToml? = some value) :
    value.Distinct := by
  obtain ⟨written, hWritten, hValue⟩ := Option.bind_eq_some_iff.mp h
  exact (sorted_of_read hWritten).distinct hValue

end Placeholder.TomlFile

namespace Placeholder.Model

/-- A model that has been read from TOML keeps the value that its text writes. -/
theorem parse_toml_keeps {path content : Text} {document : Document}
    (h : parse path content .toml = .ok document) :
    ∃ value, (TomlFile.read? content).bind Toml.Written.toToml? = some value ∧
      value.Keeps document := by
  rw [parse] at h
  cases hValue : (TomlFile.read? content).bind Toml.Written.toToml? with
  | none =>
      rw [hValue] at h
      cases h
  | some value =>
      rw [hValue] at h
      have hConverted : value.toDocument = .ok document := Toml.ofToml_eq_ok_iff.mp h
      exact ⟨value, rfl, Toml.Becomes.keeps ⟨TomlFile.distinct_of_read hValue, hConverted⟩⟩

end Placeholder.Model
