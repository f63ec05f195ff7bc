import Placeholder.Model
import Placeholder.Proofs.Results
import Placeholder.Proofs.Table.Lookup
/-!
A TOML value and the document it becomes. A path is walked in both at once: each step leads to a
value inside and to the document that this value becomes, or nowhere in both. What is refused is a real
number that is not finite, and it is refused however deep inside it stands.
-/
namespace Placeholder.Toml

/-- Induction over values, where the values inside a list or a table come first. -/
@[elab_as_elim, induction_eliminator]
theorem induction {motive : Toml → Prop}
    (text : ∀ value, motive (.text value))
    (integer : ∀ value, motive (.integer value))
    (real : ∀ value, motive (.real value))
    (boolean : ∀ value, motive (.boolean value))
    (moment : ∀ value, motive (.moment value))
    (list : ∀ items, (∀ item ∈ items, motive item) → motive (.list items))
    (table : ∀ members, (∀ member ∈ members, motive member.2) → motive (.table members)) :
    ∀ value, motive value
  | .text value => text value
  | .integer value => integer value
  | .real value => real value
  | .boolean value => boolean value
  | .moment value => moment value
  | .list items => list items fun item _ =>
      induction text integer real boolean moment list table item
  | .table members => table members fun member _ =>
      induction text integer real boolean moment list table member.2
termination_by value => sizeOf value
decreasing_by
  · rename_i hMem
    have hItem := List.sizeOf_lt_of_mem hMem
    rw [Toml.list.sizeOf_spec]
    omega
  · rename_i hMem
    have hMember := List.sizeOf_lt_of_mem hMem
    have hValue : sizeOf member = 1 + sizeOf member.1 + sizeOf member.2 := rfl
    rw [Toml.table.sizeOf_spec]
    omega

/-- A value is inside another at any depth: as the value itself, or inside an item or a member. -/
inductive Inside (inner : Toml) : Toml → Prop where
  | here : Inside inner inner
  | item {items : List Toml} {item : Toml} (hMem : item ∈ items) (h : Inside inner item) :
      Inside inner (.list items)
  | member {members : List (Text × Toml)} {member : Text × Toml} (hMem : member ∈ members)
      (h : Inside inner member.2) : Inside inner (.table members)

/-- Every table inside the value has each key once. -/
def Distinct (value : Toml) : Prop :=
  ∀ members, Inside (.table members) value → (members.map Prod.fst).Nodup

variable {value inner : Toml} {items : List Toml} {members : List (Text × Toml)}
  {document : Document} {documents : List Document} {number : Binary64}

theorem distinct_list_iff : (list items).Distinct ↔ ∀ item ∈ items, item.Distinct := by
  constructor
  · intro h item hMem members hInside
    exact h members (.item hMem hInside)
  · rintro h members (_ | ⟨hMem, hInside⟩)
    exact h _ hMem members hInside

theorem distinct_table_iff : (table members).Distinct ↔
    (members.map Prod.fst).Nodup ∧ ∀ member ∈ members, member.2.Distinct := by
  constructor
  · intro h
    refine ⟨h members .here, ?_⟩
    intro member hMem inner hInside
    exact h inner (.member hMem hInside)
  · rintro ⟨hKeys, hMembers⟩ inner (_ | _ | ⟨hMem, hInside⟩)
    · exact hKeys
    · exact hMembers _ hMem inner hInside

/-! ### What is refused -/

theorem itemsToDocuments_eq (items : List Toml) : itemsToDocuments items = items.mapM toDocument := by
  induction items with
  | nil => rw [itemsToDocuments, List.mapM_nil]; rfl
  | cons item rest ih => rw [itemsToDocuments, List.mapM_cons, ih]

/-- A member with its value as a document. -/
def memberToDocument (member : Text × Toml) : Except Binary64 (Text × Document) :=
  member.2.toDocument.map (Prod.mk member.1)

theorem membersToDocuments_eq (members : List (Text × Toml)) :
    membersToDocuments members = members.mapM memberToDocument := by
  induction members with
  | nil => rw [membersToDocuments, List.mapM_nil]; rfl
  | cons member rest ih =>
      rw [membersToDocuments, List.mapM_cons, ih, memberToDocument]
      cases member.2.toDocument <;> rfl

theorem toDocument_list (items : List Toml) :
    (list items).toDocument = (items.mapM toDocument).map .list := by
  rw [toDocument, itemsToDocuments_eq]

theorem toDocument_table (members : List (Text × Toml)) :
    (table members).toDocument = (members.mapM memberToDocument).map .ofMembers := by
  rw [toDocument, membersToDocuments_eq]

theorem memberToDocument_eq_ok_iff {member : Text × Toml} {found : Text × Document} :
    memberToDocument member = .ok found ↔
      found.1 = member.1 ∧ member.2.toDocument = .ok found.2 := by
  obtain ⟨key, document⟩ := found
  rw [memberToDocument]
  cases member.2.toDocument with
  | error number => simp [Except.map]
  | ok other => simp [Except.map, eq_comm]

/-- A refusal names a real number inside that is not finite. -/
theorem inside_of_refused (h : value.toDocument = .error number) :
    Inside (.real number) value ∧ number.isFinite = false := by
  induction value with
  | text value => cases h
  | integer value => cases h
  | real value =>
      rw [toDocument] at h
      cases hFinite : value.isFinite with
      | true => simp [hFinite] at h
      | false =>
          rw [hFinite] at h
          cases h
          exact ⟨.here, hFinite⟩
  | boolean value => cases h
  | moment value => cases h
  | list items ih =>
      rw [toDocument_list] at h
      obtain ⟨before, item, after, rfl, _, hItem⟩ :=
        mapM_eq_error_iff_first.mp (eq_error_of_map h)
      have hMem : item ∈ before ++ item :: after := List.mem_append_cons_self
      obtain ⟨hInside, hNumber⟩ := ih item hMem hItem
      exact ⟨.item hMem hInside, hNumber⟩
  | table members ih =>
      rw [toDocument_table] at h
      obtain ⟨before, member, after, rfl, _, hMember⟩ :=
        mapM_eq_error_iff_first.mp (eq_error_of_map h)
      have hMem : member ∈ before ++ member :: after := List.mem_append_cons_self
      obtain ⟨hInside, hNumber⟩ := ih member hMem (eq_error_of_map hMember)
      exact ⟨.member hMem hInside, hNumber⟩

theorem toDocument_real_eq_ok_iff : (real number).toDocument = .ok document ↔
    number.isFinite = true ∧ document = .number (.real number) := by
  rw [toDocument]
  cases number.isFinite <;> simp [eq_comm]

/-- What is inside a value that becomes a document becomes one too. -/
theorem Inside.converts (hInside : Inside inner value) (h : value.toDocument = .ok document) :
    ∃ found, inner.toDocument = .ok found := by
  induction hInside generalizing document with
  | here => exact ⟨document, h⟩
  | @item items item hMem _ ih =>
      rw [toDocument_list] at h
      obtain ⟨documents, hItems, _⟩ := exists_of_map_eq_ok h
      obtain ⟨found, hFound⟩ := exists_result_of_mem hItems hMem
      exact ih hFound
  | @member members member hMem _ ih =>
      rw [toDocument_table] at h
      obtain ⟨found, hMembers, _⟩ := exists_of_map_eq_ok h
      obtain ⟨own, hOwn⟩ := exists_result_of_mem hMembers hMem
      exact ih (memberToDocument_eq_ok_iff.mp hOwn).2

theorem refused_iff : (∃ number, value.toDocument = .error number) ↔
    ∃ number, Inside (.real number) value ∧ number.isFinite = false := by
  constructor
  · rintro ⟨number, h⟩
    exact ⟨number, inside_of_refused h⟩
  · rintro ⟨number, hInside, hNumber⟩
    cases hValue : value.toDocument with
    | error refused => exact ⟨refused, rfl⟩
    | ok document =>
        obtain ⟨found, hFound⟩ := hInside.converts hValue
        rw [(toDocument_real_eq_ok_iff.mp hFound).1] at hNumber
        cases hNumber

theorem ofToml_eq_ok_iff {path : Text} :
    Model.ofToml path value = .ok document ↔ value.toDocument = .ok document := by
  rw [Model.ofToml]
  cases value.toDocument <;> simp [Except.mapError]

/-! ### What a path leads to -/

/-- What a path leads to: a table is asked for a key, a list for a place. -/
def walk : Toml → List Text → Option Toml
  | value, [] => some value
  | value, segment :: rest =>
    match value with
    | table members => (members.lookup segment).bind fun next => walk next rest
    | list items =>
      ((Document.place? segment).bind fun place => items[place]?).bind fun next => walk next rest
    | _ => none

/-- The text of a value. A list and a table are written as the documents that they become. -/
def value? : Toml → Option Text
  | text value => some value
  | moment value => some value.write
  | integer value => some (toString value).toList
  | real value => some (Number.layout.write value)
  | boolean true => some "true".toList
  | boolean false => some "false".toList
  | list items => (list items).toDocument.toOption.map Document.write
  | table members => (table members).toDocument.toOption.map Document.write

def get? (value : Toml) (path : Text) : Option Text :=
  (value.walk (path.cutAt '.')).bind value?

/-- A value with each key once, and the document that it becomes. -/
structure Becomes (value : Toml) (document : Document) : Prop where
  distinct : value.Distinct
  converted : value.toDocument = .ok document

/-- A member, and the member that it becomes. -/
structure MemberBecomes (member : Text × Toml) (found : Text × Document) : Prop where
  key : found.1 = member.1
  value : member.2.Becomes found.2

theorem Becomes.ofList (h : (list items).Becomes document) :
    ∃ documents, document = .list documents ∧ List.Forall₂ Becomes items documents := by
  have hConverted := h.converted
  rw [toDocument_list] at hConverted
  obtain ⟨documents, hItems, rfl⟩ := exists_of_map_eq_ok hConverted
  refine ⟨documents, rfl, ?_⟩
  have hEach := (List.forall₂_and_left _ _).mpr
    ⟨distinct_list_iff.mp h.distinct, mapM_eq_ok_iff_forall₂.mp hItems⟩
  exact hEach.imp fun item found hItem => ⟨hItem.1, hItem.2⟩

theorem Becomes.ofTable (h : (table members).Becomes document) :
    ∃ found, document = .ofMembers found ∧ List.Forall₂ MemberBecomes members found := by
  have hConverted := h.converted
  rw [toDocument_table] at hConverted
  obtain ⟨found, hMembers, rfl⟩ := exists_of_map_eq_ok hConverted
  refine ⟨found, rfl, ?_⟩
  have hEach := (List.forall₂_and_left _ _).mpr
    ⟨(distinct_table_iff.mp h.distinct).2, mapM_eq_ok_iff_forall₂.mp hMembers⟩
  refine hEach.imp fun member own hMember => ?_
  obtain ⟨hKey, hValue⟩ := memberToDocument_eq_ok_iff.mp hMember.2
  exact ⟨hKey, hMember.1, hValue⟩

theorem keys_eq {found : List (Text × Document)} (h : List.Forall₂ MemberBecomes members found) :
    found.map Prod.fst = members.map Prod.fst := by
  induction h with
  | nil => rfl
  | cons hMember _ ih => rw [List.map_cons, List.map_cons, hMember.key, ih]

/-- No member is lost and none is merged with another: the object has what the members become, in the
order of the keys. -/
theorem ofList_perm_of_becomes {found : List (Text × Document)}
    (hKeys : (members.map Prod.fst).Nodup) (h : List.Forall₂ MemberBecomes members found) :
    (Members.ofList found).Perm found :=
  Members.ofList_perm (keys_eq h ▸ hKeys)

theorem lookup_becomes {found : List (Text × Document)}
    (h : List.Forall₂ MemberBecomes members found) (key : Text) :
    Option.Rel Becomes (members.lookup key) (found.lookup key) := by
  induction h with
  | nil => exact .none
  | @cons member own rest others hMember _ ih =>
      rw [Members.lookup_cons, Members.lookup_cons, hMember.key]
      by_cases hKey : key = member.1
      · rw [if_pos hKey, if_pos hKey]
        exact .some hMember.value
      · rw [if_neg hKey, if_neg hKey]
        exact ih

theorem getElem?_becomes (h : List.Forall₂ Becomes items documents) (place : Nat) :
    Option.Rel Becomes items[place]? documents[place]? := by
  induction h generalizing place with
  | nil => exact .none
  | cons hItem _ ih =>
      cases place with
      | zero => exact .some hItem
      | succ place => exact ih place

theorem rel_bind {α β γ δ : Type} {R : α → β → Prop} {S : γ → δ → Prop} {first : Option α}
    {second : Option β} {f : α → Option γ} {g : β → Option δ} (h : Option.Rel R first second)
    (hNext : ∀ x y, R x y → Option.Rel S (f x) (g y)) :
    Option.Rel S (first.bind f) (second.bind g) := by
  cases h with
  | none => exact .none
  | some hBoth => exact hNext _ _ hBoth

theorem exists_of_rel {α β : Type} {R : α → β → Prop} {first : Option α} {second : Option β} {x : α}
    (h : Option.Rel R first second) (hFirst : first = some x) : ∃ y, second = some y ∧ R x y := by
  subst hFirst
  cases h with
  | some hBoth => exact ⟨_, rfl, hBoth⟩

/-- A path leads to a value inside and to the document that it becomes, or nowhere in both. -/
theorem Becomes.walk (h : value.Becomes document) (segments : List Text) :
    Option.Rel Becomes (value.walk segments) (document.walk segments) := by
  induction segments generalizing value document with
  | nil => exact .some h
  | cons segment rest ih =>
      cases value with
      | text _ | integer _ | boolean _ | moment _ =>
          cases h.converted
          exact .none
      | real number =>
          obtain ⟨_, rfl⟩ := toDocument_real_eq_ok_iff.mp h.converted
          exact .none
      | list items =>
          obtain ⟨documents, rfl, hItems⟩ := h.ofList
          refine rel_bind ?_ fun _ _ hNext => ih hNext
          cases Document.place? segment with
          | none => exact .none
          | some place => exact getElem?_becomes hItems place
      | table members =>
          obtain ⟨found, rfl, hMembers⟩ := h.ofTable
          have hKeys : (members.map Prod.fst).Nodup := (distinct_table_iff.mp h.distinct).1
          have hSame : (Members.ofList found).lookup segment = found.lookup segment :=
            Members.lookup_of_perm (ofList_perm_of_becomes hKeys hMembers)
              (keys_eq hMembers ▸ hKeys) segment
          refine rel_bind ?_ fun _ _ hNext => ih hNext
          rw [hSame]
          exact lookup_becomes hMembers segment

theorem Becomes.value?_eq (h : value.Becomes document) : document.value? = value.value? := by
  have hConverted := h.converted
  cases value with
  | text _ | integer _ | moment _ =>
      cases hConverted
      rfl
  | boolean value =>
      cases hConverted
      cases value <;> rfl
  | real number =>
      obtain ⟨_, rfl⟩ := toDocument_real_eq_ok_iff.mp hConverted
      rfl
  | list items =>
      obtain ⟨documents, rfl, _⟩ := h.ofList
      rw [Toml.value?, hConverted]
      rfl
  | table members =>
      obtain ⟨found, rfl, _⟩ := h.ofTable
      rw [Toml.value?, hConverted]
      rfl

theorem Becomes.get?_eq (h : value.Becomes document) (path : Text) :
    document.get? path = value.get? path := by
  have hBoth := h.walk (path.cutAt '.')
  rw [Document.get?, Toml.get?]
  generalize value.walk (path.cutAt '.') = reached, document.walk (path.cutAt '.') = found at hBoth ⊢
  cases hBoth with
  | none => rfl
  | some hReached => exact hReached.value?_eq

/-- A document that answers what the value answers, and has the parts of the value and no others. -/
structure Keeps (value : Toml) (document : Document) : Prop where
  answers (path : Text) : document.get? path = value.get? path
  leads (segments : List Text) : Option.Rel Becomes (value.walk segments) (document.walk segments)
  /-- A list is still a list, with what its items become, in order. -/
  items (segments : List Text) (items : List Toml) : value.walk segments = some (.list items) →
    ∃ documents, document.walk segments = some (.list documents) ∧
      List.Forall₂ Becomes items documents
  /-- A table is an object, with what its members become, in the order of the keys. -/
  members (segments : List Text) (members : List (Text × Toml)) :
    value.walk segments = some (.table members) →
    ∃ objects found, document.walk segments = some (.object objects) ∧ objects.Perm found ∧
      List.Forall₂ MemberBecomes members found

theorem Becomes.keeps (h : value.Becomes document) : value.Keeps document where
  answers := h.get?_eq
  leads := h.walk
  items segments items hItems := by
    obtain ⟨found, hFound, hList⟩ := exists_of_rel (h.walk segments) hItems
    obtain ⟨documents, rfl, hEach⟩ := hList.ofList
    exact ⟨documents, hFound, hEach⟩
  members segments members hMembers := by
    obtain ⟨reached, hReached, hTable⟩ := exists_of_rel (h.walk segments) hMembers
    obtain ⟨found, rfl, hEach⟩ := hTable.ofTable
    have hKeys : (members.map Prod.fst).Nodup := (distinct_table_iff.mp hTable.distinct).1
    exact ⟨Members.ofList found, found, hReached, ofList_perm_of_becomes hKeys hEach, hEach⟩

/-- A value is refused exactly if there is a real number inside, at any depth, that is not finite; the
failure names the file and such a number. Any other value becomes a document that keeps it. -/
theorem ofToml_keeps (hDistinct : value.Distinct) (path : Text) :
    ((∃ failure, Model.ofToml path value = .error failure) ↔
      ∃ number, Inside (.real number) value ∧ number.isFinite = false) ∧
    (∀ failure, Model.ofToml path value = .error failure →
      ∃ number, Inside (.real number) value ∧ number.isFinite = false ∧
        failure = .unconvertibleNumber path number.nonFiniteName) ∧
    ((¬ ∃ number, Inside (.real number) value ∧ number.isFinite = false) →
      ∃ document, Model.ofToml path value = .ok document ∧ value.Keeps document) := by
  rw [← refused_iff]
  cases hValue : value.toDocument with
  | error number =>
      have hFailure : Model.ofToml path value =
          .error (.unconvertibleNumber path number.nonFiniteName) := by
        rw [Model.ofToml, hValue]
        rfl
      obtain ⟨hInside, hNumber⟩ := inside_of_refused hValue
      refine ⟨by simp [hFailure], ?_, by simp⟩
      intro failure hSame
      rw [hFailure] at hSame
      cases hSame
      exact ⟨number, hInside, hNumber, rfl⟩
  | ok document =>
      have hDocument : Model.ofToml path value = .ok document := ofToml_eq_ok_iff.mpr hValue
      refine ⟨by simp [hDocument], by simp [hDocument], fun _ => ?_⟩
      exact ⟨document, hDocument, Becomes.keeps ⟨hDistinct, hValue⟩⟩

/-- Tables in a list in a table, and a number that is not finite beside them. -/
theorem ofToml_keeps_nested :
    let server (port : Int) : Toml := .table [("port".toList, .integer port)]
    let servers : Toml := .table [("servers".toList, .list [server 80, server 81])]
    let refused : Toml := .list [servers, .real .nan]
    let path := "model.toml".toList
    servers.Distinct ∧ refused.Distinct ∧
    (∃ document, Model.ofToml path servers = .ok document ∧ servers.Keeps document ∧
      document.get? "servers.1.port".toList = some "81".toList ∧
      document.get? "servers.0".toList = some "\x7b\"port\":80\x7d".toList) ∧
    ∃ failure, Model.ofToml path refused = .error failure := by
  intro server servers refused path
  have hServer (port : Int) : (server port).Distinct := by
    refine distinct_table_iff.mpr ⟨by simp, ?_⟩
    rintro member (_ | ⟨_, ⟨⟩⟩) members ⟨⟩
  have hServers : servers.Distinct := by
    refine distinct_table_iff.mpr ⟨by decide, ?_⟩
    simp [distinct_list_iff, hServer]
  have hRefused : refused.Distinct := by
    refine distinct_list_iff.mpr ?_
    rintro item (_ | ⟨_, _ | ⟨_, ⟨⟩⟩⟩)
    · exact hServers
    · rintro members ⟨⟩
  obtain ⟨hFails, _, hKeeps⟩ := ofToml_keeps hServers path
  have hDocument : Model.ofToml path servers = .ok (.object [("servers".toList, .list
      [.object [("port".toList, .number (.whole 80))],
        .object [("port".toList, .number (.whole 81))]])]) := by
    rfl
  obtain ⟨document, hOk, hAnswers⟩ := hKeeps fun hNumber => by
    obtain ⟨failure, hFailure⟩ := hFails.mpr hNumber
    rw [hDocument] at hFailure
    cases hFailure
  refine ⟨hServers, hRefused, ⟨document, hOk, hAnswers, ?_, ?_⟩, ?_⟩
  · rw [hAnswers.answers]
    rfl
  · rw [hAnswers.answers]
    rfl
  · exact (ofToml_keeps hRefused path).1.mpr ⟨.nan, .item (by simp) .here, rfl⟩

end Placeholder.Toml
