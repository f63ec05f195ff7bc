import Placeholder.Proofs.Property.Resolving
/-!
Resolving a table twice. In tidy values, where dollar signs and braces stand in references only, an
expansion is tidy again and refers only to keys without a value. So the second time nothing is left
to do: what was expanded stays, and what was left as written gets into the same circle again, since the
values that were expanded in between lead to no circle.
-/
namespace Placeholder

/-- A text without a dollar sign and without braces. -/
def Unmarked (text : Text) : Prop :=
  '$' ∉ text ∧ '\x7b' ∉ text ∧ '\x7d' ∉ text

instance (text : Text) : Decidable (Unmarked text) :=
  inferInstanceAs (Decidable (_ ∧ _ ∧ _))

theorem Unmarked.nil : Unmarked [] := by
  simp [Unmarked]

theorem Unmarked.append {front text : Text} (hFront : Unmarked front) (hText : Unmarked text) :
    Unmarked (front ++ text) := by
  simp_all [Unmarked]

namespace PropertyPiece

/-- A literal text or a key without a dollar sign and without braces. -/
def IsTidy : PropertyPiece → Prop
  | literal text => Unmarked text
  | reference key => Unmarked key

instance : DecidablePred IsTidy
  | literal text => inferInstanceAs (Decidable (Unmarked text))
  | reference key => inferInstanceAs (Decidable (Unmarked key))

/-- A value that is written as tidy pieces. -/
def Tidy (value : Text) : Prop :=
  ∃ pieces : List PropertyPiece, (∀ piece ∈ pieces, piece.IsTidy) ∧
    value = pieces.flatMap (fill written)

/-- Pieces are put together to the value that they were read from. -/
theorem flatMap_ofValue (value : Text) : (ofValue value).flatMap (fill written) = value := by
  induction value using ofValue.induct with
  | case1 value hOpen =>
      rw [ofValue_eq, hOpen]
      exact List.append_nil value
  | case2 value before after hOpen hClose =>
      rw [ofValue_eq, hOpen]
      simp only [hClose, List.flatMap_cons, List.flatMap_nil, fill, List.append_nil]
      rw [← List.append_assoc, ← Text.eq_append_of_breakOn hOpen]
  | case3 value before after hOpen key rest hClose ih =>
      rw [ofValue_eq, hOpen]
      simp only [hClose, List.flatMap_cons, fill, ih]
      rw [Text.eq_append_of_breakOn hOpen, Text.eq_append_of_breakOn hClose]
      simp [written]

/-- Reading tidy pieces behind an unmarked text gives back their references, between unmarked texts. -/
theorem mem_ofValue_cases {pieces : List PropertyPiece} {front : Text} {piece : PropertyPiece}
    (hTidy : ∀ piece ∈ pieces, piece.IsTidy) (hFront : Unmarked front)
    (hMem : piece ∈ ofValue (front ++ pieces.flatMap (fill written))) :
    piece ∈ pieces ∨ ∃ text, Unmarked text ∧ piece = .literal text := by
  induction pieces generalizing front with
  | nil =>
      have hPlain : ¬ Text.occursIn opening front = true := fun hOccurs =>
        hFront.1 (((Text.occursIn_iff (List.cons_ne_nil _ _)).mp hOccurs).subset (by decide))
      rw [List.flatMap_nil, List.append_nil, ofValue_of_plain hPlain, List.mem_singleton] at hMem
      exact .inr ⟨front, hFront, hMem⟩
  | cons first rest ih =>
      obtain ⟨hFirst, hRest⟩ := List.forall_mem_cons.mp hTidy
      cases first with
      | literal text =>
          rw [List.flatMap_cons, fill, ← List.append_assoc] at hMem
          exact (ih hRest (hFront.append hFirst) hMem).imp_left (List.mem_cons_of_mem _)
      | reference key =>
          rw [List.flatMap_cons, fill, ofValue_append_written hFront.1 hFirst.2.2] at hMem
          rcases List.mem_cons.mp hMem with rfl | hMem
          · exact .inr ⟨front, hFront, rfl⟩
          · rcases List.mem_cons.mp hMem with rfl | hLater
            · exact .inl (List.mem_cons_self ..)
            · exact (ih hRest .nil hLater).imp_left (List.mem_cons_of_mem _)

/-- The references of a value written as tidy pieces are among these pieces. -/
theorem mem_of_mem_ofValue {pieces : List PropertyPiece} {key : Text}
    (hTidy : ∀ piece ∈ pieces, piece.IsTidy)
    (hMem : .reference key ∈ ofValue (pieces.flatMap (fill written))) :
    .reference key ∈ pieces := by
  rcases mem_ofValue_cases hTidy .nil hMem with hHere | ⟨text, _, hLiteral⟩
  · exact hHere
  · cases hLiteral

/-- The pieces of a tidy value are tidy. -/
theorem Tidy.of_mem {value : Text} {piece : PropertyPiece} (h : Tidy value)
    (hMem : piece ∈ ofValue value) : piece.IsTidy := by
  obtain ⟨pieces, hTidy, rfl⟩ := h
  rcases mem_ofValue_cases hTidy .nil hMem with hHere | ⟨text, hText, rfl⟩
  · exact hTidy piece hHere
  · exact hText

end PropertyPiece

namespace PropertyScope

variable {scope after : PropertyScope} {chain path : List Text} {pieces : List PropertyPiece}
  {key value text : Text}

/-- All values are tidy. -/
def Tidy (scope : PropertyScope) : Prop :=
  ∀ key value, scope.get? key = some value → PropertyPiece.Tidy value

/-- Nothing of the text can be expanded: its references are to keys without a value. -/
def Spent (scope : PropertyScope) (text : Text) : Prop :=
  ∀ key, .reference key ∈ PropertyPiece.ofValue text → scope.get? key = none

/-- The full expansion of tidy pieces is written as tidy pieces, with references to keys without a value
only. -/
theorem Expands.exists_pieces (h : scope.Expands pieces text) (hScope : scope.Tidy)
    (hTidy : ∀ piece ∈ pieces, piece.IsTidy) :
    ∃ left : List PropertyPiece, (∀ piece ∈ left, piece.IsTidy) ∧
      text = left.flatMap (PropertyPiece.fill PropertyPiece.written) ∧
      ∀ key, .reference key ∈ left → scope.get? key = none := by
  induction h with
  | nil => exact ⟨[], nofun, rfl, nofun⟩
  | @literal text later rest hLater ih =>
      obtain ⟨hFirst, hRest⟩ := List.forall_mem_cons.mp hTidy
      obtain ⟨left, hLeft, rfl, hSpent⟩ := ih hRest
      refine ⟨.literal text :: left, List.forall_mem_cons.mpr ⟨hFirst, hLeft⟩, rfl, ?_⟩
      exact fun key hMem => hSpent key ((List.mem_cons.mp hMem).resolve_left nofun)
  | @unknown unknown later rest hNone hLater ih =>
      obtain ⟨hFirst, hRest⟩ := List.forall_mem_cons.mp hTidy
      obtain ⟨left, hLeft, rfl, hSpent⟩ := ih hRest
      refine ⟨.reference unknown :: left, List.forall_mem_cons.mpr ⟨hFirst, hLeft⟩, rfl, ?_⟩
      intro key hMem
      rcases List.mem_cons.mp hMem with hSame | hMem
      · cases hSame
        exact hNone
      · exact hSpent key hMem
  | @known known value inner later rest hGet hInner hLater ihInner ih =>
      obtain ⟨_, hRest⟩ := List.forall_mem_cons.mp hTidy
      obtain ⟨within, hWithin, rfl, hSpentWithin⟩ :=
        ihInner fun piece hMem => (hScope known value hGet).of_mem hMem
      obtain ⟨left, hLeft, rfl, hSpent⟩ := ih hRest
      refine ⟨within ++ left, List.forall_mem_append.mpr ⟨hWithin, hLeft⟩,
        List.flatMap_append.symm, ?_⟩
      exact fun key hMem => (List.mem_append.mp hMem).elim (hSpentWithin key) (hSpent key)

/-- What a tidy value settles to cannot be expanded further. -/
theorem spent_of_settle (hScope : scope.Tidy) (hGet : scope.get? key = some value)
    (h : scope.settle key value = .ok text) : scope.Spent text := by
  rcases settle_cases hGet with ⟨settled, hSettled, hExpands, _⟩ | ⟨path, hPath, _, _⟩
  · cases h.symm.trans hSettled
    obtain ⟨left, hLeft, rfl, hNone⟩ :=
      hExpands.exists_pieces hScope fun piece hMem => (hScope key value hGet).of_mem hMem
    exact fun other hMem => hNone other (PropertyPiece.mem_of_mem_ofValue hLeft hMem)
  · cases h.symm.trans hPath

/-- Pieces that refer to no key with a value are left as they are written. -/
theorem expand_of_unknown (hNone : ∀ key, .reference key ∈ pieces → scope.get? key = none)
    (hChain : ∀ key ∈ chain, (scope.get? key).isSome) :
    scope.expand chain pieces =
      .ok (pieces.flatMap (PropertyPiece.fill PropertyPiece.written)) := by
  induction pieces with
  | nil => rw [expand, List.flatMap_nil]
  | cons piece rest ih =>
      have hRest := ih fun key hMem => hNone key (List.mem_cons_of_mem _ hMem)
      cases piece with
      | literal text =>
          rw [expand, hRest, List.flatMap_cons]
          rfl
      | reference key =>
          have hKey := hNone key (List.mem_cons_self ..)
          have hNew : ¬ chain.contains key = true := by
            intro hOn
            have hSome := hChain key (List.contains_iff_mem.mp hOn)
            rw [hKey] at hSome
            cases hSome
          rw [expand_of_none hNew hKey, hRest, List.flatMap_cons]
          rfl

theorem Spent.expand (h : scope.Spent text) (hChain : ∀ key ∈ chain, (scope.get? key).isSome) :
    scope.expand chain (PropertyPiece.ofValue text) = .ok text := by
  rw [expand_of_unknown h hChain, PropertyPiece.flatMap_ofValue]

/-- The same keys have values, and every value is the same or has been settled. -/
structure Settles (scope after : PropertyScope) : Prop where
  missing : ∀ key, scope.get? key = none → after.get? key = none
  present : ∀ key value, scope.get? key = some value → after.get? key = some value ∨
    ∃ text, scope.settle key value = .ok text ∧ after.get? key = some text

namespace Settles

theorem isSome (h : scope.Settles after) (hSome : (scope.get? key).isSome) :
    (after.get? key).isSome := by
  obtain ⟨value, hGet⟩ := Option.isSome_iff_exists.mp hSome
  rcases h.present key value hGet with hSame | ⟨text, _, hText⟩
  · rw [hSame, Option.isSome_some]
  · rw [hText, Option.isSome_some]

theorem spent (h : scope.Settles after) (hSpent : scope.Spent text) : after.Spent text :=
  fun key hMem => h.missing key (hSpent key hMem)

/-- An expansion comes to the same when values have been settled. Where it gives up, the values on the way
lead to a circle, so none of them has been settled. Where it does not, what a settled value is now is
what it was expanded to before. -/
theorem expand_eq (h : scope.Settles after) (hScope : scope.Tidy)
    (hUnderway : scope.Underway chain pieces) : after.expand chain pieces = scope.expand chain pieces := by
  induction chain, pieces using PropertyScope.expand.induct scope with
  | case1 chain => rw [expand, expand]
  | case2 chain front rest ih => rw [expand, expand, ih hUnderway.tail]
  | case3 chain key rest hCircle => rw [expand_of_circle hCircle, expand_of_circle hCircle]
  | case4 chain key rest hNew hNone ih =>
      rw [expand_of_none hNew hNone, expand_of_none hNew (h.missing key hNone), ih hUnderway.tail]
  | case5 chain key rest hNew value hGet hOpens path hPath ih =>
      have hInside := hUnderway.inside hNew hGet
      rw [expand_of_value hNew hGet, if_pos hOpens, hPath]
      rcases h.present key value hGet with hSame | ⟨text, hSettle, _⟩
      · rw [expand_of_value hNew hSame, if_pos hOpens, ih hInside, hPath]
      · have hCircular := (leadsBack_of_expand hInside hPath).last_circular
        rcases settle_cases hGet with ⟨_, _, _, hNot⟩ | ⟨path, hError, _, _⟩
        · exact absurd hCircular hNot
        · cases hSettle.symm.trans hError
  | case6 chain key rest hNew value hGet hOpens expanded hExpanded ihInner ih =>
      have hInside := hUnderway.inside hNew hGet
      rw [expand_of_value hNew hGet, if_pos hOpens, hExpanded]
      rcases h.present key value hGet with hSame | ⟨text, hSettle, hText⟩
      · rw [expand_of_value hNew hSame, if_pos hOpens, ihInner hInside, hExpanded, ih hUnderway.tail]
      · have hAlone : scope.settle key value = .ok expanded := by
          rw [settle, if_pos hOpens]
          exact expand_of_subset hExpanded (List.subset_append_right chain [key])
        obtain rfl : text = expanded := Except.ok.inj (hSettle.symm.trans hAlone)
        have hSpent := h.spent (spent_of_settle hScope hGet hSettle)
        have hChain : ∀ other ∈ chain ++ [key], (after.get? other).isSome := fun other hMem =>
          h.isSome (hInside.known other hMem)
        rw [expand_of_value hNew hText, hSpent.expand hChain, ih hUnderway.tail, ite_self]
  | case7 chain key rest hNew value hGet hPlain ih =>
      have hSame : after.get? key = some value := by
        rcases h.present key value hGet with hSame | ⟨text, hSettle, hText⟩
        · exact hSame
        · rw [settle, if_neg hPlain] at hSettle
          cases hSettle
          exact hText
      rw [expand_of_value hNew hGet, if_neg hPlain, expand_of_value hNew hSame, if_neg hPlain,
        ih hUnderway.tail]

/-- A value that was left as written is left so again, for the same path. -/
theorem settle_of_error (h : scope.Settles after) (hScope : scope.Tidy)
    (hGet : scope.get? key = some value) (hPath : scope.settle key value = .error path) :
    after.settle key value = .error path := by
  rw [settle] at hPath ⊢
  split at hPath
  · rename_i hOpens
    rw [if_pos hOpens, h.expand_eq hScope (Underway.start hGet), hPath]
  · cases hPath

/-- A value that was settled stays. -/
theorem settle_of_ok (h : scope.Settles after) (hScope : scope.Tidy)
    (hGet : scope.get? key = some value) (hText : scope.settle key value = .ok text) :
    after.settle key text = .ok text := by
  rw [settle]
  split
  · have hKey : (scope.get? key).isSome := by rw [hGet, Option.isSome_some]
    refine (h.spent (spent_of_settle hScope hGet hText)).expand fun other hMem => ?_
    rw [List.mem_singleton.mp hMem]
    exact h.isSome hKey
  · rfl

end Settles

end PropertyScope

/-- All values of a table are tidy. -/
def Table.Tidy (table : Table) : Prop :=
  ∀ entry ∈ table.entries, PropertyPiece.Tidy entry.2

namespace PropertyResolver

variable {r : PropertyResolver} {table : Table} {key value : Text}

theorem scope_tidy (hKnown : r.known.Tidy) (hFallback : r.fallback.Tidy) (hTable : table.Tidy) :
    (r.scope table).Tidy := by
  intro key value hGet
  rw [scope, PropertyScope.get?, Table.get?_overlay, Option.or_assoc] at hGet
  rcases Option.or_eq_some_iff.mp hGet with hGet | ⟨_, hGet⟩
  · exact hTable _ (Table.mem_entries_of_get? hGet)
  · rcases Option.or_eq_some_iff.mp hGet with hGet | ⟨_, hGet⟩
    · exact hKnown _ (Table.mem_entries_of_get? hGet)
    · exact hFallback _ (Table.mem_entries_of_get? hGet)

/-- Where the resolved table is resolved again, its values have taken the place of those that were
written. -/
theorem get?_scope_learn (r : PropertyResolver) (table : Table) (key : Text) :
    ((r.learn table).scope (r.resolved table)).get? key =
      ((r.resolved table).get? key).or ((r.scope table).get? key) := by
  simp only [scope, learn, PropertyScope.get?, Table.get?_overlay]
  cases hResolved : (r.resolved table).get? key with
  | some text => rfl
  | none =>
      have hNone : table.get? key = none := by
        rwa [resolved, Table.get?_mapValues, Option.map_eq_none_iff] at hResolved
      rw [hNone]
      rfl

theorem scope_settles (r : PropertyResolver) (table : Table) :
    (r.scope table).Settles ((r.learn table).scope (r.resolved table)) where
  missing key hNone := by
    have hTable : table.get? key = none := by
      cases hGet : table.get? key with
      | none => rfl
      | some value => cases hNone.symm.trans (get?_scope hGet)
    rw [get?_scope_learn, get?_resolved_of_none hTable, Option.none_or, hNone]
  present key value hValue := by
    rw [get?_scope_learn]
    cases hGet : table.get? key with
    | none => exact .inl (by rw [get?_resolved_of_none hGet, Option.none_or, hValue])
    | some written =>
        obtain rfl : value = written := Option.some.inj (hValue.symm.trans (get?_scope hGet))
        cases hSettle : (r.scope table).settle key value with
        | ok text =>
            exact .inr ⟨text, rfl, by rw [get?_resolved_of_ok hGet hSettle, Option.some_or]⟩
        | error path => exact .inl (by rw [get?_resolved_of_error hGet hSettle, Option.some_or])

/-- What resolving again says about one key. -/
theorem again (hScope : (r.scope table).Tidy) (key : Text) :
    ((r.learn table).resolved (r.resolved table)).get? key = (r.resolved table).get? key ∧
      (r.learn table).warning? (r.resolved table) key = r.warning? table key := by
  cases hGet : table.get? key with
  | none =>
      have hNone := get?_resolved_of_none (r := r) hGet
      exact ⟨by rw [get?_resolved_of_none hNone, hNone], by simp only [warning?, hNone, hGet, Option.bind_none]⟩
  | some value =>
      cases hSettle : (r.scope table).settle key value with
      | ok text =>
          have hText := get?_resolved_of_ok hGet hSettle
          have hAgain := (r.scope_settles table).settle_of_ok hScope (get?_scope hGet) hSettle
          refine ⟨by rw [get?_resolved_of_ok hText hAgain, hText], ?_⟩
          simp only [warning?, hText, hGet, Option.bind_some, hAgain, hSettle]
      | error path =>
          have hValue := get?_resolved_of_error hGet hSettle
          have hAgain := (r.scope_settles table).settle_of_error hScope (get?_scope hGet) hSettle
          refine ⟨by rw [get?_resolved_of_error hValue hAgain, hValue], ?_⟩
          simp only [warning?, hValue, hGet, Option.bind_some, hAgain, hSettle]

/-- Tidy tables need to be resolved once only. If the resolved table is resolved again, with what the
resolver has learned from it, the table and what is known afterwards are the same as before, and so are
the warnings with their paths. -/
theorem resolved_again (hKnown : r.known.Tidy) (hFallback : r.fallback.Tidy) (hTable : table.Tidy) :
    (r.learn table).resolved (r.resolved table) = r.resolved table ∧
      (r.learn table).learn (r.resolved table) = r.learn table ∧
      (r.learn table).warnings (r.resolved table) = r.warnings table := by
  have hAgain := again (scope_tidy hKnown hFallback hTable)
  have hSame : (r.learn table).resolved (r.resolved table) = r.resolved table :=
    Table.ext_get? fun key => (hAgain key).1
  refine ⟨hSame, ?_, ?_⟩
  · have hKnownAgain : (r.learn table).known.overlay (r.resolved table) = (r.learn table).known := by
      apply Table.ext_get?
      intro key
      rw [learn, Table.get?_overlay, Table.get?_overlay, ← Option.or_assoc, Option.or_self]
    rw [learn, hSame, hKnownAgain]
  · have hKeys : (r.resolved table).keys = table.keys := List.map_map
    rw [warnings_eq, warnings_eq, hKeys]
    exact List.filterMap_congr fun key _ => (hAgain key).2

/-- Two keys that refer to each other, and one that refers to a known key and to one without a value. -/
theorem resolved_again_circle :
    let r : PropertyResolver := ⟨.ofList [(['k'], ['v'])], .empty⟩
    let table : Table := .ofList [(['a'], PropertyPiece.written ['b']),
      (['b'], PropertyPiece.written ['a']),
      (['c'], PropertyPiece.written ['k'] ++ PropertyPiece.written ['m'])]
    r.known.Tidy ∧ r.fallback.Tidy ∧ table.Tidy ∧
      ⟨['a'], [['a'], ['b'], ['a']]⟩ ∈ r.warnings table ∧
      (r.resolved table).get? ['c'] = some (['v'] ++ PropertyPiece.written ['m']) ∧
      (r.learn table).resolved (r.resolved table) = r.resolved table ∧
      (r.learn table).learn (r.resolved table) = r.learn table ∧
      (r.learn table).warnings (r.resolved table) = r.warnings table := by
  intro r table
  have hReference (key : Text) (h : Unmarked key) : PropertyPiece.Tidy (PropertyPiece.written key) :=
    ⟨[.reference key], List.forall_mem_singleton.mpr h, (List.append_nil _).symm⟩
  have hKnown : r.known.Tidy :=
    List.forall_mem_singleton.mpr ⟨[.literal ['v']], List.forall_mem_singleton.mpr (by decide), rfl⟩
  have hTable : table.Tidy := by
    refine List.forall_mem_cons.mpr ⟨hReference ['b'] (by decide), List.forall_mem_cons.mpr
      ⟨hReference ['a'] (by decide), List.forall_mem_singleton.mpr
        ⟨[.reference ['k'], .reference ['m']], ?_, rfl⟩⟩⟩
    exact List.forall_mem_cons.mpr ⟨by decide, List.forall_mem_singleton.mpr (by decide)⟩
  have hCircle : (r.scope table).settle ['a'] (PropertyPiece.written ['b']) =
      .error [['a'], ['b'], ['a']] := by
    have hOpens (key : Text) :
        Text.occursIn PropertyPiece.opening (PropertyPiece.written key) = true := rfl
    have hGet : (r.scope table).get? ['b'] = some (PropertyPiece.written ['a']) := rfl
    have hNew : ¬ [['a']].contains ['b'] = true := by decide
    have hAgain : ([['a']] ++ [['b']]).contains ['a'] = true := by decide
    rw [PropertyScope.settle, if_pos (hOpens _), PropertyPiece.ofValue_written (by decide),
      PropertyScope.expand, PropertyScope.expand_of_value hNew hGet, if_pos (hOpens _),
      PropertyPiece.ofValue_written (by decide), PropertyScope.expand,
      PropertyScope.expand_of_circle hAgain]
    rfl
  have hSettled : (r.scope table).settle ['c']
      (PropertyPiece.written ['k'] ++ PropertyPiece.written ['m']) =
      .ok (['v'] ++ PropertyPiece.written ['m']) := by
    have hOpens : Text.occursIn PropertyPiece.opening
      (PropertyPiece.written ['k'] ++ PropertyPiece.written ['m']) = true := rfl
    have hPieces := PropertyPiece.ofValue_append_written (List.not_mem_nil (a := '$'))
      (show '\x7d' ∉ ['k'] by decide) (PropertyPiece.written ['m'])
    rw [List.nil_append, PropertyPiece.ofValue_written (by decide)] at hPieces
    have hGet : (r.scope table).get? ['k'] = some ['v'] := rfl
    have hPlain : ¬ Text.occursIn PropertyPiece.opening ['v'] = true := by decide
    have hNone : (r.scope table).get? ['m'] = none := rfl
    rw [PropertyScope.settle, if_pos hOpens, hPieces, PropertyScope.expand,
      PropertyScope.expand_of_value (by decide) hGet, if_neg hPlain, PropertyScope.expand,
      PropertyScope.expand_of_none (by decide) hNone, PropertyScope.expand, PropertyScope.expand]
    rfl
  have hFallback : r.fallback.Tidy := List.forall_mem_nil _
  exact ⟨hKnown, hFallback, hTable, (mem_warnings_iff rfl).mpr hCircle,
    get?_resolved_of_ok rfl hSettled, resolved_again hKnown hFallback hTable⟩

end PropertyResolver

end Placeholder
