import Placeholder.Proofs.Property.Agreement
import Placeholder.Proofs.Results
/-!
What references in values stand for. Where an expansion meets no circle, every reference has one text to
stand for, whatever the chain on which it is met: the value of its key, with its own references
expanded in turn.
-/
namespace Placeholder

/-- A piece, with its reference answered. -/
def PropertyPiece.fill (answer : Text → Text) : PropertyPiece → Text
  | literal text => text
  | reference key => answer key

/-- A value that opens no reference is one piece. -/
theorem PropertyPiece.ofValue_of_plain {value : Text}
    (h : ¬ Text.occursIn PropertyPiece.opening value = true) :
    PropertyPiece.ofValue value = [.literal value] := by
  have hNone : Text.breakOn PropertyPiece.opening value = none := by
    rwa [Text.occursIn, Bool.not_eq_true, Option.isSome_eq_false_iff, Option.isNone_iff_eq_none] at h
  rw [PropertyPiece.ofValue_eq, hNone]

/-- The first pieces of a value are what stands in front of the first reference, and this reference. -/
theorem PropertyPiece.ofValue_append_written {front key : Text} (hFront : '$' ∉ front)
    (hKey : '\x7d' ∉ key) (rest : Text) :
    PropertyPiece.ofValue (front ++ (PropertyPiece.written key ++ rest)) =
      .literal front :: .reference key :: PropertyPiece.ofValue rest := by
  have hOpen : Text.breakOn opening (front ++ (written key ++ rest)) =
      some (front, key ++ ['\x7d'] ++ rest) := by
    simpa [opening, written] using
      Text.breakOn_behind hFront ['\x7b'] (key ++ ['\x7d'] ++ rest)
  rw [ofValue_eq, hOpen]
  simp only [Text.breakOn_singleton hKey]

/-- The pieces of a reference. -/
theorem PropertyPiece.ofValue_written {key : Text} (h : '\x7d' ∉ key) :
    PropertyPiece.ofValue (PropertyPiece.written key) =
      [.literal [], .reference key, .literal []] := by
  have hPieces := ofValue_append_written (List.not_mem_nil (a := '$')) h []
  have hNil : ofValue [] = [.literal []] := ofValue_of_plain (by decide)
  rwa [List.append_nil, List.nil_append, hNil] at hPieces

namespace PropertyScope

/-- What a reference to a key stands for: the value with its own references expanded, or the reference
as it is written if there is no value. A value that leads back to the key stands for itself. -/
def full (scope : PropertyScope) (key : Text) : Text :=
  match scope.get? key with
  | none => PropertyPiece.written key
  | some value => (scope.settle key value).toOption.getD value

/-- From a value references lead to a key, one after the other. -/
inductive Leads (scope : PropertyScope) : Text → Text → Prop
  | here {value key : Text} (hMem : .reference key ∈ PropertyPiece.ofValue value) :
      Leads scope value key
  | through {value between inner key : Text} (hMem : .reference between ∈ PropertyPiece.ofValue value)
      (hGet : scope.get? between = some inner) (hLeads : Leads scope inner key) :
      Leads scope value key

variable {scope : PropertyScope} {chain : List Text} {pieces : List PropertyPiece}
  {key value text : Text}

theorem not_contains_of_subset {shorter : List Text} (hSubset : shorter ⊆ chain)
    (hNew : ¬ chain.contains key = true) : ¬ shorter.contains key = true := fun hOn =>
  hNew (List.contains_iff_mem.mpr (hSubset (List.contains_iff_mem.mp hOn)))

/-- With fewer keys on the chain, an expansion that met no circle gives the same. -/
theorem expand_of_subset {shorter : List Text} (h : scope.expand chain pieces = .ok text)
    (hSubset : shorter ⊆ chain) : scope.expand shorter pieces = .ok text := by
  induction chain, pieces using PropertyScope.expand.induct scope generalizing text shorter with
  | case1 chain =>
      rw [expand] at h ⊢
      exact h
  | case2 chain front rest ih =>
      rw [expand] at h ⊢
      obtain ⟨later, hLater, rfl⟩ := exists_of_map_eq_ok h
      rw [ih hLater hSubset]
      rfl
  | case3 chain key rest hCircle =>
      rw [expand_of_circle hCircle] at h
      cases h
  | case4 chain key rest hNew hNone ih =>
      have hShorter := not_contains_of_subset hSubset hNew
      rw [expand_of_none hNew hNone] at h
      obtain ⟨later, hLater, rfl⟩ := exists_of_map_eq_ok h
      rw [expand_of_none hShorter hNone, ih hLater hSubset]
      rfl
  | case5 chain key rest hNew value hGet hOpens path hPath =>
      rw [expand_of_value hNew hGet, if_pos hOpens, hPath] at h
      cases h
  | case6 chain key rest hNew value hGet hOpens expanded hExpanded ihInner ih =>
      have hShorter := not_contains_of_subset hSubset hNew
      rw [expand_of_value hNew hGet, if_pos hOpens, hExpanded] at h
      obtain ⟨later, hLater, rfl⟩ := exists_of_map_eq_ok h
      have hInner := ihInner hExpanded (List.append_subset.mpr
        ⟨List.Subset.trans hSubset (List.subset_append_left chain [key]),
          List.subset_append_right chain [key]⟩)
      rw [expand_of_value hShorter hGet, if_pos hOpens, hInner, ih hLater hSubset]
      rfl
  | case7 chain key rest hNew value hGet hPlain ih =>
      have hShorter := not_contains_of_subset hSubset hNew
      rw [expand_of_value hNew hGet, if_neg hPlain] at h
      obtain ⟨later, hLater, rfl⟩ := exists_of_map_eq_ok h
      rw [expand_of_value hShorter hGet, if_neg hPlain, ih hLater hSubset]
      rfl

theorem full_of_none (h : scope.get? key = none) : scope.full key = PropertyPiece.written key := by
  rw [full, h]

theorem full_of_settle (hGet : scope.get? key = some value)
    (hSettle : scope.settle key value = .ok text) : scope.full key = text := by
  rw [full, hGet]
  simp only [hSettle, Except.toOption, Option.getD_some]

/-- A value that is one reference to another key settles to the value of that key, if this opens no
reference. -/
theorem settle_written {own : Text} (hClosed : '\x7d' ∉ key) (hOther : key ≠ own)
    (hGet : scope.get? key = some value)
    (hPlain : ¬ Text.occursIn PropertyPiece.opening value = true) :
    scope.settle own (PropertyPiece.written key) = .ok value := by
  have hOpens : Text.occursIn PropertyPiece.opening (PropertyPiece.written key) = true := rfl
  have hNew : ¬ [own].contains key = true := by simpa using hOther
  rw [settle, if_pos hOpens, PropertyPiece.ofValue_written hClosed, expand, expand_of_value hNew hGet,
    if_neg hPlain, expand, expand]
  simp [Except.map]

/-- A value that is one reference to a key without a value settles to itself. -/
theorem settle_written_of_none {own : Text} (hClosed : '\x7d' ∉ key) (hOther : key ≠ own)
    (hNone : scope.get? key = none) :
    scope.settle own (PropertyPiece.written key) = .ok (PropertyPiece.written key) := by
  have hOpens : Text.occursIn PropertyPiece.opening (PropertyPiece.written key) = true := rfl
  have hNew : ¬ [own].contains key = true := by simpa using hOther
  rw [settle, if_pos hOpens, PropertyPiece.ofValue_written hClosed, expand,
    expand_of_none hNew hNone, expand, expand]
  simp [Except.map]

/-- The pieces with what their references stand for filled in; none of these is in a circle. -/
structure Fills (scope : PropertyScope) (pieces : List PropertyPiece) (text : Text) : Prop where
  text : text = pieces.flatMap (PropertyPiece.fill scope.full)
  settled : ∀ key value, .reference key ∈ pieces → scope.get? key = some value →
    ∃ settled, scope.settle key value = .ok settled

theorem fills_nil (scope : PropertyScope) : scope.Fills [] [] :=
  ⟨rfl, fun _ _ hMem => absurd hMem List.not_mem_nil⟩

theorem Fills.literal (h : scope.Fills pieces text) (front : Text) :
    scope.Fills (.literal front :: pieces) (front ++ text) where
  text := congrArg (front ++ ·) h.text
  settled key value hMem := h.settled key value ((List.mem_cons.mp hMem).resolve_left nofun)

theorem Fills.unanswered (h : scope.Fills pieces text) (hNone : scope.get? key = none) :
    scope.Fills (.reference key :: pieces) (PropertyPiece.written key ++ text) where
  text := by rw [List.flatMap_cons, PropertyPiece.fill, full_of_none hNone, ← h.text]
  settled other value hMem hGet := by
    rcases List.mem_cons.mp hMem with hSame | hLater
    · cases hSame
      cases hNone.symm.trans hGet
    · exact h.settled other value hLater hGet

theorem Fills.answered {settled : Text} (h : scope.Fills pieces text)
    (hGet : scope.get? key = some value) (hSettle : scope.settle key value = .ok settled) :
    scope.Fills (.reference key :: pieces) (settled ++ text) where
  text := by rw [List.flatMap_cons, PropertyPiece.fill, full_of_settle hGet hSettle, ← h.text]
  settled other found hMem hFound := by
    rcases List.mem_cons.mp hMem with hSame | hLater
    · cases hSame
      cases hGet.symm.trans hFound
      exact ⟨settled, hSettle⟩
    · exact h.settled other found hLater hFound

/-- An expansion that meets no circle fills in what the references stand for. -/
theorem fills_of_expand (h : scope.expand chain pieces = .ok text) : scope.Fills pieces text := by
  induction chain, pieces using PropertyScope.expand.induct scope generalizing text with
  | case1 chain =>
      rw [expand] at h
      cases h
      exact scope.fills_nil
  | case2 chain front rest ih =>
      rw [expand] at h
      obtain ⟨later, hLater, rfl⟩ := exists_of_map_eq_ok h
      exact (ih hLater).literal front
  | case3 chain key rest hCircle =>
      rw [expand_of_circle hCircle] at h
      cases h
  | case4 chain key rest hNew hNone ih =>
      rw [expand_of_none hNew hNone] at h
      obtain ⟨later, hLater, rfl⟩ := exists_of_map_eq_ok h
      exact (ih hLater).unanswered hNone
  | case5 chain key rest hNew value hGet hOpens path hPath =>
      rw [expand_of_value hNew hGet, if_pos hOpens, hPath] at h
      cases h
  | case6 chain key rest hNew value hGet hOpens expanded hExpanded ihInner ih =>
      rw [expand_of_value hNew hGet, if_pos hOpens, hExpanded] at h
      obtain ⟨later, hLater, rfl⟩ := exists_of_map_eq_ok h
      apply (ih hLater).answered hGet
      rw [settle, if_pos hOpens]
      exact expand_of_subset hExpanded (List.subset_append_right chain [key])
  | case7 chain key rest hNew value hGet hPlain ih =>
      rw [expand_of_value hNew hGet, if_neg hPlain] at h
      obtain ⟨later, hLater, rfl⟩ := exists_of_map_eq_ok h
      exact (ih hLater).answered hGet (by rw [settle, if_neg hPlain])

theorem fills_of_settle (h : scope.settle key value = .ok text) :
    scope.Fills (PropertyPiece.ofValue value) text := by
  rw [settle] at h
  split at h
  · exact fills_of_expand h
  · rename_i hPlain
    cases h
    have hValue := scope.fills_nil.literal value
    rwa [List.append_nil, ← PropertyPiece.ofValue_of_plain hPlain] at hValue

/-- Wherever references lead from a value without a circle, they stand for the value there, expanded in
turn. -/
theorem full_of_leads (hLeads : scope.Leads value key) {own found : Text}
    (hSettle : scope.settle own value = .ok text) (hGet : scope.get? key = some found) :
    scope.full key = (PropertyPiece.ofValue found).flatMap (PropertyPiece.fill scope.full) := by
  induction hLeads generalizing own text with
  | here hMem =>
      obtain ⟨settled, hSettled⟩ := (fills_of_settle hSettle).settled _ _ hMem hGet
      rw [full_of_settle hGet hSettled]
      exact (fills_of_settle hSettled).text
  | through hMem hBetween _ ih =>
      obtain ⟨settled, hSettled⟩ := (fills_of_settle hSettle).settled _ _ hMem hBetween
      exact ih hSettled hGet

end PropertyScope

end Placeholder
