import Mathlib.Data.List.Chain
import Placeholder.Proofs.Expansion.Failing
import Placeholder.Proofs.Property.Expanding
/-!
Which values go in a circle. References lead from key to key; a circle is a way back to a key, and it
spoils every key from which it can be reached. The expansion of a value finds a circle exactly if one
can be reached from its key, and then the path it gives follows references up to the first key that
comes again. Otherwise it gives the full expansion, of which there is exactly one.
-/
namespace Placeholder.PropertyScope

variable {scope : PropertyScope} {chain path : List Text} {pieces : List PropertyPiece}
  {key value text : Text}

/-- The value of a key has a reference to another key, and this has a value too. -/
def Refers (scope : PropertyScope) (key other : Text) : Prop :=
  ∃ value, scope.get? key = some value ∧ .reference other ∈ PropertyPiece.ofValue value ∧
    (scope.get? other).isSome

/-- From a key references lead to one that leads back to itself. -/
def Circular (scope : PropertyScope) (key : Text) : Prop :=
  ∃ again, Relation.ReflTransGen scope.Refers key again ∧ Relation.TransGen scope.Refers again again

/-- The full expansion of pieces. A key with a value stands for the full expansion of this value, and a
key without one stays as it is written. -/
inductive Expands (scope : PropertyScope) : List PropertyPiece → Text → Prop
  | nil : Expands scope [] []
  | literal {text later : Text} {rest : List PropertyPiece} (hLater : Expands scope rest later) :
      Expands scope (.literal text :: rest) (text ++ later)
  | unknown {key later : Text} {rest : List PropertyPiece} (hNone : scope.get? key = none)
      (hLater : Expands scope rest later) :
      Expands scope (.reference key :: rest) (PropertyPiece.written key ++ later)
  | known {key value inner later : Text} {rest : List PropertyPiece}
      (hGet : scope.get? key = some value) (hInner : Expands scope (PropertyPiece.ofValue value) inner)
      (hLater : Expands scope rest later) :
      Expands scope (.reference key :: rest) (inner ++ later)

/-- The path goes on from the chain along references, up to the first key that comes again. -/
structure LeadsBack (scope : PropertyScope) (chain path : List Text) : Prop where
  follows : path.IsChain scope.Refers
  returns : ∃ inner last, path = chain ++ inner ++ [last] ∧ (chain ++ inner).Nodup ∧
    last ∈ chain ++ inner

/-- Whoever gets into a circle does so through the next key. -/
theorem Circular.next (h : scope.Circular key) :
    ∃ other, scope.Refers key other ∧ scope.Circular other := by
  obtain ⟨again, hReaches, hCircle⟩ := h
  rcases hReaches.cases_head with rfl | ⟨other, hRefers, hReaches⟩
  · obtain ⟨other, hRefers, hBack⟩ := Relation.TransGen.head'_iff.mp hCircle
    exact ⟨other, hRefers, key, hBack, hCircle⟩
  · exact ⟨other, hRefers, again, hReaches, hCircle⟩

namespace Expands

/-- There is one full expansion at most. -/
theorem unique {other : Text} (h : scope.Expands pieces text) (hOther : scope.Expands pieces other) :
    text = other := by
  induction h generalizing other with
  | nil =>
      cases hOther
      rfl
  | literal _ ih =>
      cases hOther with
      | literal hLater => rw [ih hLater]
  | unknown hNone _ ih =>
      cases hOther with
      | unknown _ hLater => rw [ih hLater]
      | known hGet => cases hNone.symm.trans hGet
  | known hGet _ _ ihInner ih =>
      cases hOther with
      | unknown hNone => cases hNone.symm.trans hGet
      | known hSame hInner hLater =>
          cases hGet.symm.trans hSame
          rw [ihInner hInner, ih hLater]

/-- No reference that was expanded gets into a circle. -/
theorem not_circular (h : scope.Expands pieces text) (hMem : .reference key ∈ pieces)
    (hSome : (scope.get? key).isSome) : ¬ scope.Circular key := by
  induction h generalizing key with
  | nil => cases hMem
  | literal _ ih => exact ih ((List.mem_cons.mp hMem).resolve_left nofun) hSome
  | unknown hNone _ ih =>
      rcases List.mem_cons.mp hMem with hSame | hLater
      · cases hSame
        rw [hNone] at hSome
        cases hSome
      · exact ih hLater hSome
  | known hGet _ _ ihInner ih =>
      rcases List.mem_cons.mp hMem with hSame | hLater
      · cases hSame
        intro hCircular
        obtain ⟨other, ⟨value, hValue, hRefers, hOther⟩, hNext⟩ := hCircular.next
        cases hGet.symm.trans hValue
        exact ihInner hRefers hOther hNext
      · exact ih hLater hSome

end Expands

/-- A value that opens no reference is its own expansion. -/
theorem expands_of_plain (h : ¬ Text.occursIn PropertyPiece.opening value = true) :
    scope.Expands (PropertyPiece.ofValue value) value := by
  have hValue : scope.Expands [.literal value] (value ++ []) := .literal .nil
  rwa [List.append_nil, ← PropertyPiece.ofValue_of_plain h] at hValue

/-- A value with a full expansion belongs to a key that gets into no circle. -/
theorem not_circular_of_expands (hGet : scope.get? key = some value)
    (h : scope.Expands (PropertyPiece.ofValue value) text) : ¬ scope.Circular key := by
  intro hCircular
  obtain ⟨other, ⟨found, hFound, hRefers, hSome⟩, hNext⟩ := hCircular.next
  cases hGet.symm.trans hFound
  exact h.not_circular hRefers hSome hNext

/-- Along references the first key leads to the last. -/
theorem transGen_of_isChain {first last : Text} {inner : List Text}
    (h : (first :: inner ++ [last]).IsChain scope.Refers) :
    Relation.TransGen scope.Refers first last := by
  induction inner generalizing first with
  | nil => exact .single (List.isChain_cons_cons.mp h).1
  | cons next inner ih =>
      obtain ⟨hRefers, hLater⟩ := List.isChain_cons_cons.mp h
      exact .head hRefers (ih hLater)

/-- From the last key of a chain a path that leads back gets into a circle. -/
theorem LeadsBack.last_circular (h : scope.LeadsBack (chain ++ [key]) path) : scope.Circular key := by
  obtain ⟨inner, last, rfl, _, hMem⟩ := h.returns
  obtain ⟨before, after, hSplit⟩ := List.append_of_mem hMem
  have hThere : (key :: inner ++ [last]).IsChain scope.Refers :=
    h.follows.suffix ⟨chain, by simp⟩
  have hBack : (last :: after ++ [last]).IsChain scope.Refers :=
    h.follows.suffix ⟨before, by simp [hSplit]⟩
  exact ⟨last, (transGen_of_isChain hThere).to_reflTransGen, transGen_of_isChain hBack⟩

/-- The first key of a path that leads back gets into a circle. -/
theorem LeadsBack.circular (h : scope.LeadsBack [key] path) : scope.Circular key := by
  have hEmpty : scope.LeadsBack ([] ++ [key]) path := h
  exact hEmpty.last_circular

/-- An expansion under way. References led from key to key along the chain, and they lead on from its end
to the references among the pieces. -/
structure Underway (scope : PropertyScope) (chain : List Text) (pieces : List PropertyPiece) :
    Prop where
  distinct : chain.Nodup
  known : ∀ key ∈ chain, (scope.get? key).isSome
  goesOn : ∀ key, .reference key ∈ pieces → (scope.get? key).isSome →
    (chain ++ [key]).IsChain scope.Refers

namespace Underway

/-- The value of a key is the beginning of an expansion. -/
theorem start (hGet : scope.get? key = some value) :
    scope.Underway [key] (PropertyPiece.ofValue value) where
  distinct := List.nodup_singleton key
  known other hMem := by rw [List.mem_singleton.mp hMem, hGet, Option.isSome_some]
  goesOn other hMem hSome := List.isChain_pair.mpr ⟨value, hGet, hMem, hSome⟩

theorem tail {piece : PropertyPiece} (h : scope.Underway chain (piece :: pieces)) :
    scope.Underway chain pieces :=
  ⟨h.distinct, h.known, fun key hMem => h.goesOn key (List.mem_cons_of_mem _ hMem)⟩

/-- The value of a reference is expanded behind a longer chain. -/
theorem inside (h : scope.Underway chain (.reference key :: pieces))
    (hNew : ¬ chain.contains key = true) (hGet : scope.get? key = some value) :
    scope.Underway (chain ++ [key]) (PropertyPiece.ofValue value) where
  distinct := by
    have hDistinct : (key :: chain).Nodup :=
      List.nodup_cons.mpr ⟨mt List.contains_iff_mem.mpr hNew, h.distinct⟩
    exact hDistinct.perm (List.perm_append_singleton key chain).symm
  known other hMem := by
    rcases List.mem_append.mp hMem with hChain | hKey
    · exact h.known other hChain
    · rw [List.mem_singleton.mp hKey, hGet, Option.isSome_some]
  goesOn other hMem hOther := by
    have hHere : (chain ++ [key]).IsChain scope.Refers :=
      h.goesOn key (List.mem_cons_self ..) (by rw [hGet, Option.isSome_some])
    apply hHere.append (List.isChain_singleton other)
    intro last hLast next hNext
    rw [List.getLast?_concat] at hLast
    cases hLast
    cases hNext
    exact ⟨value, hGet, hMem, hOther⟩

/-- A reference to a key on the chain leads back. -/
theorem leadsBack (h : scope.Underway chain (.reference key :: pieces)) (hMem : key ∈ chain) :
    scope.LeadsBack chain (chain ++ [key]) where
  follows := h.goesOn key (List.mem_cons_self ..) (h.known key hMem)
  returns := ⟨[], key, by simp, by simpa using h.distinct, by simpa using hMem⟩

end Underway

/-- A path from a longer chain is one from the chain. -/
theorem LeadsBack.shorter (h : scope.LeadsBack (chain ++ [key]) path) : scope.LeadsBack chain path := by
  obtain ⟨inner, last, hPath, hDistinct, hLast⟩ := h.returns
  refine ⟨h.follows, key :: inner, last, ?_, ?_, ?_⟩
  · simpa using hPath
  · simpa using hDistinct
  · simpa using hLast

/-- Where an expansion gives up, its path leads back. -/
theorem leadsBack_of_expand (hUnderway : scope.Underway chain pieces)
    (h : scope.expand chain pieces = .error path) : scope.LeadsBack chain path := by
  induction chain, pieces using PropertyScope.expand.induct scope generalizing path with
  | case1 chain =>
      rw [expand] at h
      cases h
  | case2 chain front rest ih =>
      rw [expand] at h
      exact ih hUnderway.tail (eq_error_of_map h)
  | case3 chain key rest hCircle =>
      rw [expand_of_circle hCircle] at h
      cases h
      exact hUnderway.leadsBack (List.contains_iff_mem.mp hCircle)
  | case4 chain key rest hNew hNone ih =>
      rw [expand_of_none hNew hNone] at h
      exact ih hUnderway.tail (eq_error_of_map h)
  | case5 chain key rest hNew value hGet hOpens found hFound ih =>
      rw [expand_of_value hNew hGet, if_pos hOpens, hFound] at h
      cases h
      exact (ih (hUnderway.inside hNew hGet) hFound).shorter
  | case6 chain key rest hNew value hGet hOpens expanded hExpanded ihInner ih =>
      rw [expand_of_value hNew hGet, if_pos hOpens, hExpanded] at h
      exact ih hUnderway.tail (eq_error_of_map h)
  | case7 chain key rest hNew value hGet hPlain ih =>
      rw [expand_of_value hNew hGet, if_neg hPlain] at h
      exact ih hUnderway.tail (eq_error_of_map h)

/-- An expansion that does not give up is the full expansion. -/
theorem expands_of_expand (h : scope.expand chain pieces = .ok text) : scope.Expands pieces text := by
  induction chain, pieces using PropertyScope.expand.induct scope generalizing text with
  | case1 chain =>
      rw [expand] at h
      cases h
      exact .nil
  | case2 chain front rest ih =>
      rw [expand] at h
      obtain ⟨later, hLater, rfl⟩ := exists_of_map_eq_ok h
      exact .literal (ih hLater)
  | case3 chain key rest hCircle =>
      rw [expand_of_circle hCircle] at h
      cases h
  | case4 chain key rest hNew hNone ih =>
      rw [expand_of_none hNew hNone] at h
      obtain ⟨later, hLater, rfl⟩ := exists_of_map_eq_ok h
      exact .unknown hNone (ih hLater)
  | case5 chain key rest hNew value hGet hOpens path hPath =>
      rw [expand_of_value hNew hGet, if_pos hOpens, hPath] at h
      cases h
  | case6 chain key rest hNew value hGet hOpens expanded hExpanded ihInner ih =>
      rw [expand_of_value hNew hGet, if_pos hOpens, hExpanded] at h
      obtain ⟨later, hLater, rfl⟩ := exists_of_map_eq_ok h
      exact .known hGet (ihInner hExpanded) (ih hLater)
  | case7 chain key rest hNew value hGet hPlain ih =>
      rw [expand_of_value hNew hGet, if_neg hPlain] at h
      obtain ⟨later, hLater, rfl⟩ := exists_of_map_eq_ok h
      exact .known hGet (expands_of_plain hPlain) (ih hLater)

/-- What becomes of a value: its full expansion, or a path that leads back where it gets into a
circle. -/
theorem settle_cases (hGet : scope.get? key = some value) :
    (∃ text, scope.settle key value = .ok text ∧ scope.Expands (PropertyPiece.ofValue value) text ∧
      ¬ scope.Circular key) ∨
    ∃ path, scope.settle key value = .error path ∧ scope.LeadsBack [key] path ∧
      scope.Circular key := by
  rw [settle]
  split
  · cases hExpand : scope.expand [key] (PropertyPiece.ofValue value) with
    | ok text =>
        have hExpands := expands_of_expand hExpand
        exact .inl ⟨text, rfl, hExpands, not_circular_of_expands hGet hExpands⟩
    | error path =>
        have hLeadsBack := leadsBack_of_expand (Underway.start hGet) hExpand
        exact .inr ⟨path, rfl, hLeadsBack, hLeadsBack.circular⟩
  · rename_i hPlain
    have hExpands : scope.Expands (PropertyPiece.ofValue value) value := expands_of_plain hPlain
    exact .inl ⟨value, rfl, hExpands, not_circular_of_expands hGet hExpands⟩

end Placeholder.PropertyScope
