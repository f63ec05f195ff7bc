import Mathlib.Data.List.Forall2
/-!
What becomes of results that may be failures, where a function is applied to one or a list is gone
through with one that may fail.
-/
namespace Placeholder

theorem exists_of_map_eq_ok {α β ε : Type} {f : α → β} {result : Except ε α} {value : β}
    (h : result.map f = .ok value) : ∃ inner, result = .ok inner ∧ f inner = value := by
  cases result with
  | error path => cases h
  | ok inner => exact ⟨inner, rfl, Except.ok.inj h⟩

theorem eq_error_of_map {α β ε : Type} {f : α → β} {result : Except ε α} {failure : ε}
    (h : result.map f = .error failure) : result = .error failure := by
  cases result with
  | error met => rw [Except.error.inj h]
  | ok value => cases h

/-- The failure of a result. -/
def errorOf {α ε : Type} : Except ε α → Option ε
  | .ok _ => none
  | .error failure => some failure

theorem errorOf_map {α β ε : Type} (f : α → β) (result : Except ε α) :
    errorOf (result.map f) = errorOf result := by
  cases result <;> rfl

theorem errorOf_eq_some_iff {α ε : Type} {result : Except ε α} {failure : ε} :
    errorOf result = some failure ↔ result = .error failure := by
  cases result <;> simp [errorOf]

/-- Going through a list succeeds if every item does. -/
theorem mapM_eq_ok_iff {α β ε : Type} {f : α → Except ε β} {items : List α} {results : List β} :
    items.mapM f = .ok results ↔ items.map f = results.map .ok := by
  induction items generalizing results with
  | nil => cases results <;> simp [pure, Except.pure]
  | cons item items ih =>
      rw [List.mapM_cons, List.map_cons]
      cases hItem : f item with
      | error failure => cases results <;> simp [bind, Except.bind]
      | ok result =>
          cases results with
          | nil =>
              cases hItems : items.mapM f <;>
                simp [bind, Except.bind, pure, Except.pure]
          | cons first later =>
              have hLater : items.mapM f = .ok later ↔ items.map f = later.map .ok := ih
              cases hItems : items.mapM f with
              | error failure =>
                  rw [hItems] at hLater
                  simp [bind, Except.bind, ← hLater]
              | ok rest =>
                  rw [hItems] at hLater
                  simp [bind, Except.bind, pure, Except.pure, ← hLater]

theorem mapM_eq_ok_iff_forall₂ {α β ε : Type} {f : α → Except ε β} {items : List α}
    {results : List β} :
    items.mapM f = .ok results ↔
      List.Forall₂ (fun item result => f item = .ok result) items results := by
  rw [mapM_eq_ok_iff, ← List.forall₂_eq_eq_eq, List.forall₂_map_left_iff,
    List.forall₂_map_right_iff]

theorem exists_result_of_mem {α β ε : Type} {f : α → Except ε β} {items : List α}
    {results : List β} {item : α} (h : items.mapM f = .ok results) (hMem : item ∈ items) :
    ∃ result, f item = .ok result := by
  have hOk : f item ∈ results.map .ok := mapM_eq_ok_iff.mp h ▸ List.mem_map_of_mem hMem
  obtain ⟨result, _, hResult⟩ := List.mem_map.mp hOk
  exact ⟨result, hResult.symm⟩

/-- Going through a list ends with a failure if the items before it succeed. -/
theorem mapM_eq_error_iff {α β ε : Type} {f : α → Except ε β} {items : List α} {failure : ε} :
    items.mapM f = .error failure ↔
      ∃ (results : List β) (later : List (Except ε β)),
        items.map f = results.map .ok ++ .error failure :: later := by
  induction items with
  | nil => simp [pure, Except.pure]
  | cons item items ih =>
      rw [List.mapM_cons, List.map_cons]
      cases hItem : f item with
      | error other =>
          constructor
          · intro h
            cases h
            exact ⟨[], items.map f, rfl⟩
          · rintro ⟨results, later, h⟩
            cases results with
            | nil =>
                cases h
                rfl
            | cons first results => cases h
      | ok result =>
          have hLater : (do let results ← items.mapM f; pure (result :: results)) = .error failure ↔
              items.mapM f = .error failure := by
            cases items.mapM f <;> simp [bind, Except.bind, pure, Except.pure]
          show (do let results ← items.mapM f; pure (result :: results)) = .error failure ↔ _
          rw [hLater, ih]
          constructor
          · rintro ⟨results, later, h⟩
            exact ⟨result :: results, later, congrArg _ h⟩
          · rintro ⟨results, later, h⟩
            cases results with
            | nil => cases h
            | cons first results => exact ⟨results, later, (List.cons.inj h).2⟩

/-- Where every item succeeds there is a list of results. -/
theorem exists_results {α β ε : Type} {f : α → Except ε β} {items : List α}
    (h : ∀ item ∈ items, ∃ result, f item = .ok result) :
    ∃ results : List β, items.map f = results.map .ok := by
  induction items with
  | nil => exact ⟨[], rfl⟩
  | cons item items ih =>
      obtain ⟨result, hResult⟩ := h item (List.mem_cons_self ..)
      obtain ⟨results, hResults⟩ := ih fun other hMem => h other (List.mem_cons_of_mem _ hMem)
      exact ⟨result :: results, by rw [List.map_cons, List.map_cons, hResult, hResults]⟩

theorem mem_results_iff {α β ε : Type} {f : α → Except ε β} {items : List α} {results : List β}
    (h : items.map f = results.map .ok) {result : β} :
    result ∈ results ↔ ∃ item ∈ items, f item = .ok result := by
  constructor
  · intro hMem
    have hOk : .ok result ∈ items.map f := h ▸ List.mem_map_of_mem hMem
    exact List.mem_map.mp hOk
  · rintro ⟨item, hMem, hResult⟩
    have hOk : f item ∈ results.map .ok := h ▸ List.mem_map_of_mem hMem
    obtain ⟨other, hOther, hSame⟩ := List.mem_map.mp hOk
    exact Except.ok.inj (hSame.trans hResult) ▸ hOther

/-- Going through a list ends with the failure of the first item that fails. -/
theorem mapM_eq_error_iff_first {α β ε : Type} {f : α → Except ε β} {items : List α}
    {failure : ε} :
    items.mapM f = .error failure ↔
      ∃ before item after, items = before ++ item :: after ∧
        (∀ earlier ∈ before, ∃ result, f earlier = .ok result) ∧ f item = .error failure := by
  rw [mapM_eq_error_iff]
  constructor
  · rintro ⟨results, later, h⟩
    obtain ⟨before, rest, rfl, hBefore, hRest⟩ := List.map_eq_append_iff.mp h
    obtain ⟨item, after, rfl, hItem, _⟩ := List.map_eq_cons_iff.mp hRest
    refine ⟨before, item, after, rfl, fun earlier hMem => ?_, hItem⟩
    have hResult : f earlier ∈ results.map .ok := hBefore ▸ List.mem_map_of_mem hMem
    obtain ⟨result, _, hSame⟩ := List.mem_map.mp hResult
    exact ⟨result, hSame.symm⟩
  · rintro ⟨before, item, after, rfl, hBefore, hItem⟩
    obtain ⟨results, hResults⟩ := exists_results hBefore
    exact ⟨results, after.map f, by rw [List.map_append, List.map_cons, hResults, hItem]⟩

/-- Where each item can be got back from its result, so can a list. -/
theorem mapM_eq_some_iff_of_iff {α β : Type} {f : α → Option β} {g : β → α}
    (h : ∀ item result, f item = some result ↔ item = g result) {items : List α} {results : List β} :
    items.mapM f = some results ↔ items = results.map g := by
  induction items generalizing results with
  | nil => cases results <;> simp
  | cons item rest ih =>
      rw [List.mapM_cons]
      simp only [Option.bind_eq_bind, Option.bind_eq_some_iff, Option.pure_def, Option.some.injEq, h, ih]
      constructor
      · rintro ⟨first, rfl, later, rfl, rfl⟩
        rfl
      · intro hItems
        cases results with
        | nil => cases hItems
        | cons first later =>
            obtain ⟨hFirst, hLater⟩ := List.cons.inj hItems
            exact ⟨first, hFirst, later, hLater, rfl⟩

end Placeholder
