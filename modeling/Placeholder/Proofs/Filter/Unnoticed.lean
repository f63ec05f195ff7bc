import Placeholder.Proofs.Filter.Accounting
/-!
Changes of a filter that reading characters does not notice. Where every decision is the same before
and after such a change, so is every character, and the change is still there behind it.
-/
namespace Placeholder.FilterStream

/-- A change of parts of a filter that no decision depends on. Where the filter stands and what it is
about to hand out are not among those parts. -/
structure Unnoticed (change : FilterStream → FilterStream) : Prop where
  input : ∀ f, (change f).input = f.input
  pending : ∀ f, (change f).pending = f.pending
  ended : ∀ f, (change f).ended = f.ended
  poisoned : ∀ f, (change f).poisoned = f.poisoned
  reach : ∀ f, (change f).reach = f.reach
  session : ∀ f, (change f).session = f.session
  setInput : ∀ f input, change { f with input := input } = { change f with input := input }
  setPending : ∀ f pending, change { f with pending := pending } =
    { change f with pending := pending }
  setEnded : ∀ f, change { f with ended := true } = { change f with ended := true }
  setPoisoned : ∀ f, change { f with poisoned := true } = { change f with poisoned := true }
  decides : ∀ f : FilterStream, (change { f with input := f.input.mark f.reach }).decide =
    (decide { f with input := f.input.mark f.reach }).map fun decided =>
      (decided.1, change decided.2)

variable {change : FilterStream → FilterStream}

theorem Unnoticed.settle (h : Unnoticed change) (f : FilterStream) (text : Text) (count : Nat) :
    (change f).settle text count = ((f.settle text count).1, change (f.settle text count).2) := by
  simp only [FilterStream.settle, h.input f]
  cases f.input.consume count with
  | mk result input =>
      cases result with
      | error failure => exact congrArg (Prod.mk _) (h.setInput f input).symm
      | ok done =>
          have hSettled := h.setPending { f with input := input } text
          rw [h.setInput f] at hSettled
          exact congrArg (Prod.mk _) hSettled.symm

theorem Unnoticed.carryOut (h : Unnoticed change) (f : FilterStream)
    (decision : Except Failure Decision) :
    (change f).carryOut decision = ((f.carryOut decision).1, change (f.carryOut decision).2) := by
  cases decision with
  | error failure => rfl
  | ok decision =>
      cases decision with
      | ended => exact congrArg (Prod.mk _) (h.setEnded f).symm
      | pass text => exact h.settle f text text.length
      | replace text consumed => exact h.settle f text consumed

theorem Unnoticed.scan (h : Unnoticed change) (f : FilterStream) :
    (change f).scan = f.scan.map fun scanned => (scanned.1, change scanned.2) := by
  have hMarked : { change f with input := (change f).input.mark (change f).reach } =
      change { f with input := f.input.mark f.reach } := by
    have hSame := h.setInput f (f.input.mark f.reach)
    simp only [h.input f, h.reach f] at hSame ⊢
    exact hSame.symm
  rw [FilterStream.scan, FilterStream.scan]
  show (FilterStream.decide { change f with input := (change f).input.mark (change f).reach }).bind _
    = _
  rw [hMarked, h.decides f]
  cases FilterStream.decide { f with input := f.input.mark f.reach } with
  | none => rfl
  | some decided => exact congrArg some (h.carryOut decided.2 decided.1)

/-- Reading a character goes as if nothing were changed, and changes nothing back. -/
theorem Unnoticed.next (h : Unnoticed change) (f : FilterStream) (hReach : 0 < f.reach) :
    (change f).next = f.next.map fun read => (read.1, change read.2) := by
  apply next_induct (P := fun f outcome => (change f).next =
    outcome.map fun read => (read.1, change read.2)) _ _ _ _ _ f hReach
  · intro g c rest hPending
    have hNext := next_of_pending ((h.pending g).trans hPending)
    rwa [← h.setPending g rest] at hNext
  · intro g hPending hEnded
    exact next_of_ended ((h.pending g).trans hPending) ((h.ended g).trans hEnded)
  · intro g _ hPending hEnded hScan
    apply next_of_endless ((h.pending g).trans hPending) ((h.ended g).trans hEnded)
    rw [h.scan, hScan, Option.map_none]
  · intro g after failure _ hPending hEnded hScan
    have hScanned : (change g).scan = some (.error failure, change after) := by
      rw [h.scan, hScan, Option.map_some]
    have hNext := next_of_failed ((h.pending g).trans hPending) ((h.ended g).trans hEnded) hScanned
    rwa [← h.setPoisoned after] at hNext
  · intro g after _ hPending hEnded hScan hNext
    rw [← hNext]
    apply next_of_scan ((h.pending g).trans hPending) ((h.ended g).trans hEnded)
    rw [h.scan, hScan, Option.map_some]

theorem Unnoticed.readChar (h : Unnoticed change) (f : FilterStream) (hReach : 0 < f.reach) :
    (change f).readChar = f.readChar.map fun read => (read.1, change read.2) := by
  cases hSound : f.poisoned with
  | true =>
      rw [FilterStream.readChar, FilterStream.readChar, if_pos hSound,
        if_pos ((h.poisoned f).trans hSound), Option.map_some]
  | false =>
      rw [readChar_of_sound hSound, readChar_of_sound ((h.poisoned f).trans hSound)]
      exact h.next f hReach

end Placeholder.FilterStream
