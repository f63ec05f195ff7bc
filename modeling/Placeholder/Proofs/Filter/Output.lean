import Placeholder.Proofs.Filter.Unnoticed
/-!
The output of a filter as a whole. Reading characters one by one gives one rendering, whatever the
input and the answers are; and it makes no difference to it what the filter still holds for reads of
bytes.
-/
namespace Placeholder.FilterStream

variable {f : FilterStream} {out : Rendering}

/-- What reading characters gives, up to how it ends. -/
inductive Flows : FilterStream → Rendering → Prop
  | char {f after : FilterStream} {c : Char} {rest : Text} {stop : Stop}
      (hRead : f.readChar = some (.ok (some c), after)) (hLater : Flows after ⟨rest, stop⟩) :
      Flows f ⟨c :: rest, stop⟩
  | ended {f after : FilterStream} (hRead : f.readChar = some (.ok none, after))
      (hAgain : after.readChar = some (.ok none, after)) : Flows f ⟨[], .ended after.session⟩
  | failed {f after : FilterStream} {failure : Failure}
      (hRead : f.readChar = some (.error failure, after)) (hPoisoned : after.poisoned = true) :
      Flows f ⟨[], .failed failure after.session⟩
  | endless {f : FilterStream} (hRead : f.readChar = none) : Flows f ⟨[], .endless⟩

theorem Flows.of_same_read {g : FilterStream} (h : g.Flows out) (hSame : f.readChar = g.readChar) :
    f.Flows out := by
  cases h with
  | char hRead hLater => exact .char (hSame.trans hRead) hLater
  | ended hRead hAgain => exact .ended (hSame.trans hRead) hAgain
  | failed hRead hPoisoned => exact .failed (hSame.trans hRead) hPoisoned
  | endless hRead => exact .endless (hSame.trans hRead)

/-- A filter has one output: the next read tells how it goes on. -/
theorem Flows.unique {other : Rendering} (h : f.Flows out) (hOther : f.Flows other) : out = other := by
  induction h generalizing other with
  | char hRead _ ih =>
      cases hOther with
      | char hRead' hLater =>
          cases hRead.symm.trans hRead'
          cases ih hLater
          rfl
      | ended hRead' | failed hRead' | endless hRead' => cases hRead.symm.trans hRead'
  | ended hRead =>
      cases hOther with
      | ended hRead' =>
          cases hRead.symm.trans hRead'
          rfl
      | char hRead' | failed hRead' | endless hRead' => cases hRead.symm.trans hRead'
  | failed hRead =>
      cases hOther with
      | failed hRead' =>
          cases hRead.symm.trans hRead'
          rfl
      | char hRead' | ended hRead' | endless hRead' => cases hRead.symm.trans hRead'
  | endless hRead =>
      cases hOther with
      | endless hRead' => rfl
      | char hRead' | ended hRead' | failed hRead' => cases hRead.symm.trans hRead'

/-- A filter that failed only ever refuses. -/
theorem flows_of_poisoned (h : f.poisoned = true) : f.Flows ⟨[], .failed .poisoned f.session⟩ := by
  refine .failed ?_ h
  rw [readChar, if_pos h]

/-- At the end of its input a filter gives nothing, again and again. -/
theorem flows_of_ended (hPending : f.pending = []) (hEnded : f.ended = true)
    (hSound : f.poisoned = false) : f.Flows ⟨[], .ended f.session⟩ := by
  have hEnd := (readChar_of_sound hSound).trans (next_of_ended hPending hEnded)
  exact .ended hEnd hEnd

/-- A scan that fails ends the output. -/
theorem flows_of_failed {after : FilterStream} {failure : Failure} (hSound : f.poisoned = false)
    (hPending : f.pending = []) (hEnded : f.ended = false)
    (hScan : f.scan = some (.error failure, after)) :
    f.Flows ⟨[], .failed failure after.session⟩ := by
  have hRead := (readChar_of_sound hSound).trans (next_of_failed hPending hEnded hScan)
  have hFlows : f.Flows ⟨[], .failed failure { after with poisoned := true }.session⟩ :=
    .failed hRead rfl
  exact hFlows

theorem flows_of_endless (hSound : f.poisoned = false) (hPending : f.pending = [])
    (hEnded : f.ended = false) (hScan : f.scan = none) : f.Flows ⟨[], .endless⟩ :=
  .endless ((readChar_of_sound hSound).trans (next_of_endless hPending hEnded hScan))

/-- What is pending comes first. -/
theorem Flows.behind_pending (hSound : f.poisoned = false) (h : Flows { f with pending := [] } out) :
    f.Flows (out.behind f.pending) := by
  induction hPending : f.pending generalizing f with
  | nil =>
      have hSame : { f with pending := [] } = f := by rw [← hPending]
      rwa [hSame] at h
  | cons c pending ih =>
      have hBehind : Flows { f with pending := pending } (out.behind pending) := ih hSound h rfl
      apply Flows.char _ hBehind
      rw [readChar_of_sound hSound, next_of_pending hPending]

/-- A scan on the way to the next character makes no difference to it. -/
theorem Flows.of_scan {after : FilterStream} (h : after.Flows out) (hSound : f.poisoned = false)
    (hPending : f.pending = []) (hEnded : f.ended = false)
    (hScan : f.scan = some (.ok (), after)) (hAfter : after.poisoned = false) : f.Flows out := by
  apply h.of_same_read
  rw [readChar_of_sound hSound, readChar_of_sound hAfter, next_of_scan hPending hEnded hScan]

/-- Where nothing is pending, the end is near or a scan leaves less to read. -/
theorem exists_flows_of_drained (hReach : 0 < f.reach) (hPending : f.pending = [])
    (hLess : ∀ g : FilterStream, 0 < g.reach → g.unread < f.unread → ∃ out, g.Flows out) :
    ∃ out, f.Flows out := by
  cases hSound : f.poisoned with
  | true => exact ⟨_, flows_of_poisoned hSound⟩
  | false =>
      cases hEnded : f.ended with
      | true => exact ⟨_, flows_of_ended hPending hEnded hSound⟩
      | false =>
          cases hScan : f.scan with
          | none => exact ⟨_, flows_of_endless hSound hPending hEnded hScan⟩
          | some scanned =>
              obtain ⟨result, after⟩ := scanned
              cases result with
              | error failure => exact ⟨_, flows_of_failed hSound hPending hEnded hScan⟩
              | ok done =>
                  have hAdvances := advances hReach hScan
                  obtain ⟨out, hOut⟩ :=
                    hLess after (hAdvances.reach ▸ hReach) (hAdvances.unread_lt hEnded)
                  exact ⟨out, hOut.of_scan hSound hPending hEnded hScan
                    (hAdvances.poisoned.trans hSound)⟩

/-- Every filter has an output: finitely many characters, and what ends them. -/
theorem exists_flows (f : FilterStream) (hReach : 0 < f.reach) : ∃ out, f.Flows out := by
  induction hLeft : f.unread using Nat.strongRecOn generalizing f with
  | ind n ih =>
      subst hLeft
      cases hSound : f.poisoned with
      | true => exact ⟨_, flows_of_poisoned hSound⟩
      | false =>
          obtain ⟨out, hOut⟩ := exists_flows_of_drained (f := { f with pending := [] }) hReach rfl
            fun g hSome hLess => ih _ hLess g hSome rfl
          exact ⟨_, hOut.behind_pending hSound⟩

/-- However many characters are asked for, they are those of the output. -/
theorem Flows.reads (h : f.Flows out) (count : Nat) : f.reads count = out.reads count := by
  induction count generalizing f out with
  | zero => rfl
  | succ count ih =>
      rw [FilterStream.reads]
      cases h with
      | char hRead hLater =>
          rename_i after c rest stop
          rw [hRead]
          simp only [Option.bind_eq_bind, Option.bind_some, ih hLater]
          cases hReads : Rendering.reads count ⟨rest, stop⟩ <;> simp [Rendering.reads, hReads]
      | ended hRead hAgain =>
          rename_i after
          rw [hRead]
          simp only [Option.bind_eq_bind, Option.bind_some, ih (.ended hAgain hAgain)]
          cases count <;> rfl
      | failed hRead hPoisoned =>
          rw [hRead]
          simp only [Option.bind_eq_bind, Option.bind_some, reads_of_poisoned hPoisoned]
          rfl
      | endless hRead =>
          rw [hRead]
          rfl

/-- Reading to the end or to the first failure gives the output as a whole. -/
theorem Flows.collectOnto (h : f.Flows out) (seen : Text) :
    (collectOnto seen f).map (fun collected => (resultOf collected.1, collected.2.session)) =
      (out.behind seen.reverse).whole := by
  induction h generalizing seen with
  | char hRead _ ih =>
      rename_i f after c rest stop _
      rw [FilterStream.collectOnto, hRead]
      have hLater := ih (c :: seen)
      rw [List.reverse_cons] at hLater
      simpa [Rendering.behind] using hLater
  | ended hRead _ =>
      rw [FilterStream.collectOnto, hRead, Rendering.behind, List.append_nil]
      rfl
  | failed hRead _ =>
      rw [FilterStream.collectOnto, hRead, Rendering.behind]
      rfl
  | endless hRead =>
      rw [FilterStream.collectOnto, hRead]
      rfl

/-- Filtering a text in memory gives the output as a whole. -/
theorem Flows.filterText {options : FilterOptions} {x : Expander} {s : Session} {text : Text}
    (hMake : make options x s.onEmptyChain (.ofFeed (.ofBytes (Utf8.encodeText text))) = .ok f)
    (h : f.Flows out) : filterText options x s text = out.whole := by
  have hCollect := h.collectOnto []
  rw [List.reverse_nil, Rendering.behind_nil] at hCollect
  rw [Placeholder.filterText, hMake, ← hCollect]
  simp only [collect]
  cases FilterStream.collectOnto [] f with
  | none => rfl
  | some collected =>
      obtain ⟨⟨whole, failure?⟩, after⟩ := collected
      cases failure? <;> rfl

/-- Filtering a text in memory gives the output of a filter as a whole, or is refused because the sum for
the lookahead overflows. -/
theorem filterText_cases {options : FilterOptions} {markup : Markup} {x : Expander} {s after : Session}
    {text : Text} {result : Except Failure Text} (hMarkup : options.markup = .ok markup)
    (h : filterText options x s text = some (result, after)) :
    (result = .error .overflow ∧ after = s.onEmptyChain) ∨
      ∃ f out, make options x s.onEmptyChain (.ofFeed (.ofBytes (Utf8.encodeText text))) = .ok f ∧
        f.Flows out ∧ out.whole = some (result, after) := by
  by_cases hFits : options.lookahead markup < pow2 64
  · obtain ⟨f, hMake⟩ := exists_make (options.measured_eq_ok_iff.mpr ⟨hMarkup, hFits⟩) x s.onEmptyChain
      (.ofFeed (.ofBytes (Utf8.encodeText text)))
    obtain ⟨out, hFlows⟩ := f.exists_flows (reach_of_make hMake)
    rw [hFlows.filterText hMake] at h
    exact .inr ⟨f, out, hMake, hFlows, h⟩
  · rw [filterText_of_refused
      (options.measured_eq_overflow hMarkup (Nat.le_of_not_lt hFits))] at h
    obtain ⟨rfl, rfl⟩ := Prod.mk.inj (Option.some.inj h)
    exact .inl ⟨rfl, rfl⟩

/-- The filter with other bytes and another failure held back. -/
def holding (f : FilterStream) (leftover : Bytes) (deferred : Option Failure) : FilterStream :=
  { f with leftover := leftover, deferred := deferred }

/-- Reading characters neither looks at what is held back nor changes it. -/
theorem unnoticed_holding (leftover : Bytes) (deferred : Option Failure) :
    Unnoticed (holding · leftover deferred) where
  input _ := rfl
  pending _ := rfl
  ended _ := rfl
  poisoned _ := rfl
  reach _ := rfl
  session _ := rfl
  setInput _ _ := rfl
  setPending _ _ := rfl
  setEnded _ := rfl
  setPoisoned _ := rfl
  decides f := by
    simp only [decide, holding]
    cases hLook : Sight.ofInput f.expander.markup f.multiLine (f.input.mark f.reach) with
    | mk result input =>
        cases result with
        | error failure => rfl
        | ok sight =>
            cases sight with
            | ended => rfl
            | literal text => rfl
            | escaped text consumed => rfl
            | placeholder token expression =>
                show (f.answer token expression).bind _ =
                  Option.map _ ((f.answer token expression).bind _)
                cases f.answer token expression <;> rfl

theorem readChar_holding (f : FilterStream) (hReach : 0 < f.reach) (leftover : Bytes)
    (deferred : Option Failure) :
    (f.holding leftover deferred).readChar =
      f.readChar.map fun read => (read.1, read.2.holding leftover deferred) :=
  (unnoticed_holding leftover deferred).readChar f hReach

/-- What is held back stays as it is. -/
theorem held_of_readChar {after : FilterStream} {result : Except Failure (Option Char)}
    (hReach : 0 < f.reach) (h : f.readChar = some (result, after)) :
    after.leftover = f.leftover ∧ after.deferred = f.deferred := by
  have hSame : f.readChar = f.readChar.map fun read =>
      (read.1, read.2.holding f.leftover f.deferred) :=
    f.readChar_holding hReach f.leftover f.deferred
  rw [h, Option.map_some] at hSame
  have hAfter : after = after.holding f.leftover f.deferred :=
    (Prod.mk.inj (Option.some.inj hSame)).2
  rw [hAfter]
  exact ⟨rfl, rfl⟩

theorem reach_of_readChar {after : FilterStream} {result : Except Failure (Option Char)}
    (hReach : 0 < f.reach) (h : f.readChar = some (result, after)) : 0 < after.reach := by
  cases hSound : f.poisoned with
  | true =>
      rw [readChar, if_pos hSound] at h
      cases h
      exact hReach
  | false =>
      have hArrives := readChar_arrives hReach hSound
      rw [h] at hArrives
      cases result with
      | error failure =>
          obtain ⟨_, hSame, _⟩ := hArrives
          exact hSame ▸ hReach
      | ok char =>
          obtain ⟨segments, hReaches⟩ := hArrives
          exact (hReaches.followed hReach).reach ▸ hReach

/-- Where a change is not noticed, the output is the same. -/
theorem Flows.unnoticed {change : FilterStream → FilterStream} (hChange : Unnoticed change)
    (h : f.Flows out) (hReach : 0 < f.reach) : (change f).Flows out := by
  have hSame : ∀ {g after : FilterStream} {result : Except Failure (Option Char)}, 0 < g.reach →
      g.readChar = some (result, after) →
      (change g).readChar = some (result, change after) := by
    intro g after result hSome hRead
    rw [hChange.readChar g hSome, hRead, Option.map_some]
  induction h with
  | char hRead _ ih => exact .char (hSame hReach hRead) (ih (reach_of_readChar hReach hRead))
  | ended hRead hAgain =>
      rename_i f after
      rw [← hChange.session after]
      exact .ended (hSame hReach hRead) (hSame (reach_of_readChar hReach hRead) hAgain)
  | failed hRead hPoisoned =>
      rename_i f after failure
      rw [← hChange.session after]
      exact .failed (hSame hReach hRead) ((hChange.poisoned after).trans hPoisoned)
  | endless hRead =>
      apply Flows.endless
      rw [hChange.readChar _ hReach, hRead, Option.map_none]

theorem Flows.holding (h : f.Flows out) (hReach : 0 < f.reach) (leftover : Bytes)
    (deferred : Option Failure) : (f.holding leftover deferred).Flows out :=
  h.unnoticed (unnoticed_holding leftover deferred) hReach

end Placeholder.FilterStream
