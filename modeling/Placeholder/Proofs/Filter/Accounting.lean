import Placeholder.Proofs.Expansion.Failing
import Placeholder.Proofs.Filter.Rendering
import Placeholder.Proofs.Filter.Scanning
/-!
Every character of the input is accounted for. The segments that the scans stepped over, with what
the input still gives, are the whole input, on any feed and however the answers look; each scan
takes at least one character or notices the end, so a read ends unless an expansion does not; and
going back never fails.
-/
namespace Placeholder.FilterStream

/-- What a scan that goes well has done. -/
structure Advances (f after : FilterStream) : Prop where
  passed : f.input.reader.Passed f.taken after.input.reader
  fits : f.taken.length ≤ f.reach
  reach : after.reach = f.reach
  expander : after.expander = f.expander
  poisoned : after.poisoned = f.poisoned
  progress : f.input.reader.toCome = [] ∧ after.ended = true ∨
    f.taken ≠ [] ∧ after.ended = f.ended

theorem answer_refuses {f : FilterStream} {token expression : Text} {failure : Failure}
    {session : Session} (h : f.answer token expression = some (.error failure, session)) :
    f.expander.Refuses failure := by
  rw [answer] at h
  split at h
  · obtain ⟨filled, hFilled, hSame⟩ := Option.bind_eq_some_iff.mp h
    obtain ⟨hFails, _⟩ := Prod.mk.inj (Option.some.inj hSame)
    exact Expander.refuses_of_fillSegments
      (hFilled.trans (congrArg some (Prod.ext (eq_error_of_map hFails) rfl)))
  · exact Expander.refuses_of_resolve h

theorem exists_endless_of_answer {f : FilterStream} {token expression : Text}
    (h : f.answer token expression = none) :
    ∃ (session : Session) (expression : Text), f.expander.resolve session expression = none := by
  rw [answer] at h
  split at h
  · cases hFilled : f.expander.interpolate f.session token with
    | none => exact Expander.exists_endless_of_fillSegments hFilled
    | some filled =>
        rw [hFilled] at h
        cases h
  · exact ⟨f.session, expression, h⟩

variable {f g after : FilterStream}

theorem advances (hReach : 0 < f.reach) (hScan : f.scan = some (.ok (), after)) :
    f.Advances after := by
  have hScanned := f.scanned hReach
  -- Whatever the segment turns into, it is what the scan took.
  have hMoves : ∀ (segment text : Text) (input : Lookahead) (session : Session), segment ≠ [] →
      f.Takes segment input →
      f.Advances { f with input := input, session := session, pending := text } := by
    intro segment text input session hSome hTakes
    obtain ⟨hTaken, hFits, hPassed⟩ := hTakes
    rw [← hTaken] at hSome hFits hPassed
    exact ⟨hPassed, hFits, rfl, rfl, rfl, .inr ⟨hSome, rfl⟩⟩
  rw [hScan] at hScanned
  cases hScanned with
  | ended hEnd hTakes =>
      obtain ⟨hTaken, hFits, hPassed⟩ := hTakes
      rw [← hTaken] at hFits hPassed
      exact ⟨hPassed, hFits, rfl, rfl, rfl, .inl ⟨hEnd, rfl⟩⟩
  | literal hSome hTakes => exact hMoves _ _ _ f.session hSome hTakes
  | escaped hMarker hTakes =>
      rename_i marker d input
      refine hMoves _ _ _ f.session (fun hNil => ?_) hTakes
      exact d.opening_ne_nil (List.append_eq_nil_iff.mp hNil).2
  | answered hTakes hAnswer =>
      rename_i d expression value session input
      refine hMoves _ _ _ session (fun hNil => ?_) hTakes
      exact d.closing_ne_nil (List.append_eq_nil_iff.mp hNil).2

theorem fails_of_scan {failure : Failure} (hReach : 0 < f.reach)
    (hScan : f.scan = some (.error failure, after)) :
    after.reach = f.reach ∧ (f.input.reader.MayFail failure ∨ f.expander.Refuses failure) := by
  have hScanned := f.scanned hReach
  rw [hScan] at hScanned
  cases hScanned with
  | unread hFails => exact ⟨rfl, .inl hFails⟩
  | unanswered hAnswer => exact ⟨rfl, .inr (answer_refuses hAnswer)⟩

/-- A scan, even one that fails, only reads on. -/
theorem passed_of_scan {result : Except Failure Unit} (hReach : 0 < f.reach)
    (hScan : f.scan = some (result, after)) :
    ∃ seen, f.input.reader.Passed seen after.input.reader := by
  have hScanned := f.scanned hReach
  rw [hScan] at hScanned
  cases hScanned with
  | ended _ hTakes => exact ⟨_, hTakes.passed⟩
  | literal _ hTakes => exact ⟨_, hTakes.passed⟩
  | escaped _ hTakes => exact ⟨_, hTakes.passed⟩
  | answered hTakes _ => exact ⟨_, hTakes.passed⟩
  | unread _ hPassed => exact ⟨_, hPassed⟩
  | unanswered _ hPassed => exact ⟨_, hPassed⟩

theorem exists_endless_of_scan (hReach : 0 < f.reach) (hScan : f.scan = none) :
    ∃ (session : Session) (expression : Text), f.expander.resolve session expression = none := by
  have hScanned := f.scanned hReach
  rw [hScan] at hScanned
  cases hScanned with
  | endless hAnswer => exact exists_endless_of_answer hAnswer

/-- What is left to read, and the end of the input to notice. -/
def unread (f : FilterStream) : Nat :=
  f.input.reader.toCome.length + if f.ended then 0 else 1

theorem Advances.unread_lt (h : f.Advances after) (hEnded : f.ended = false) :
    after.unread < f.unread := by
  have hLength := congrArg List.length h.passed.text
  rw [List.length_append] at hLength
  rcases h.progress with ⟨hEnd, hNow⟩ | ⟨hSome, hSame⟩
  · rw [unread, unread, hEnded, hNow]
    simp only [if_true, Bool.false_eq_true, if_false]
    omega
  · have hPos := List.length_pos_iff.mpr hSome
    rw [unread, unread, hSame]
    omega

/-- Reading from a filter, scan by scan: what holds of each way a read can end, and passes from
behind a scan to the front of it, holds of every read. -/
theorem next_induct {P : FilterStream → Option (Except Failure (Option Char) × FilterStream) → Prop}
    (hand : ∀ f : FilterStream, ∀ c rest, f.pending = c :: rest →
      P f (some (.ok (some c), { f with pending := rest })))
    (ended : ∀ f : FilterStream, f.pending = [] → f.ended = true → P f (some (.ok none, f)))
    (endless : ∀ f : FilterStream, 0 < f.reach → f.pending = [] → f.ended = false →
      f.scan = none → P f none)
    (failed : ∀ (f after : FilterStream) failure, 0 < f.reach → f.pending = [] → f.ended = false →
      f.scan = some (.error failure, after) →
      P f (some (.error failure, { after with poisoned := true })))
    (scan : ∀ f after : FilterStream, 0 < f.reach → f.pending = [] → f.ended = false →
      f.scan = some (.ok (), after) → P after after.next → P f after.next)
    (f : FilterStream) (hReach : 0 < f.reach) : P f f.next := by
  induction hLeft : f.unread using Nat.strongRecOn generalizing f with
  | ind n ih =>
      subst hLeft
      cases hPending : f.pending with
      | cons c rest =>
          rw [next_of_pending hPending]
          exact hand f c rest hPending
      | nil =>
          cases hEnded : f.ended with
          | true =>
              rw [next_of_ended hPending hEnded]
              exact ended f hPending hEnded
          | false =>
              cases hScan : f.scan with
              | none =>
                  rw [next_of_endless hPending hEnded hScan]
                  exact endless f hReach hPending hEnded hScan
              | some scanned =>
                  obtain ⟨result, after⟩ := scanned
                  cases result with
                  | error failure =>
                      rw [next_of_failed hPending hEnded hScan]
                      exact failed f after failure hReach hPending hEnded hScan
                  | ok done =>
                      have hAdvances := advances hReach hScan
                      have hLess := hAdvances.unread_lt hEnded
                      have hNext := ih _ hLess after (hAdvances.reach ▸ hReach) rfl
                      rw [next_of_scan hPending hEnded hScan]
                      exact scan f after hReach hPending hEnded hScan hNext

/-- `g` is what reads that went well leave of `f`, or one of the states in between, and the scans
until then stepped over `segments`. -/
inductive Reaches (f : FilterStream) : List Text → FilterStream → Prop
  | start : Reaches f [] f
  | handOut {segments : List Text} {g : FilterStream} {c : Char} {rest : Text}
      (hReaches : Reaches f segments g) (hPending : g.pending = c :: rest) :
      Reaches f segments { g with pending := rest }
  | scan {segments : List Text} {g after : FilterStream} (hReaches : Reaches f segments g)
      (hPending : g.pending = []) (hEnded : g.ended = false)
      (hScan : g.scan = some (.ok (), after)) : Reaches f (segments ++ [g.taken]) after

theorem Reaches.trans {segments more : List Text} (h : f.Reaches segments g)
    (h' : g.Reaches more after) : f.Reaches (segments ++ more) after := by
  induction h' with
  | start => exact (List.append_nil segments).symm ▸ h
  | handOut _ hPending ih => exact .handOut ih hPending
  | scan _ hPending hEnded hScan ih =>
      rw [← List.append_assoc]
      exact .scan ih hPending hEnded hScan

/-- What stays and what has passed on the way. -/
structure Followed (f : FilterStream) (segments : List Text) (g : FilterStream) : Prop where
  passed : f.input.reader.Passed segments.flatten g.input.reader
  reach : g.reach = f.reach
  expander : g.expander = f.expander
  poisoned : g.poisoned = f.poisoned

theorem Reaches.followed {segments : List Text} (h : f.Reaches segments g) (hReach : 0 < f.reach) :
    f.Followed segments g := by
  induction h with
  | start => exact ⟨TextReader.Passed.refl _, rfl, rfl, rfl⟩
  | handOut _ _ ih => exact ⟨ih.passed, ih.reach, ih.expander, ih.poisoned⟩
  | scan _ _ _ hScan ih =>
      have hAdvances := advances (ih.reach ▸ hReach) hScan
      refine ⟨?_, hAdvances.reach.trans ih.reach, hAdvances.expander.trans ih.expander,
        hAdvances.poisoned.trans ih.poisoned⟩
      rw [List.flatten_append, List.flatten_singleton]
      exact ih.passed.trans hAdvances.passed

/-- What a read can come to: a state that is reached, a failure that reading or a source meets, or
an expansion that never ends. -/
def Arrives (f : FilterStream) : Option (Except Failure (Option Char) × FilterStream) → Prop
  | none => ∃ (session : Session) (expression : Text), f.expander.resolve session expression = none
  | some (.error failure, after) => after.poisoned = true ∧ after.reach = f.reach ∧
    (f.input.reader.MayFail failure ∨ f.expander.Refuses failure)
  | some (.ok _, after) => ∃ segments, f.Reaches segments after

theorem next_arrives (f : FilterStream) (hReach : 0 < f.reach) : f.Arrives f.next := by
  apply next_induct _ _ _ _ _ f hReach
  · intro f c rest hPending
    exact ⟨[], .handOut .start hPending⟩
  · intro f _ _
    exact ⟨[], .start⟩
  · intro f hReach _ _ hScan
    exact exists_endless_of_scan hReach hScan
  · intro f after failure hReach _ _ hScan
    obtain ⟨hSame, hFails⟩ := fails_of_scan hReach hScan
    exact ⟨rfl, hSame, hFails⟩
  · intro f after hReach hPending hEnded hScan hNext
    have hAdvances := advances hReach hScan
    cases hOutcome : after.next with
    | none =>
        rw [hOutcome, Arrives, hAdvances.expander] at hNext
        exact hNext
    | some read =>
        rw [hOutcome] at hNext
        obtain ⟨result, later⟩ := read
        cases result with
        | error failure =>
            obtain ⟨hPoisoned, hLater, hFails⟩ := hNext
            refine ⟨hPoisoned, hLater.trans hAdvances.reach, ?_⟩
            rw [hAdvances.expander] at hFails
            exact hFails.imp_left fun hMay => hMay.of_passed hAdvances.passed
        | ok char =>
            obtain ⟨segments, hReaches⟩ := hNext
            exact ⟨_, (Reaches.scan .start hPending hEnded hScan).trans hReaches⟩

theorem readChar_arrives (hReach : 0 < f.reach) (hSound : f.poisoned = false) :
    f.Arrives f.readChar := by
  rw [readChar_of_sound hSound]
  exact f.next_arrives hReach

/-- A failure that reads report is one of the input or of a source, or says that there was one. -/
theorem fails_of_reads (hReach : 0 < f.reach) {count : Nat} {readings : Readings}
    (h : f.reads count = some readings) {failure : Failure} (hMem : .error failure ∈ readings) :
    failure = .poisoned ∨ f.input.reader.MayFail failure ∨ f.expander.Refuses failure := by
  cases hSound : f.poisoned with
  | true =>
      obtain rfl := Option.some.inj ((reads_of_poisoned hSound count).symm.trans h)
      exact .inl (Except.error.inj (List.eq_of_mem_replicate hMem))
  | false =>
      induction count generalizing f readings with
      | zero =>
          cases h
          cases hMem
      | succ count ih =>
          have hArrives := readChar_arrives hReach hSound
          obtain ⟨⟨result, after⟩, hRead, hThen⟩ := Option.bind_eq_some_iff.mp h
          obtain ⟨later, hLater, hSame⟩ := Option.bind_eq_some_iff.mp hThen
          obtain rfl := Option.some.inj hSame
          rw [hRead] at hArrives
          cases result with
          | error met =>
              obtain ⟨hPoisoned, _, hFails⟩ := hArrives
              rcases List.mem_cons.mp hMem with hHere | hMore
              · exact .inr (Except.error.inj hHere ▸ hFails)
              · have hRefused := reads_of_poisoned hPoisoned count
                obtain rfl := Option.some.inj (hRefused.symm.trans hLater)
                exact .inl (Except.error.inj (List.eq_of_mem_replicate hMore))
          | ok char =>
              obtain ⟨segments, hReaches⟩ := hArrives
              have hFollowed := hReaches.followed hReach
              rcases List.mem_cons.mp hMem with hHere | hMore
              · cases hHere
              · have hFails := ih (hFollowed.reach ▸ hReach) hLater hMore
                  (hFollowed.poisoned.trans hSound)
                rw [hFollowed.expander] at hFails
                exact hFails.imp_right (Or.imp_left (·.of_passed hFollowed.passed))

/-- What reads make of an input `text`. The filter `g` is reached from its start, and `segments` is
what the scans stepped over on the way. -/
structure Accounts (f : FilterStream) (text : Text) (segments : List Text) (g : FilterStream) :
    Prop where
  /-- No character is passed over and none is scanned twice. -/
  whole : segments.flatten ++ g.input.reader.toCome = text
  /-- So it is with what the reader of the input gives, if it comes to the end. -/
  given : ∀ rest, g.input.reader.readAll.1 = (rest, none) → segments.flatten ++ rest = text
  /-- A scan looks no further than its reach. -/
  within : ∃ seen, seen.length ≤ f.reach ∧ g.input.reader.toCome = seen ++ g.look.2.reader.toCome
  /-- A scan steps over no more than that, and over something unless it notices the end. -/
  progress : ∀ after, g.scan = some (.ok (), after) → g.taken.length ≤ f.reach ∧
    (g.taken ≠ [] ∨ g.input.reader.toCome = [] ∧ after.ended = true)
  /-- A read ends unless an expansion does not. -/
  ends : g.readChar = none →
    ∃ (session : Session) (expression : Text), g.expander.resolve session expression = none
  /-- A read that goes well leads on. -/
  leads : ∀ char after, g.readChar = some (.ok char, after) →
    ∃ more, f.Reaches (segments ++ more) after

theorem accounts_of_reaches {segments : List Text} (hReach : 0 < f.reach)
    (hSound : f.poisoned = false) (h : f.Reaches segments g) :
    f.Accounts f.input.reader.toCome segments g := by
  have hFollowed := h.followed hReach
  have hHere : 0 < g.reach := hFollowed.reach ▸ hReach
  have hArrives := readChar_arrives hHere (hFollowed.poisoned.trans hSound)
  constructor
  case whole => exact hFollowed.passed.text.symm
  case given =>
    intro rest hAll
    rw [TextReader.eq_of_readAll hAll]
    exact hFollowed.passed.text.symm
  case within =>
    obtain ⟨seen, hSince⟩ := g.look_since hHere
    exact ⟨seen, hFollowed.reach ▸ hSince.length_le, hSince.passed.text⟩
  case progress =>
    intro after hScan
    have hAdvances := advances hHere hScan
    refine ⟨hFollowed.reach ▸ hAdvances.fits, ?_⟩
    exact hAdvances.progress.symm.imp_left And.left
  case ends =>
    intro hNever
    rw [hNever] at hArrives
    exact hArrives
  case leads =>
    intro char after hRead
    rw [hRead] at hArrives
    obtain ⟨more, hMore⟩ := hArrives
    exact ⟨more, h.trans hMore⟩

/-- Reads of a filter account for every character of its input, and going back to a mark never
fails: a source that answers with such a failure is all it can come from. -/
theorem accounts_of_make {options : FilterOptions} {x : Expander} {s : Session}
    {reader : TextReader} (hMake : make options x s reader = .ok f) :
    (∀ count readings, f.reads count = some readings → .error .invalidMark ∈ readings →
      x.Refuses .invalidMark) ∧
    ∀ segments g, f.Reaches segments g → f.Accounts reader.toCome segments g := by
  obtain ⟨markup, _, rfl⟩ := eq_of_make hMake
  have hReach := options.reach_pos markup
  constructor
  · intro count readings hReads hMem
    rcases fails_of_reads hReach hReads hMem with hPoisoned | hMay | hRefuses
    · cases hPoisoned
    · exact absurd rfl hMay.ne_invalidMark
    · exact hRefuses
  · intro segments g hReaches
    exact accounts_of_reaches hReach rfl hReaches

/-- A filter on an input that breaks off in an ill-formed sequence, with an empty value. -/
theorem accounts_of_make_broken_off :
    ∃ f : FilterStream,
      make .standard ⟨[.single ['a'] []], [], .standard, true, false⟩ (.fresh .empty)
        (.ofFeed ⟨[.bytes 0x40 [0x61, 0x40], .interrupted, .bytes 0xE2 [0x82]], .closed⟩) = .ok f ∧
      (∀ count readings, f.reads count = some readings → .error .invalidMark ∈ readings →
        Expander.Refuses ⟨[.single ['a'] []], [], .standard, true, false⟩ .invalidMark) ∧
      ∀ segments g, f.Reaches segments g →
        f.Accounts (TextReader.ofFeed
          ⟨[.bytes 0x40 [0x61, 0x40], .interrupted, .bytes 0xE2 [0x82]], .closed⟩).toCome
          segments g := by
  obtain ⟨f, hMake⟩ : ∃ f : FilterStream,
      make .standard ⟨[.single ['a'] []], [], .standard, true, false⟩ (.fresh .empty)
        (.ofFeed ⟨[.bytes 0x40 [0x61, 0x40], .interrupted, .bytes 0xE2 [0x82]], .closed⟩) = .ok f :=
    ⟨_, rfl⟩
  exact ⟨f, hMake, accounts_of_make hMake⟩

end Placeholder.FilterStream
