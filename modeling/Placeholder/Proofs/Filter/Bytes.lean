import Placeholder.Proofs.Filter.Outflow
import Placeholder.Proofs.Filter.Output
import Placeholder.Proofs.Text.Spelling
/-!
Reading a filter as bytes. Whatever the sizes of the buffers, it replies as its whole output does:
the bytes are those of the characters, in order, and what ends the characters is reported behind all
of them. Single characters may be read in between where no character is delivered in part.
-/
namespace Placeholder

namespace FilterStream

/-- The filter still delivers what is left of an output: first the rest of a character that was
delivered in part. -/
structure Conveys (f : FilterStream) (o : Outflow) : Prop where
  reach : 0 < f.reach
  waiting : f.deferred = o.waiting
  flows : ∃ text, f.Flows ⟨text, o.stop⟩ ∧ o.bytes = f.leftover ++ Utf8.encodeText text
  inside : ∀ byte ∈ f.leftover, Utf8.width byte = 0

variable {f : FilterStream} {o : Outflow}

/-- No character is delivered in part. -/
theorem conveys_of_whole {text : Text} (hReach : 0 < f.reach) (hWaiting : f.deferred = o.waiting)
    (hFlows : f.Flows ⟨text, o.stop⟩) (hBytes : o.bytes = Utf8.encodeText text)
    (hLeftover : f.leftover = []) : f.Conveys o where
  reach := hReach
  waiting := hWaiting
  flows := ⟨text, hFlows, by rw [hLeftover, hBytes, List.nil_append]⟩
  inside byte hMem := by
    rw [hLeftover] at hMem
    cases hMem

/-- Once a failure was met, everything is refused. -/
theorem conveys_refusing (hReach : 0 < f.reach) (hPoisoned : f.poisoned = true)
    (hLeftover : f.leftover = []) : f.Conveys (.refusing f.deferred f.session) :=
  conveys_of_whole hReach rfl (flows_of_poisoned hPoisoned) rfl hLeftover

/-- A filter and what is left of an output answer alike, and go on alike. -/
def Alike {α : Type} : Option (α × FilterStream) → Option (α × Outflow) → Prop :=
  Option.Rel fun one other => one.1 = other.1 ∧ one.2.Conveys other.2

/-- A read of a character, where none is delivered in part. -/
theorem Conveys.readChar (h : f.Conveys o) (hLeftover : f.leftover = []) :
    Alike f.readChar o.char := by
  obtain ⟨hReach, hWaiting, ⟨text, hFlows, hBytes⟩, _⟩ := h
  rw [hLeftover, List.nil_append] at hBytes
  obtain ⟨waiting, bytes, stop⟩ := o
  subst hBytes hWaiting
  rw [Outflow.char]
  cases hFlows with
  | char hRead hLater =>
      obtain ⟨hNone, hSame⟩ := held_of_readChar hReach hRead
      rw [Utf8.encodeText_cons, Utf8.first?_encode, hRead]
      refine .some ⟨rfl, conveys_of_whole (reach_of_readChar hReach hRead) hSame hLater ?_
        (hNone.trans hLeftover)⟩
      exact List.drop_left
  | ended hRead hAgain =>
      obtain ⟨hNone, hSame⟩ := held_of_readChar hReach hRead
      rw [hRead]
      exact .some ⟨rfl, conveys_of_whole (reach_of_readChar hReach hRead) hSame
        (.ended hAgain hAgain) rfl (hNone.trans hLeftover)⟩
  | failed hRead hPoisoned =>
      obtain ⟨hNone, hSame⟩ := held_of_readChar hReach hRead
      rw [hRead]
      refine .some ⟨rfl, ?_⟩
      rw [← hSame]
      exact conveys_refusing (reach_of_readChar hReach hRead) hPoisoned (hNone.trans hLeftover)
  | endless hRead =>
      rw [hRead]
      exact .none

/-- A byte that is left is delivered. -/
theorem Conveys.readByte (h : f.Conveys o) {byte : UInt8} {rest : Bytes}
    (hBytes : o.bytes = byte :: rest) :
    ∃ g, f.readByte = some (.ok (some byte), g) ∧ g.Conveys { o with bytes := rest } := by
  obtain ⟨hReach, hWaiting, ⟨text, hFlows, hLeft⟩, hInside⟩ := h
  rw [FilterStream.readByte]
  cases hLeftover : f.leftover with
  | cons first more =>
      rw [hLeftover] at hLeft hInside
      obtain ⟨rfl, rfl⟩ := List.cons.inj (hBytes.symm.trans hLeft)
      refine ⟨_, rfl, hReach, hWaiting, ⟨text, ?_, rfl⟩, ?_⟩
      · exact hFlows.holding hReach more f.deferred
      · exact fun byte hMem => hInside byte (List.mem_cons_of_mem _ hMem)
  | nil =>
      rw [hLeftover, List.nil_append, hBytes] at hLeft
      cases text with
      | nil => cases hLeft
      | cons c text =>
          obtain ⟨lead, more, hEncode, _⟩ := Utf8.encode_eq_lead_cons c
          rw [Utf8.encodeText_cons, hEncode, List.cons_append] at hLeft
          obtain ⟨rfl, rfl⟩ := List.cons.inj hLeft
          cases hFlows with
          | char hRead hLater =>
              rename_i after
              obtain ⟨_, hSame⟩ := held_of_readChar hReach hRead
              have hNow := reach_of_readChar hReach hRead
              refine ⟨{ after with leftover := more }, ?_, hNow, hSame.trans hWaiting,
                ⟨text, hLater.holding hNow more after.deferred, rfl⟩, ?_⟩
              · simp only [hRead, Option.bind_eq_bind, Option.bind_some, hEncode]
                rfl
              · exact fun byte hMem => Utf8.width_eq_zero_of_encode hEncode hMem

/-- Where no bytes are left, a read of a byte meets what follows them. -/
theorem Conveys.flows_nil (h : f.Conveys o) (hBytes : o.bytes = []) :
    f.leftover = [] ∧ f.Flows ⟨[], o.stop⟩ := by
  obtain ⟨_, _, ⟨text, hFlows, hLeft⟩, _⟩ := h
  obtain ⟨hLeftover, hText⟩ := List.append_eq_nil_iff.mp (hLeft.symm.trans hBytes)
  have hLength := Utf8.length_le_encodeText text
  rw [hText, List.length_nil, Nat.le_zero, List.length_eq_zero_iff] at hLength
  exact ⟨hLeftover, hLength ▸ hFlows⟩

/-- A buffer is filled from the bytes that are left. -/
theorem Conveys.readBytesOnto_front (h : f.Conveys o) {front back : Bytes}
    (hBytes : o.bytes = front ++ back) :
    ∃ g, g.Conveys { o with bytes := back } ∧ ∀ more seen,
      readBytesOnto (front.length + more) seen f =
        readBytesOnto more (front.reverse ++ seen) g := by
  induction front generalizing f o with
  | nil =>
      refine ⟨f, ?_, fun more seen => ?_⟩
      · rw [← List.nil_append back, ← hBytes]
        exact h
      · rw [List.length_nil, Nat.zero_add]
        rfl
  | cons byte front ih =>
      obtain ⟨next, hRead, hNext⟩ := h.readByte hBytes
      obtain ⟨g, hConveys, hFill⟩ := ih hNext rfl
      refine ⟨g, hConveys, fun more seen => ?_⟩
      rw [List.length_cons, Nat.add_right_comm, readBytesOnto, hRead]
      simp only [Option.bind_eq_bind, Option.bind_some, hFill, List.reverse_cons, List.append_assoc,
        List.singleton_append]

/-- A read that the bytes do not fill meets what follows them. -/
theorem Conveys.readBytesOnto_end (h : f.Conveys o) (hBytes : o.bytes = [])
    (hWaiting : o.waiting = none) (n : Nat) (seen : Bytes) :
    Alike (readBytesOnto (n + 1) seen f)
      (match o.stop with
      | .ended _ => some (.ok seen.reverse, o)
      | .endless => none
      | .failed failure session =>
        if seen = [] then some (.error failure, .refusing none session)
        else some (.ok seen.reverse, .refusing (some failure) session)) := by
  obtain ⟨hLeftover, hFlows⟩ := h.flows_nil hBytes
  have hReach := h.reach
  have hDeferred := h.waiting
  obtain ⟨waiting, bytes, stop⟩ := o
  subst hBytes hWaiting
  rw [readBytesOnto, FilterStream.readByte, hLeftover]
  cases hFlows with
  | ended hRead hAgain =>
      obtain ⟨hNone, hSame⟩ := held_of_readChar hReach hRead
      rw [hRead]
      exact .some ⟨rfl, conveys_of_whole (reach_of_readChar hReach hRead) (hSame.trans hDeferred)
        (.ended hAgain hAgain) rfl (hNone.trans hLeftover)⟩
  | failed hRead hPoisoned =>
      rename_i after failure
      obtain ⟨hNone, hSame⟩ := held_of_readChar hReach hRead
      have hNow := reach_of_readChar hReach hRead
      have hEmpty := hNone.trans hLeftover
      rw [hRead]
      cases seen with
      | nil =>
          refine .some ⟨rfl, ?_⟩
          have hRefusing := conveys_refusing hNow hPoisoned hEmpty
          rwa [hSame.trans hDeferred] at hRefusing
      | cons byte seen =>
          exact .some ⟨rfl, conveys_refusing (f := { after with deferred := some failure }) hNow
            hPoisoned hEmpty⟩
  | endless hRead =>
      rw [hRead]
      exact .none

/-- A read of bytes. -/
theorem Conveys.readBytes (h : f.Conveys o) (room : Nat) :
    Alike (f.readBytes room) (o.read room) := by
  have hDeferred := h.waiting
  rw [FilterStream.readBytes, Outflow.read, hDeferred]
  cases hWaiting : o.waiting with
  | some failure =>
      obtain ⟨text, hFlows, hBytes⟩ := h.flows
      refine .some ⟨rfl, h.reach, rfl, ⟨text, ?_, hBytes⟩, h.inside⟩
      exact hFlows.holding h.reach f.leftover none
  | none =>
      by_cases hFits : room ≤ o.bytes.length
      · have hLength : (o.bytes.take room).length = room := by
          rw [List.length_take, Nat.min_eq_left hFits]
        obtain ⟨g, hConveys, hFill⟩ :=
          h.readBytesOnto_front (List.take_append_drop room o.bytes).symm
        have hRead := hFill 0 []
        rw [hLength, Nat.add_zero, List.append_nil, readBytesOnto, List.reverse_reverse] at hRead
        simp only [hRead, if_pos hFits]
        rw [hWaiting] at hConveys
        exact .some ⟨rfl, hConveys⟩
      · obtain ⟨n, hRoom⟩ : ∃ n, room = o.bytes.length + (n + 1) :=
          ⟨room - o.bytes.length - 1, by omega⟩
        obtain ⟨g, hConveys, hFill⟩ := h.readBytesOnto_front (List.append_nil o.bytes).symm
        have hRead := hFill (n + 1) []
        rw [← hRoom, List.append_nil] at hRead
        simp only [hRead, if_neg hFits]
        have hEnd := hConveys.readBytesOnto_end rfl hWaiting n o.bytes.reverse
        simp only [List.reverse_reverse, List.reverse_eq_nil_iff, hWaiting] at hEnd
        exact hEnd

/-- Where the bytes that are left are those of a text, no character is delivered in part. -/
theorem Conveys.leftover_nil (h : f.Conveys o) {text : Text}
    (hBytes : o.bytes = Utf8.encodeText text) : f.leftover = [] := by
  obtain ⟨_, _, ⟨later, _, hLeft⟩, hInside⟩ := h
  cases hLeftover : f.leftover with
  | nil => rfl
  | cons byte rest =>
      rw [hLeftover] at hLeft hInside
      have hNone := Utf8.first?_of_width_zero (hInside byte (List.mem_cons_self ..))
        (rest ++ Utf8.encodeText later)
      rw [← List.cons_append, ← hLeft, hBytes] at hNone
      cases text with
      | nil => cases hBytes.symm.trans hLeft
      | cons c text =>
          rw [Utf8.encodeText_cons, Utf8.first?_encode] at hNone
          cases hNone

theorem Alike.map {α β : Type} {one : Option (α × FilterStream)} {other : Option (α × Outflow)}
    (h : Alike one other) (shown : α → β) :
    Alike (one.map fun read => (shown read.1, read.2))
      (other.map fun read => (shown read.1, read.2)) := by
  cases h with
  | none => exact .none
  | some hBoth => exact .some ⟨congrArg shown hBoth.1, hBoth.2⟩

theorem Alike.bind {α β : Type} {one : Option (α × FilterStream)} {other : Option (α × Outflow)}
    (h : Alike one other) {go : α × FilterStream → Option β} {goOn : α × Outflow → Option β}
    (hGo : ∀ shown f o, other = some (shown, o) → f.Conveys o → go (shown, f) = goOn (shown, o)) :
    one.bind go = other.bind goOn := by
  cases h with
  | none => rfl
  | some hBoth =>
      rename_i read answer
      obtain ⟨shown, f⟩ := read
      obtain ⟨_, o⟩ := answer
      obtain ⟨rfl, hConveys⟩ := hBoth
      exact hGo shown f o rfl hConveys

theorem Conveys.reply (h : f.Conveys o) {call : Call}
    (hWhole : call = .char → ∃ text, o.bytes = Utf8.encodeText text) :
    Alike (f.reply call) (o.reply call) := by
  cases call with
  | bytes room =>
      exact (h.readBytes room).map fun result => Reply.bytes (result.mapError Failure.toIo)
  | char =>
      obtain ⟨text, hBytes⟩ := hWhole rfl
      exact (h.readChar (h.leftover_nil hBytes)).map Reply.char

/-- Whatever the calls, a filter replies as the whole output does. -/
theorem Conveys.replies (h : f.Conveys o) {calls : List Call} (hAdmits : o.Admits calls) :
    (repliesOf FilterStream.reply calls f).map Prod.fst =
      (repliesOf Outflow.reply calls o).map Prod.fst := by
  induction calls generalizing f o with
  | nil => rfl
  | cons call rest ih =>
      obtain ⟨hWhole, hRest⟩ := hAdmits
      rw [fst_repliesOf_cons, fst_repliesOf_cons]
      apply (h.reply hWhole).bind
      intro first g left hFirst hConveys
      rw [ih hConveys (hRest _ hFirst)]

/-- Reads of bytes, in buffers of any sizes, deliver the bytes of the characters that reading
characters alone gives, in order, and what ends these behind them. A failure is reported once: if a
read met it behind some bytes, by the next read of bytes; otherwise by the first call that asks for
a further character. -/
theorem replies_of_make {options : FilterOptions} {x : Expander} {s : Session}
    {reader : TextReader} {f : FilterStream} (hMake : make options x s reader = .ok f) :
    ∃ out : Rendering, (∀ count, f.reads count = out.reads count) ∧
      (∀ calls, (Outflow.ofRendering out).Admits calls →
        (repliesOf FilterStream.reply calls f).map Prod.fst =
            (repliesOf Outflow.reply calls (.ofRendering out)).map Prod.fst ∧
          ∀ given left, repliesOf Outflow.reply calls (.ofRendering out) = some (given, left) →
            Outflow.Delivers out given left) ∧
      ∀ failure session, out.stop = .failed failure session →
        (∀ kind inner, failure ≠ .io (.carrying kind inner)) →
        Failure.ofIo failure.toIo = failure := by
  obtain ⟨markup, _, hSame⟩ := eq_of_make hMake
  have hReach : 0 < f.reach := hSame ▸ options.reach_pos markup
  obtain ⟨out, hFlows⟩ := f.exists_flows hReach
  have hConveys : f.Conveys (.ofRendering out) := by
    apply conveys_of_whole hReach _ hFlows rfl
    · rw [hSame]
    · rw [hSame]
      rfl
  refine ⟨out, hFlows.reads, ?_, ?_⟩
  · intro calls hAdmits
    exact ⟨hConveys.replies hAdmits, fun given left => Outflow.delivers_of_replies hAdmits⟩
  · intro failure session _ hOther
    exact Failure.ofIo_toIo hOther

/-- A filter on an input that breaks off at once. -/
theorem replies_of_make_broken_off :
    ∃ f : FilterStream,
      make .standard ⟨[], [], .standard, false, false⟩ (.fresh .empty)
        (.ofFeed ⟨[.bytes 0x61 [0x62, 0xFF]], .closed⟩) = .ok f ∧
      ∃ out : Rendering, (∀ count, f.reads count = out.reads count) ∧
        (∀ calls, (Outflow.ofRendering out).Admits calls →
          (repliesOf FilterStream.reply calls f).map Prod.fst =
              (repliesOf Outflow.reply calls (.ofRendering out)).map Prod.fst ∧
            ∀ given left, repliesOf Outflow.reply calls (.ofRendering out) = some (given, left) →
              Outflow.Delivers out given left) ∧
        ∀ failure session, out.stop = .failed failure session →
          (∀ kind inner, failure ≠ .io (.carrying kind inner)) →
          Failure.ofIo failure.toIo = failure := by
  obtain ⟨f, hMake⟩ : ∃ f : FilterStream,
      make .standard ⟨[], [], .standard, false, false⟩ (.fresh .empty)
        (.ofFeed ⟨[.bytes 0x61 [0x62, 0xFF]], .closed⟩) = .ok f :=
    ⟨_, rfl⟩
  exact ⟨f, hMake, replies_of_make hMake⟩

/-- The read of bytes that follows the bytes in front of a failure need not report it: if it has no
room it is answered at once, and a read of a character in between meets the failure itself. -/
theorem next_read_need_not_report :
    ∃ f : FilterStream,
      make .standard ⟨[], [], .standard, false, false⟩ (.fresh .empty)
        (.ofFeed ⟨[.bytes 0x61 [0x62, 0xFF]], .closed⟩) = .ok f ∧
      f.reads 2 = some [.ok (some 'a'), .error (.invalidUtf8 2)] ∧
      (repliesOf FilterStream.reply [.bytes 1, .bytes 0] f).map Prod.fst =
        some [.bytes (.ok [0x61]), .bytes (.ok [])] ∧
      (repliesOf FilterStream.reply [.bytes 1, .char, .bytes 1] f).map Prod.fst =
        some [.bytes (.ok [0x61]), .char (.error (.invalidUtf8 2)),
          .bytes (.error Failure.poisoned.toIo)] := by
  obtain ⟨f, hMake⟩ : ∃ f : FilterStream,
      make .standard ⟨[], [], .standard, false, false⟩ (.fresh .empty)
        (.ofFeed ⟨[.bytes 0x61 [0x62, 0xFF]], .closed⟩) = .ok f :=
    ⟨_, rfl⟩
  refine ⟨f, hMake, ?_⟩
  -- The first scan passes the `a` on, the second one fails.
  obtain ⟨g, h, hScan, hSound, hEnded, hPending, hFail⟩ : ∃ g h : FilterStream,
      f.scan = some (.ok (), g) ∧ g.poisoned = false ∧ g.ended = false ∧ g.pending = ['a'] ∧
      { g with pending := [] }.scan = some (.error (.invalidUtf8 2), h) := by
    obtain ⟨markup, hMarkup, rfl⟩ := eq_of_make hMake
    cases hMarkup
    exact ⟨_, _, rfl, rfl, rfl, rfl, rfl⟩
  obtain ⟨hFresh, hOpen, hNone, hReach, hHeld, hWhole⟩ : f.poisoned = false ∧ f.ended = false ∧
      f.pending = [] ∧ 0 < f.reach ∧ f.deferred = none ∧ f.leftover = [] := by
    obtain ⟨markup, _, rfl⟩ := eq_of_make hMake
    exact ⟨rfl, rfl, rfl, FilterOptions.reach_pos _ markup, rfl, rfl⟩
  have hFirst : f.readChar = some (.ok (some 'a'), { g with pending := [] }) := by
    rw [readChar_of_sound hFresh, next_of_scan hNone hOpen hScan, next_of_pending hPending]
  obtain ⟨after, hSecond, hPoisoned⟩ : ∃ after : FilterStream,
      { g with pending := [] }.readChar = some (.error (.invalidUtf8 2), after) ∧
        after.poisoned = true := by
    have hRead := readChar_of_sound (f := { g with pending := [] }) hSound
    exact ⟨_, hRead.trans (next_of_failed rfl hEnded hFail), rfl⟩
  have hFlows : f.Flows ⟨['a'], .failed (.invalidUtf8 2) after.session⟩ :=
    .char hFirst (.failed hSecond hPoisoned)
  have hConveys : f.Conveys (.ofRendering ⟨['a'], .failed (.invalidUtf8 2) after.session⟩) :=
    conveys_of_whole hReach hHeld hFlows rfl hWhole
  refine ⟨hFlows.reads 2, hConveys.replies ?_, hConveys.replies ?_⟩
  · refine ⟨nofun, fun first _ => ⟨nofun, fun _ _ => trivial⟩⟩
  · refine ⟨nofun, fun first hFirst => ?_⟩
    cases hFirst
    exact ⟨fun _ => ⟨[], rfl⟩, fun second _ => ⟨nofun, fun _ _ => trivial⟩⟩

end FilterStream

end Placeholder
