import Placeholder.Proofs.Filter.Outflow
import Placeholder.Proofs.Filter.Output
/-!
What lasts however a filter is read. Only scans look at the input and ask for values; around them
characters, bytes and failures are handed out or held back. So what every scan keeps up, and what does
not depend on any of that, holds from before a run of reads to behind it.
-/
namespace Placeholder.FilterStream

variable {R : FilterStream → FilterStream → Prop} {f after : FilterStream}

/-- A relation that scans keep up and that what is handed out or held back does not matter to. -/
structure Lasting (R : FilterStream → FilterStream → Prop) : Prop where
  trans : ∀ {f g after}, R f g → R g after → R f after
  refl : ∀ f, R f f
  handOut : ∀ f pending, R f { f with pending := pending }
  poison : ∀ f, R f { f with poisoned := true }
  hold : ∀ f leftover, R f { f with leftover := leftover }
  defer : ∀ f deferred, R f { f with deferred := deferred }
  scan : ∀ {f after result}, 0 < f.reach → f.scan = some (result, after) → R f after

namespace Lasting

theorem always : Lasting fun _ _ => True :=
  ⟨fun _ _ => trivial, fun _ => trivial, fun _ _ => trivial, fun _ => trivial, fun _ _ => trivial,
    fun _ _ => trivial, fun _ _ => trivial⟩

theorem next {result : Except Failure (Option Char)} (h : Lasting R) (hReach : 0 < f.reach)
    (hRead : f.next = some (result, after)) : R f after := by
  suffices hAll : ∀ result after, f.next = some (result, after) → R f after from
    hAll result after hRead
  apply next_induct (P := fun f read => ∀ result after, read = some (result, after) → R f after)
    _ _ _ _ _ f hReach
  · rintro f c rest _ _ _ ⟨⟩
    exact h.handOut f rest
  · rintro f _ _ _ _ ⟨⟩
    exact h.refl f
  · rintro f _ _ _ _ _ _ ⟨⟩
  · rintro f failed failure hReach _ _ hScan _ _ ⟨⟩
    exact h.trans (h.scan hReach hScan) (h.poison failed)
  · intro f next hReach _ _ hScan ih result after hNext
    exact h.trans (h.scan hReach hScan) (ih result after hNext)

theorem readChar {result : Except Failure (Option Char)} (h : Lasting R) (hReach : 0 < f.reach)
    (hRead : f.readChar = some (result, after)) : R f after := by
  rw [FilterStream.readChar] at hRead
  split at hRead
  · cases hRead
    exact h.refl f
  · exact h.next hReach hRead

theorem readByte {result : Except Failure (Option UInt8)} (h : Lasting R) (hReach : 0 < f.reach)
    (hRead : f.readByte = some (result, after)) : 0 < after.reach ∧ R f after := by
  rw [FilterStream.readByte] at hRead
  split at hRead
  · rename_i byte rest _
    cases hRead
    exact ⟨hReach, h.hold f rest⟩
  · obtain ⟨⟨char, next⟩, hChar, hThen⟩ := Option.bind_eq_some_iff.mp hRead
    have hNext : 0 < next.reach ∧ R f next :=
      ⟨reach_of_readChar hReach hChar, h.readChar hReach hChar⟩
    cases char with
    | error failure =>
        cases hThen
        exact hNext
    | ok char =>
        cases char with
        | none =>
            cases hThen
            exact hNext
        | some c =>
            simp only at hThen
            split at hThen
            · cases hThen
              exact hNext
            · rename_i byte rest _
              cases hThen
              exact ⟨hNext.1, h.trans hNext.2 (h.hold next rest)⟩

theorem readBytesOnto {count : Nat} {seen : Bytes} {result : Except Failure Bytes} (h : Lasting R)
    (hReach : 0 < f.reach) (hRead : FilterStream.readBytesOnto count seen f = some (result, after)) :
    0 < after.reach ∧ R f after := by
  induction count generalizing f seen with
  | zero =>
      cases hRead
      exact ⟨hReach, h.refl _⟩
  | succ count ih =>
      rw [FilterStream.readBytesOnto] at hRead
      obtain ⟨⟨byte, next⟩, hByte, hThen⟩ := Option.bind_eq_some_iff.mp hRead
      have hNext := h.readByte hReach hByte
      cases byte with
      | error failure =>
          simp only at hThen
          split at hThen
          · cases hThen
            exact hNext
          · cases hThen
            exact ⟨hNext.1, h.trans hNext.2 (h.defer next _)⟩
      | ok byte =>
          cases byte with
          | none =>
              cases hThen
              exact hNext
          | some byte =>
              obtain ⟨hLater, hRest⟩ := ih hNext.1 hThen
              exact ⟨hLater, h.trans hNext.2 hRest⟩

theorem reply {call : Call} {reply : Reply} (h : Lasting R) (hReach : 0 < f.reach)
    (hReply : f.reply call = some (reply, after)) : 0 < after.reach ∧ R f after := by
  cases call with
  | char =>
      obtain ⟨⟨result, next⟩, hRead, hSame⟩ := Option.map_eq_some_iff.mp hReply
      cases hSame
      exact ⟨reach_of_readChar hReach hRead, h.readChar hReach hRead⟩
  | bytes room =>
      obtain ⟨⟨result, next⟩, hRead, hSame⟩ := Option.map_eq_some_iff.mp hReply
      cases hSame
      rw [readBytes] at hRead
      split at hRead
      · cases hRead
        exact ⟨hReach, h.defer f none⟩
      · exact h.readBytesOnto hReach hRead

/-- Whatever the calls, it holds between the filter before them and the one behind them. -/
theorem replies {calls : List Call} {given : List Reply} (h : Lasting R) (hReach : 0 < f.reach)
    (hReplies : repliesOf FilterStream.reply calls f = some (given, after)) : R f after := by
  induction calls generalizing f given with
  | nil =>
      cases hReplies
      exact h.refl _
  | cons call calls ih =>
      obtain ⟨first, next, later, hFirst, hLater, rfl⟩ := of_repliesOf_cons hReplies
      obtain ⟨hNext, hHere⟩ := h.reply hReach hFirst
      exact h.trans hHere (ih hNext hLater)

end Lasting

end Placeholder.FilterStream
