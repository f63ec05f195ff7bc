import Placeholder.Proofs.Filter.Deciding
import Placeholder.Proofs.Filter.EveryRead
/-!
Whether a filter hands on a placeholder whole or only its expression. A token that a filter sees is, as
a text of its own, that placeholder and nothing else, so both ways ask for the same values in the same
order and come to the same output, the same failures and the same session.
-/
namespace Placeholder.FilterStream

/-- The filter with the whole token handed on, or only the expression. -/
def handing (f : FilterStream) (wholeToken : Bool) : FilterStream :=
  { f with wholeToken := wholeToken }

/-- Reading characters does not notice which of the two is handed on. -/
theorem unnoticed_handing (wholeToken : Bool) : Unnoticed (handing · wholeToken) where
  input _ := rfl
  pending _ := rfl
  ended _ := rfl
  poisoned _ := rfl
  reach _ := rfl
  session _ := rfl
  setInput _ _ := rfl
  setPending _ _ := rfl
  setEnded _ := rfl
  setPoisoned _ := rfl
  decides f := by
    have hOther : decide { f.handing wholeToken with input := f.input.mark f.reach } =
        ((f.handing wholeToken).judgedOn f.look.1).map fun judged =>
          (judged.1, { f.handing wholeToken with input := f.look.2, session := judged.2 }) :=
      decide_of_look rfl
    show decide { f.handing wholeToken with input := f.input.mark f.reach } = _
    rw [hOther, decide_of_look rfl, Option.map_map]
    rfl

theorem readByte_handing (f : FilterStream) (hReach : 0 < f.reach) (wholeToken : Bool) :
    (f.handing wholeToken).readByte =
      f.readByte.map fun read => (read.1, read.2.handing wholeToken) := by
  have hReads := (unnoticed_handing wholeToken).readChar f hReach
  have hHeld : (f.handing wholeToken).leftover = f.leftover := rfl
  rw [readByte, readByte, hHeld]
  cases f.leftover with
  | cons byte rest => rfl
  | nil =>
      simp only [hReads]
      cases f.readChar with
      | none => rfl
      | some read =>
          obtain ⟨result, after⟩ := read
          cases result with
          | error failure => rfl
          | ok char =>
              cases char with
              | none => rfl
              | some c =>
                  simp only [Option.bind_eq_bind, Option.map_some, Option.bind_some]
                  cases Utf8.encode c <;> rfl

theorem readBytesOnto_handing (f : FilterStream) (hReach : 0 < f.reach) (wholeToken : Bool)
    (count : Nat) (seen : Bytes) :
    readBytesOnto count seen (f.handing wholeToken) =
      (readBytesOnto count seen f).map fun read => (read.1, read.2.handing wholeToken) := by
  induction count generalizing f seen with
  | zero => rfl
  | succ count ih =>
      rw [readBytesOnto, readBytesOnto, readByte_handing f hReach]
      cases hRead : f.readByte with
      | none => rfl
      | some read =>
          obtain ⟨result, after⟩ := read
          cases result with
          | error failure => cases seen <;> rfl
          | ok byte =>
              cases byte with
              | none => rfl
              | some byte => exact ih after (Lasting.always.readByte hReach hRead).1 (byte :: seen)

theorem readBytes_handing (f : FilterStream) (hReach : 0 < f.reach) (wholeToken : Bool)
    (count : Nat) :
    (f.handing wholeToken).readBytes count =
      (f.readBytes count).map fun read => (read.1, read.2.handing wholeToken) := by
  have hDeferred : (f.handing wholeToken).deferred = f.deferred := rfl
  rw [readBytes, readBytes, hDeferred]
  cases f.deferred with
  | some failure => rfl
  | none => exact readBytesOnto_handing f hReach wholeToken count []

theorem reply_handing (f : FilterStream) (hReach : 0 < f.reach) (wholeToken : Bool) (call : Call) :
    reply call (f.handing wholeToken) =
      (reply call f).map fun replied => (replied.1, replied.2.handing wholeToken) := by
  cases call with
  | bytes room =>
      rw [reply, reply, readBytes_handing f hReach, Option.map_map, Option.map_map]
      rfl
  | char =>
      rw [reply, reply, (unnoticed_handing wholeToken).readChar f hReach, Option.map_map,
        Option.map_map]
      rfl

/-- However it is read, a filter does not show which of the two is handed on. -/
theorem replies_handing (f : FilterStream) (hReach : 0 < f.reach) (wholeToken : Bool)
    (calls : List Call) :
    repliesOf reply calls (f.handing wholeToken) =
      (repliesOf reply calls f).map fun replied => (replied.1, replied.2.handing wholeToken) := by
  induction calls generalizing f with
  | nil => rfl
  | cons call rest ih =>
      rw [repliesOf, repliesOf, reply_handing f hReach]
      cases hReply : reply call f with
      | none => rfl
      | some replied =>
          obtain ⟨first, next⟩ := replied
          simp only [Option.map_some, Option.bind_eq_bind, Option.bind_some,
            ih next (Lasting.always.reply hReach hReply).1]
          cases repliesOf reply rest next <;> rfl

theorem make_handing (options : FilterOptions) (x : Expander) (s : Session) (reader : TextReader)
    (wholeToken : Bool) :
    make { options with wholeToken := wholeToken } x s reader =
      (make options x s reader).map (·.handing wholeToken) := by
  rw [make, make]
  show (options.measured.bind _ : Except Failure FilterStream) = Except.map _ (options.measured.bind _)
  cases options.measured <;> rfl

/-- The replies to some calls, and the session behind them. -/
def replied (calls : List Call) (f : FilterStream) : Option (List Reply × Session) :=
  (repliesOf reply calls f).map fun replied => (replied.1, replied.2.session)

theorem replied_handing (f : FilterStream) (hReach : 0 < f.reach) (wholeToken : Bool)
    (calls : List Call) : replied calls (f.handing wholeToken) = replied calls f := by
  rw [replied, replied, replies_handing f hReach, Option.map_map]
  rfl

theorem filterText_handing (options : FilterOptions) (x : Expander) (s : Session) (text : Text)
    (wholeToken : Bool) :
    filterText { options with wholeToken := wholeToken } x s text = filterText options x s text := by
  have hOther := make_handing options x s.onEmptyChain
    (.ofFeed (.ofBytes (Utf8.encodeText text))) wholeToken
  cases hMake : make options x s.onEmptyChain (.ofFeed (.ofBytes (Utf8.encodeText text))) with
  | error failure =>
      rw [hMake] at hOther
      rw [filterText, filterText, hMake, hOther]
      rfl
  | ok f =>
      rw [hMake] at hOther
      have hReach := reach_of_make hMake
      obtain ⟨out, hFlows⟩ := f.exists_flows hReach
      rw [hFlows.filterText hMake,
        (hFlows.unnoticed (unnoticed_handing wholeToken) hReach).filterText hOther]

/-- Whether placeholders are handed on whole or only their expressions, a filter replies the same to
every sequence of reads, and comes to the same session: the same questions to the sources in the
same order, the same circular references, the same remembered answers. For a token that it sees is,
read as a text of its own, just that placeholder. -/
theorem whole_token_unnoticed (options : FilterOptions) (x : Expander) (s : Session) :
    (∀ reader calls,
      (make { options with wholeToken := true } x s reader).map (replied calls) =
        (make { options with wholeToken := false } x s reader).map (replied calls)) ∧
    (∀ text, filterText { options with wholeToken := true } x s text =
      filterText { options with wholeToken := false } x s text) ∧
    ∀ (f : FilterStream) (token expression : Text), f.look.1 = .ok (.placeholder token expression) →
      (∃ d : Delimiter, token = d.wrap expression ∧
        f.expander.markup.segments token = [.placeholder d expression]) ∧
      f.expander.interpolate f.session token =
        (f.expander.resolve f.session expression).map fun resolved =>
          (resolved.1.map (·.getD token), resolved.2) := by
  refine ⟨fun reader calls => ?_, fun text => ?_, fun f token expression hLook => ?_⟩
  · have hUnnoticed : ∀ wholeToken,
        (make { options with wholeToken := wholeToken } x s reader).map (replied calls) =
          (make options x s reader).map (replied calls) := by
      intro wholeToken
      rw [make_handing]
      cases hMake : make options x s reader with
      | error failure => rfl
      | ok f =>
          exact congrArg Except.ok (replied_handing f (reach_of_make hMake) wholeToken calls)
    rw [hUnnoticed true, hUnnoticed false]
  · rw [filterText_handing, filterText_handing options x s text false]
  · obtain ⟨d, rfl, hAlone⟩ := f.segments_of_look hLook
    exact ⟨⟨d, rfl, hAlone⟩, Expander.interpolate_wrap hAlone f.session⟩

end Placeholder.FilterStream
