import Placeholder.Proofs.Filter.Deciding
import Placeholder.Proofs.Filter.Outflow
import Placeholder.Proofs.Filter.Output
import Placeholder.Proofs.Session.Circles
/-!
The circles that are reported while a text is filtered. However a filter is read, it asks its questions
on the chain that it began with and about tokens of its input, so its reports are genuine. A source
that fails aborts the run: one of the reads gives its failure, or the next read of bytes will.
-/
namespace Placeholder

/-- Somewhere in the text the expression stands between delimiters, and that token is one placeholder. -/
def Markup.HasToken (m : Markup) (text expression : Text) : Prop :=
  ∃ d : Delimiter, m.segments (d.wrap expression) = [.placeholder d expression] ∧
    d.wrap expression <:+: text

theorem Markup.HasToken.mono {m : Markup} {text whole expression : Text}
    (h : m.HasToken text expression) (hPart : text <:+: whole) : m.HasToken whole expression := by
  obtain ⟨d, hAlone, hStands⟩ := h
  exact ⟨d, hAlone, hStands.trans hPart⟩

namespace FilterStream

/-- From `f` to `after` the expander and the reach are the same, and the circles that were reported are
genuine: the questions were about tokens of the text that `f` had still to read. -/
structure ReportsCircles (f : FilterStream) (aborts : Failure → Prop) (after : FilterStream) : Prop where
  expander : after.expander = f.expander
  reach : after.reach = f.reach
  rest : after.input.reader.toCome <:+ f.input.reader.toCome
  session : f.expander.ReportsCircles f.session
    (f.expander.markup.HasToken f.input.reader.toCome) aborts after.session

variable {f after later : FilterStream} {aborts weaker : Failure → Prop}

namespace ReportsCircles

/-- Where nothing but the place in the output changes, nothing is reported. -/
theorem of_same (hExpander : after.expander = f.expander) (hReach : after.reach = f.reach)
    (hInput : after.input = f.input) (hSession : after.session = f.session) :
    f.ReportsCircles aborts after :=
  ⟨hExpander, hReach, hInput ▸ List.suffix_refl _, hSession ▸ .refl _ _ _ _⟩

theorem refl (f : FilterStream) (aborts : Failure → Prop) : f.ReportsCircles aborts f :=
  of_same rfl rfl rfl rfl

theorem mono (h : f.ReportsCircles aborts after)
    (hWeaker : ∀ failure, aborts failure → weaker failure) : f.ReportsCircles weaker after :=
  ⟨h.expander, h.reach, h.rest, h.session.mono hWeaker⟩

theorem trans (h : f.ReportsCircles aborts after) (hLater : after.ReportsCircles aborts later) :
    f.ReportsCircles aborts later where
  expander := hLater.expander.trans h.expander
  reach := hLater.reach.trans h.reach
  rest := hLater.rest.trans h.rest
  session := by
    have hLaterSession := hLater.session
    rw [h.expander] at hLaterSession
    exact h.session.trans (hLaterSession.widen fun _ hToken => hToken.mono h.rest.isInfix)

theorem frames (h : f.ReportsCircles aborts after) (hEmpty : f.session.chain.frames = []) :
    after.session.chain.frames = [] :=
  h.session.chain ▸ hEmpty

end ReportsCircles

/-- A placeholder that a filter sees is a token of the text to come. -/
theorem hasToken_of_look {token expression : Text} (hReach : 0 < f.reach)
    (h : f.look.1 = .ok (.placeholder token expression)) :
    f.expander.markup.HasToken f.input.reader.toCome expression := by
  obtain ⟨d, hToken, hAlone⟩ := f.segments_of_look h
  refine ⟨d, hToken ▸ hAlone, ?_⟩
  have hLooks := Sight.ofInput_looks f.expander.markup f.multiLine f.input hReach
  rw [look] at h
  cases hLook : Sight.ofInput f.expander.markup f.multiLine (f.input.mark f.reach) with
  | mk result after =>
      rw [hLook] at h hLooks
      cases h
      cases hLooks with
      | answered _ hSince hSees =>
          cases hSees with
          | placeholder hFront =>
              rw [← hToken, hSince.passed.text]
              exact (hFront.trans (List.prefix_append ..)).isInfix

theorem reportsCircles_of_verdict {sight : Sight} {result : Except Failure Decision}
    {session : Session} (hEmpty : f.session.chain.frames = [])
    (h : f.verdict sight = some (result, session)) :
    f.expander.ReportsCircles f.session
      (fun expression => ∃ token, sight = .placeholder token expression)
      (fun failure => result = .error failure) session := by
  cases sight with
  | placeholder token expression =>
      obtain ⟨⟨answer, next⟩, hResolve, hSame⟩ := Option.map_eq_some_iff.mp h
      cases hSame
      have hHere := Expander.reportsCircles_of_resolve hEmpty hResolve
      refine (hHere.mono fun failure hFails => ?_).widen ?_
      · rw [hFails]
        rfl
      · rintro _ rfl
        exact ⟨token, rfl⟩
  | _ =>
      cases h
      exact .refl _ _ _ _

theorem reportsCircles_of_scan {result : Except Failure Unit} (hReach : 0 < f.reach)
    (hEmpty : f.session.chain.frames = []) (h : f.scan = some (result, after)) :
    f.ReportsCircles (fun failure => result = .error failure) after := by
  obtain ⟨seen, hPassed⟩ := passed_of_scan hReach h
  obtain ⟨decided, session, hJudged, hSame⟩ := exists_judged_of_scan h
  have hSession : f.expander.ReportsCircles f.session
      (f.expander.markup.HasToken f.input.reader.toCome)
      (fun failure => decided = .error failure) session := by
    cases hLook : f.look.1 with
    | error failure =>
        rw [hLook] at hJudged
        cases hJudged
        exact .refl _ _ _ _
    | ok sight =>
        rw [hLook] at hJudged
        refine (reportsCircles_of_verdict hEmpty hJudged).widen ?_
        rintro expression ⟨token, rfl⟩
        exact hasToken_of_look hReach hLook
  obtain ⟨hKept, hExpander, _, hSameReach⟩ :=
    same_of_carryOut { f with input := f.look.2, session := session } decided
  rw [hSame] at hKept hExpander hSameReach
  refine ⟨hExpander, hSameReach, hPassed.text ▸ List.suffix_append .., hKept ▸ hSession.mono fun failure hFails => ?_⟩
  subst hFails
  exact (congrArg Prod.fst hSame).symm

theorem reportsCircles_of_readChar {result : Except Failure (Option Char)} (hReach : 0 < f.reach)
    (hEmpty : f.session.chain.frames = []) (h : f.readChar = some (result, after)) :
    f.ReportsCircles (fun failure => result = .error failure) after := by
  rw [FilterStream.readChar] at h
  split at h
  · cases h
    exact .refl f _
  · suffices hAll : f.session.chain.frames = [] → ∀ result after, f.next = some (result, after) →
        f.ReportsCircles (fun failure => result = .error failure) after from
      hAll hEmpty result after h
    apply next_induct (P := fun f read => f.session.chain.frames = [] →
      ∀ result after, read = some (result, after) →
        f.ReportsCircles (fun failure => result = .error failure) after) _ _ _ _ _ f hReach
    · rintro f c rest _ _ _ _ ⟨⟩
      exact .of_same rfl rfl rfl rfl
    · rintro f _ _ _ _ _ ⟨⟩
      exact .refl f _
    · rintro f _ _ _ _ _ _ _ ⟨⟩
    · rintro f failed failure hReach _ _ hScan hEmpty _ _ ⟨⟩
      have hFailed := reportsCircles_of_scan hReach hEmpty hScan
      exact (hFailed.mono fun met hMet => by rw [Except.error.inj hMet]).trans (.of_same rfl rfl rfl rfl)
    · intro f next hReach _ _ hScan ih hEmpty result after hNext
      have hScanned := reportsCircles_of_scan hReach hEmpty hScan
      refine (hScanned.mono fun failure hFailure => ?_).trans
        (ih (hScanned.frames hEmpty) result after hNext)
      cases hFailure

theorem reportsCircles_of_readByte {result : Except Failure (Option UInt8)} (hReach : 0 < f.reach)
    (hEmpty : f.session.chain.frames = []) (h : f.readByte = some (result, after)) :
    f.ReportsCircles (fun failure => result = .error failure) after := by
  rw [FilterStream.readByte] at h
  split at h
  · cases h
    exact .of_same rfl rfl rfl rfl
  · obtain ⟨⟨char, next⟩, hChar, hThen⟩ := Option.bind_eq_some_iff.mp h
    have hNext := reportsCircles_of_readChar hReach hEmpty hChar
    cases char with
    | error failure =>
        cases hThen
        exact hNext.mono fun met hMet => by rw [Except.error.inj hMet]
    | ok char =>
        have hSound : f.ReportsCircles (fun failure => result = .error failure) next := hNext.mono nofun
        cases char with
        | none =>
            cases hThen
            exact hSound
        | some c =>
            simp only at hThen
            split at hThen
            · cases hThen
              exact hSound
            · cases hThen
              exact hSound.trans (.of_same rfl rfl rfl rfl)

/-- A failure that bytes of the same read come before is held back. -/
theorem reportsCircles_of_readBytesOnto {count : Nat} {seen : Bytes} {result : Except Failure Bytes}
    (hReach : 0 < f.reach) (hEmpty : f.session.chain.frames = [])
    (h : FilterStream.readBytesOnto count seen f = some (result, after)) :
    f.ReportsCircles (fun failure => result = .error failure ∨ after.deferred = some failure) after := by
  induction count generalizing f seen with
  | zero =>
      cases h
      exact .refl _ _
  | succ count ih =>
      rw [FilterStream.readBytesOnto] at h
      obtain ⟨⟨byte, next⟩, hByte, hThen⟩ := Option.bind_eq_some_iff.mp h
      have hNext := reportsCircles_of_readByte hReach hEmpty hByte
      cases byte with
      | error failure =>
          simp only at hThen
          split at hThen
          · cases hThen
            exact hNext.mono fun met hMet => .inl (by rw [Except.error.inj hMet])
          · cases hThen
            exact (hNext.mono fun met hMet => .inr (by rw [Except.error.inj hMet])).trans
              (.of_same rfl rfl rfl rfl)
      | ok byte =>
          have hSound : f.ReportsCircles
              (fun failure => result = .error failure ∨ after.deferred = some failure) next :=
            hNext.mono nofun
          cases byte with
          | none =>
              cases hThen
              exact hSound
          | some byte =>
              exact hSound.trans (ih (hSound.reach ▸ hReach) (hSound.frames hEmpty) hThen)

theorem reportsCircles_of_reply {call : Call} {reply : Reply} (hReach : 0 < f.reach)
    (hEmpty : f.session.chain.frames = []) (h : f.reply call = some (reply, after)) :
    f.ReportsCircles
      (fun failure => reply.failure? = some failure.toIo ∨ after.deferred = some failure) after := by
  cases call with
  | char =>
      obtain ⟨⟨result, next⟩, hRead, hSame⟩ := Option.map_eq_some_iff.mp h
      cases hSame
      refine (reportsCircles_of_readChar hReach hEmpty hRead).mono fun failure hFails => .inl ?_
      rw [hFails]
      rfl
  | bytes room =>
      obtain ⟨⟨result, next⟩, hRead, hSame⟩ := Option.map_eq_some_iff.mp h
      cases hSame
      rw [readBytes] at hRead
      split at hRead
      · cases hRead
        exact .of_same rfl rfl rfl rfl
      · refine (reportsCircles_of_readBytesOnto hReach hEmpty hRead).mono fun failure hFails => ?_
        refine hFails.imp_left fun hError => ?_
        rw [hError]
        rfl

/-- A failure that is held back is reported by the next read of bytes. -/
theorem deferred_of_reply {call : Call} {reply : Reply} {failure : Failure} (hReach : 0 < f.reach)
    (hDeferred : f.deferred = some failure) (h : f.reply call = some (reply, after)) :
    reply.failure? = some failure.toIo ∨ after.deferred = some failure := by
  cases call with
  | char =>
      obtain ⟨⟨result, next⟩, hRead, hSame⟩ := Option.map_eq_some_iff.mp h
      cases hSame
      exact .inr ((held_of_readChar hReach hRead).2.trans hDeferred)
  | bytes room =>
      rw [FilterStream.reply, readBytes, hDeferred] at h
      cases h
      exact .inl rfl

/-- The failure was reported by one of the reads, or is held back for the next one. -/
def Aborts (given : List Reply) (after : FilterStream) (failure : Failure) : Prop :=
  failure.toIo ∈ given.filterMap Reply.failure? ∨ after.deferred = some failure

theorem Aborts.cons {first : Reply} {given : List Reply} {failure : Failure}
    (h : Aborts given after failure) : Aborts (first :: given) after failure := by
  refine h.imp_left fun hMem => ?_
  rw [List.filterMap_cons]
  split
  · exact hMem
  · exact List.mem_cons_of_mem _ hMem

theorem Aborts.of_first {first : Reply} {failure : Failure} (h : first.failure? = some failure.toIo)
    (given : List Reply) (after : FilterStream) : Aborts (first :: given) after failure := by
  refine .inl ?_
  rw [List.filterMap_cons_some h]
  exact List.mem_cons_self ..

theorem aborts_of_deferred {calls : List Call} {given : List Reply} {failure : Failure}
    (hReach : 0 < f.reach) (hEmpty : f.session.chain.frames = [])
    (hDeferred : f.deferred = some failure)
    (h : repliesOf FilterStream.reply calls f = some (given, after)) :
    Aborts given after failure := by
  induction calls generalizing f given with
  | nil =>
      cases h
      exact .inr hDeferred
  | cons call calls ih =>
      obtain ⟨first, next, later, hFirst, hLater, rfl⟩ := of_repliesOf_cons h
      have hNext := reportsCircles_of_reply hReach hEmpty hFirst
      rcases deferred_of_reply hReach hDeferred hFirst with hReported | hHeld
      · exact .of_first hReported later after
      · exact (ih (hNext.reach ▸ hReach) (hNext.frames hEmpty) hHeld hLater).cons

theorem reportsCircles_of_replies {calls : List Call} {given : List Reply} (hReach : 0 < f.reach)
    (hEmpty : f.session.chain.frames = [])
    (h : repliesOf FilterStream.reply calls f = some (given, after)) :
    f.ReportsCircles (Aborts given after) after := by
  induction calls generalizing f given with
  | nil =>
      cases h
      exact .refl _ _
  | cons call calls ih =>
      obtain ⟨first, next, later, hFirst, hLater, rfl⟩ := of_repliesOf_cons h
      have hNext := reportsCircles_of_reply hReach hEmpty hFirst
      have hNextReach := hNext.reach ▸ hReach
      have hNextEmpty := hNext.frames hEmpty
      refine (hNext.mono fun failure hFails => ?_).trans
        ((ih hNextReach hNextEmpty hLater).mono fun failure => Aborts.cons)
      rcases hFails with hReported | hHeld
      · exact .of_first hReported later after
      · exact (aborts_of_deferred hNextReach hNextEmpty hHeld hLater).cons

/-- So it is with the whole output. -/
theorem Flows.reportsCircles {out : Rendering} {result : Except Failure Text} {session : Session}
    (h : f.Flows out) (hReach : 0 < f.reach) (hEmpty : f.session.chain.frames = [])
    (hWhole : out.whole = some (result, session)) :
    f.expander.ReportsCircles f.session (f.expander.markup.HasToken f.input.reader.toCome)
      (fun failure => result = .error failure) session := by
  induction h generalizing result with
  | char hRead _ ih =>
      rename_i f after c rest stop _
      have hHere := reportsCircles_of_readChar hReach hEmpty hRead
      have hBehind := Rendering.whole_behind [c] ⟨rest, stop⟩
      obtain ⟨⟨later, last⟩, hLater, hSame⟩ := Option.map_eq_some_iff.mp (hBehind.symm.trans hWhole)
      obtain ⟨rfl, rfl⟩ := Prod.mk.inj hSame
      have hRest := ih (hHere.reach ▸ hReach) (hHere.frames hEmpty) hLater
      rw [hHere.expander] at hRest
      have hBoth := (hHere.session.mono nofun).trans
        (hRest.widen fun _ hToken => hToken.mono hHere.rest.isInfix)
      exact hBoth.mono fun failure hFails => by rw [hFails]; rfl
  | ended hRead _ =>
      cases hWhole
      exact (reportsCircles_of_readChar hReach hEmpty hRead).session.mono nofun
  | failed hRead _ =>
      cases hWhole
      exact (reportsCircles_of_readChar hReach hEmpty hRead).session.mono fun met hMet => by
        rw [Except.error.inj hMet]
  | endless _ => cases hWhole

end FilterStream

namespace Expander

/-- What is reported about circles in runs that begin in this session. Each of them was reached from a
placeholder of the text that was run. -/
structure CirclesGenuine (x : Expander) (s : Session) : Prop where
  /-- The reports are genuine where a text is interpolated; a source may have aborted the run only with
  the failure that is the result. -/
  interpolated : ∀ text result after, x.interpolate s text = some (result, after) →
    x.ReportsCircles s (fun expression => ∃ d, .placeholder d expression ∈ x.markup.segments text)
      (fun failure => result = .error failure) after
  /-- So they are where a filter is read, whatever the reads are and however many. -/
  read : ∀ options reader f calls given after, FilterStream.make options x s reader = .ok f →
    repliesOf FilterStream.reply calls f = some (given, after) →
      f.expander.ReportsCircles s (f.expander.markup.HasToken reader.toCome)
        (FilterStream.Aborts given after) after.session
  /-- So they are where a filter is read to its end. -/
  collected : ∀ options reader f text failure? after, FilterStream.make options x s reader = .ok f →
    f.collect = some ((text, failure?), after) →
      f.expander.ReportsCircles s (f.expander.markup.HasToken reader.toCome)
        (fun failure => failure? = some failure) after.session
  /-- So they are where a text is filtered in memory. -/
  filtered : ∀ options markup text result after, options.markup = .ok markup →
    filterText options x s text = some (result, after) →
      ({ x with markup := markup } : Expander).ReportsCircles s.onEmptyChain (markup.HasToken text)
        (fun failure => result = .error failure) after
  /-- Whether a run ends or not, every question that is reported closes a circle; and the token that is
  reported stays in the text of the innermost frame, if that question is answered and no source fails. -/
  met : ∀ expression trigger, Relation.ReflTransGen x.Leads ⟨s.chain, expression⟩ trigger →
    trigger.chain.has trigger.expression = true → ∃ rounds last, rounds.getLast? = some last ∧
      x.Circle ⟨s.chain, expression⟩ (trigger.chain.cycle trigger.expression) rounds trigger ∧
      ∀ answer, x.resolveIn last.chain last.expression = some answer →
        x.Shows last trigger ∨ ∃ failure, x.Refuses failure ∧ answer.result = .error failure

/-- Reports of circles are genuine. On a chain without frames, whatever prefixes it accepts, a path is
reported only if its keys are those of questions of which each stands, between delimiters, in the value
that is found first for the one before and is expanded again, and which a placeholder of the text leads
to; no key comes twice but the first one, at the end. And the token that leads back stays in the text of the frame that it stands in, before
finishers see the answer to a question of the top level. -/
theorem circles_genuine (x : Expander) {s : Session} (hEmpty : s.chain.frames = []) :
    x.CirclesGenuine s where
  interpolated text result after h := reportsCircles_of_fillSegments hEmpty h
  read options reader f calls given after hMake hReplies := by
    have hReach := FilterStream.reach_of_make hMake
    obtain ⟨markup, _, rfl⟩ := FilterStream.eq_of_make hMake
    exact (FilterStream.reportsCircles_of_replies hReach hEmpty hReplies).session
  collected options reader f text failure? after hMake hCollect := by
    have hReach := FilterStream.reach_of_make hMake
    obtain ⟨markup, _, rfl⟩ := FilterStream.eq_of_make hMake
    obtain ⟨out, hFlows⟩ := FilterStream.exists_flows _ hReach
    have hWhole := hFlows.collectOnto []
    rw [List.reverse_nil, Rendering.behind_nil] at hWhole
    rw [FilterStream.collect] at hCollect
    rw [hCollect] at hWhole
    refine (hFlows.reportsCircles hReach hEmpty hWhole.symm).mono fun failure hFails => ?_
    cases failure? with
    | none => cases hFails
    | some met => exact congrArg some (Except.error.inj hFails)
  filtered options markup text result after hMarkup hFilter := by
    rcases FilterStream.filterText_cases hMarkup hFilter with ⟨_, rfl⟩ | ⟨f, out, hMake, hFlows, hWhole⟩
    · exact .refl _ _ _ _
    · have hReach := FilterStream.reach_of_make hMake
      obtain ⟨other, hMeasured, rfl⟩ := FilterStream.eq_of_make hMake
      obtain ⟨hOther, _⟩ := options.measured_eq_ok_iff.mp hMeasured
      obtain rfl := Except.ok.inj (hMarkup.symm.trans hOther)
      have hPart : (TextReader.ofFeed (.ofBytes (Utf8.encodeText text))).toCome <:+: text := by
        rw [(TextReader.gives_iff.mp (TextReader.gives_text text)).2.1]
      exact (hFlows.reportsCircles hReach rfl hWhole).widen fun _ hToken => hToken.mono hPart
  met expression trigger hMet hHas := by
    obtain ⟨rounds, last, hLast, hLeads, hCircle⟩ := exists_circle hEmpty hMet hHas
    exact ⟨rounds, last, hLast, hCircle, fun answer hAnswer => shows_or_refuses hLeads hHas hAnswer⟩

/-- Two expressions that refer to each other, one of them always with its prefix. -/
theorem circles_genuine_with_prefix :
    let x : Expander := ⟨[.single ['a'] ['@', 'p', '.', 'b', '@'],
      .single ['p', '.', 'b'] ['<', '@', 'p', '.', 'a', '@', '>']], [], .standard, true, true⟩
    let s : Session := .fresh (.withPrefixes [['p', '.']])
    s.chain.frames = [] ∧
      ∃ after, x.interpolate s ['@', 'a', '@'] =
          some (.ok ['<', '@', 'p', '.', 'a', '@', '>'], after) ∧
        .circular [['a'], ['b'], ['a']] ∈ after.events ∧
        x.Genuine s.chain (· = ['a']) (fun _ => False) [['a'], ['b'], ['a']] := by
  intro x s
  have hOuter : x.ask ['a'] = (.ok (some ['@', 'p', '.', 'b', '@']), [.asked 0 ['a']]) := rfl
  have hInner : x.ask ['p', '.', 'b'] = (.ok (some ['<', '@', 'p', '.', 'a', '@', '>']),
      [.asked 0 ['p', '.', 'b'], .asked 1 ['p', '.', 'b']]) := rfl
  have hText : x.markup.segments ['@', 'a', '@'] = [.placeholder .atSign ['a']] := by
    with_unfolding_all rfl
  have hOuterCut : x.valueSegments ['@', 'p', '.', 'b', '@'] =
      [.placeholder .atSign ['p', '.', 'b']] := by
    with_unfolding_all rfl
  have hInnerCut : x.valueSegments ['<', '@', 'p', '.', 'a', '@', '>'] =
      [.literal ['<'], .placeholder .atSign ['p', '.', 'a'], .literal ['>']] := by
    with_unfolding_all rfl
  let outer := s.chain.start ['a']
  let inner := outer.start ['p', '.', 'b']
  have hBack : inner.has ['p', '.', 'a'] = true := rfl
  have hInside := expandIn_literal (expandIn_answered (x := x) (resolveIn_circular hBack) rfl
    (expandIn_literal (x.expandIn_nil inner) ['>']) .atSign) ['<']
  rw [← hInnerCut] at hInside
  have hNested := resolveIn_value (rfl : outer.has ['p', '.', 'b'] = false)
    (congrArg Prod.fst hInner) hInside
  have hValue := expandIn_answered hNested rfl (x.expandIn_nil _) .atSign
  rw [← hOuterCut] at hValue
  have hWhole := resolveIn_value (rfl : s.chain.has ['a'] = false) (congrArg Prod.fst hOuter) hValue
  obtain ⟨after, hFilled, hEvents⟩ : ∃ after, x.interpolate s ['@', 'a', '@'] =
      some (.ok ['<', '@', 'p', '.', 'a', '@', '>'], after) ∧
        .circular [['a'], ['b'], ['a']] ∈ after.events := by
    rw [interpolate, hText, fillSegments, x.resolve_of_empty rfl, hWhole]
    exact ⟨_, rfl, by decide⟩
  obtain ⟨_, events, hSame, hReports⟩ := (x.circles_genuine (s := s) rfl).interpolated _ _ _ hFilled
  have hReported : .circular [['a'], ['b'], ['a']] ∈ events := by
    rwa [hSame, Session.events_fresh, List.nil_append] at hEvents
  refine ⟨rfl, after, hFilled, hEvents, (hReports _ hReported).mono ?_ ?_⟩
  · rintro expression ⟨d, hMem⟩
    rw [hText, List.mem_singleton] at hMem
    exact (Segment.placeholder.inj hMem).2
  · rintro failure ⟨⟩

end Expander

end Placeholder
