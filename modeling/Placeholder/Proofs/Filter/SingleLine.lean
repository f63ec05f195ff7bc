import Placeholder.Proofs.Expansion.Asking
import Placeholder.Proofs.Filter.Agreement
import Placeholder.Proofs.Filter.Deciding
import Placeholder.Proofs.Filter.EveryRead
import Placeholder.Proofs.Session.Remembering
/-!
What is asked for when a placeholder may not span lines. In the input a placeholder ends in the line
in which it begins. Answers are not read by that rule: an expression with a line end is asked for if
an answer holds it as a placeholder, and only then.
-/
namespace Placeholder

namespace Sight

variable {markup : Markup} {closing window token expression : Text} {cut : Option Failure}

/-- A body that is followed to its closing token holds no line end. -/
theorem unbroken_of_followWindow {seen body : Text} (hSeen : '\n' ∉ seen)
    (h : followWindow false closing seen window = some (.inl body)) : '\n' ∉ body := by
  induction window generalizing seen with
  | nil => cases h
  | cons c window ih =>
      rw [followWindow] at h
      by_cases hLine : c = '\n'
      · subst hLine
        cases h
      · have hNext : '\n' ∉ c :: seen := by simp [hSeen, Ne.symm hLine]
        cases hJudge : judge false closing seen c with
        | broken =>
            rw [hJudge] at h
            cases h
        | closed =>
            rw [hJudge] at h
            cases h
            exact hNext
        | further =>
            rw [hJudge] at h
            exact ih hNext h

theorem unbroken_of_shownUnescaped
    (h : shownUnescaped markup false cut window = .ok (.placeholder token expression)) :
    ∃ d : Delimiter, token = d.wrap expression ∧ '\n' ∉ expression ++ d.closing := by
  obtain ⟨_, hMatched⟩ := of_needing h
  split at hMatched
  · cases hMatched
  · rename_i d _
    rw [shownOpening] at hMatched
    split at hMatched
    · cases hMatched
    · cases hMatched
    · rename_i body hFollowed
      obtain ⟨inside, after, _, rfl⟩ := exists_of_followed hFollowed
      have hUnbroken : '\n' ∉ (inside ++ d.closing).reverse := by
        simp only [followed] at hFollowed
        split at hFollowed
        · cases hFollowed
        · rename_i hFollow
          cases hFollowed
          exact unbroken_of_followWindow List.not_mem_nil hFollow
        · split at hFollowed <;> cases hFollowed
      rw [reverse_drop_body, List.reverse_reverse] at hMatched
      obtain ⟨rfl, rfl⟩ := Sight.placeholder.inj (Except.ok.inj hMatched)
      refine ⟨d, by rw [Delimiter.wrap, List.append_assoc], ?_⟩
      rwa [List.mem_reverse] at hUnbroken

/-- A placeholder that is seen ends in the line in which it begins. -/
theorem unbroken_of_shown
    (h : shown markup false cut window = .ok (.placeholder token expression)) :
    ∃ d : Delimiter, token = d.wrap expression ∧ '\n' ∉ expression ++ d.closing := by
  cases window with
  | nil =>
      obtain ⟨_, hEnded⟩ := of_needing h
      cases hEnded
  | cons c rest =>
      rw [shown, shownFrom] at h
      split at h
      · exact unbroken_of_shownUnescaped h
      · split at h
        · obtain ⟨_, hShown⟩ := of_needing h
          split at hShown
          · obtain ⟨_, hMatched⟩ := of_needing hShown
            split at hMatched <;> cases hMatched
          · exact unbroken_of_shownUnescaped hShown
        · exact unbroken_of_shownUnescaped h

end Sight

namespace FilterStream

variable {f g after : FilterStream} {token expression : Text}

theorem unbroken_of_look (hSingle : f.multiLine = false)
    (h : f.look.1 = .ok (.placeholder token expression)) :
    ∃ d : Delimiter, token = d.wrap expression ∧ '\n' ∉ expression ++ d.closing := by
  obtain ⟨text, stop, hCourse⟩ := f.input.reader.exists_course
  have hFinds := (look_finds hCourse).1
  rw [h, FilterRules.shown, rules, hSingle] at hFinds
  exact Sight.unbroken_of_shown hFinds.symm

/-- An expression without a line end, or one that stands as a placeholder in an answer. -/
def Askable (f : FilterStream) (expression : Text) : Prop :=
  '\n' ∉ expression ∨ f.expander.Nested expression

/-- From `f` to `g` nothing else was asked for, and the rules are the same. -/
structure Asks (f g : FilterStream) : Prop where
  session : f.session.Asks f.Askable g.session
  expander : g.expander = f.expander
  multiLine : g.multiLine = f.multiLine
  reach : g.reach = f.reach

namespace Asks

/-- Where nothing but the place in the input or in the output changes, nothing is asked for. -/
theorem of_same (hSession : g.session = f.session) (hExpander : g.expander = f.expander)
    (hMultiLine : g.multiLine = f.multiLine) (hReach : g.reach = f.reach) : f.Asks g :=
  ⟨hSession ▸ .refl _ _, hExpander, hMultiLine, hReach⟩

theorem refl (f : FilterStream) : f.Asks f := of_same rfl rfl rfl rfl

theorem askable (h : f.Asks g) : g.Askable = f.Askable := by
  funext expression
  rw [Askable, Askable, h.expander]

theorem trans (h : f.Asks g) (hLater : g.Asks after) : f.Asks after where
  session := h.session.trans (h.askable ▸ hLater.session)
  expander := hLater.expander.trans h.expander
  multiLine := hLater.multiLine.trans h.multiLine
  reach := hLater.reach.trans h.reach

end Asks

theorem asks_of_judgedOn {judged : Except Failure Decision × Session} (hSingle : f.multiLine = false)
    (h : f.judgedOn f.look.1 = some judged) : f.session.Asks f.Askable judged.2 := by
  cases hLook : f.look.1 with
  | error failure =>
      rw [hLook] at h
      cases h
      exact .refl _ _
  | ok sight =>
      rw [hLook] at h
      cases sight with
      | ended =>
          cases h
          exact .refl _ _
      | literal text =>
          cases h
          exact .refl _ _
      | escaped text consumed =>
          cases h
          exact .refl _ _
      | placeholder token expression =>
          obtain ⟨d, _, hUnbroken⟩ := unbroken_of_look hSingle hLook
          have hLine : '\n' ∉ expression := fun hMem => hUnbroken (List.mem_append_left _ hMem)
          obtain ⟨⟨result, session⟩, hResolve, rfl⟩ := Option.map_eq_some_iff.mp h
          refine (Expander.asks_of_resolve hResolve).mono ?_
          rintro asked (rfl | hNested)
          · exact .inl hLine
          · exact .inr hNested

theorem asks_of_scan {result : Except Failure Unit} (hSingle : f.multiLine = false)
    (h : f.scan = some (result, after)) : f.Asks after := by
  obtain ⟨decided, session, hJudged, hSame⟩ := exists_judged_of_scan h
  obtain ⟨hKept, hExpander, hMultiLine, hReach⟩ :=
    same_of_carryOut { f with input := f.look.2, session := session } decided
  rw [hSame] at hKept hExpander hMultiLine hReach
  exact ⟨hKept ▸ asks_of_judgedOn hSingle hJudged, hExpander, hMultiLine, hReach⟩

/-- Whatever is read, only scans ask. -/
theorem lasting_asks : Lasting fun f g => f.multiLine = false → f.Asks g where
  trans h hLater hSingle := (h hSingle).trans (hLater ((h hSingle).multiLine.trans hSingle))
  refl f _ := .refl f
  handOut _ _ _ := .of_same rfl rfl rfl rfl
  poison _ _ := .of_same rfl rfl rfl rfl
  hold _ _ _ := .of_same rfl rfl rfl rfl
  defer _ _ _ := .of_same rfl rfl rfl rfl
  scan _ hScan hSingle := asks_of_scan hSingle hScan

/-- So it is with the whole output. -/
theorem Flows.asks {out : Rendering} {result : Except Failure Text} {session : Session}
    (h : f.Flows out) (hReach : 0 < f.reach) (hSingle : f.multiLine = false)
    (hWhole : out.whole = some (result, session)) : f.session.Asks f.Askable session := by
  induction h generalizing result with
  | char hRead _ ih =>
      rename_i f after c rest stop _
      have hAsks := lasting_asks.readChar hReach hRead hSingle
      have hBehind := Rendering.whole_behind [c] ⟨rest, stop⟩
      obtain ⟨⟨later, last⟩, hLater, hSame⟩ := Option.map_eq_some_iff.mp (hBehind.symm.trans hWhole)
      obtain ⟨rfl, rfl⟩ := Prod.mk.inj hSame
      have hRest := ih (hAsks.reach ▸ hReach) (hAsks.multiLine.trans hSingle) hLater
      rw [hAsks.askable] at hRest
      exact hAsks.session.trans hRest
  | ended hRead _ =>
      cases hWhole
      exact (lasting_asks.readChar hReach hRead hSingle).session
  | failed hRead _ =>
      cases hWhole
      exact (lasting_asks.readChar hReach hRead hSingle).session
  | endless _ => cases hWhole

theorem parts_of_make {options : FilterOptions} {x : Expander} {s : Session} {markup : Markup}
    {reader : TextReader} (hMarkup : options.markup = .ok markup)
    (hMake : make options x s reader = .ok f) :
    f.multiLine = options.multiLine ∧ f.session = s ∧
      f.expander = { x with markup := markup } := by
  obtain ⟨other, hMeasured, rfl⟩ := eq_of_make hMake
  obtain ⟨hOther, _⟩ := options.measured_eq_ok_iff.mp hMeasured
  obtain rfl := Except.ok.inj (hMarkup.symm.trans hOther)
  exact ⟨rfl, rfl, rfl⟩

/-- What comes of line ends where a placeholder may not span lines. -/
structure KeepsLines (options : FilterOptions) (x : Expander) (s : Session) : Prop where
  /-- A placeholder that a filter sees in its input holds no line end behind its opening token. -/
  seen : ∀ (f : FilterStream) token expression, f.multiLine = options.multiLine →
    f.look.1 = .ok (.placeholder token expression) →
      ∃ d : Delimiter, token = d.wrap expression ∧ '\n' ∉ expression ++ d.closing
  /-- Whatever is read, nothing with a line end is asked for but what stands as a placeholder in an
  answer that is expanded again. -/
  read : ∀ reader f calls given g, make options x s reader = .ok f →
    repliesOf reply calls f = some (given, g) → g.multiLine = options.multiLine ∧
      s.Asks (fun expression => '\n' ∉ expression ∨ g.expander.Nested expression) g.session
  /-- So it is where a text is filtered as a whole. -/
  filtered : ∀ markup text result after, options.markup = .ok markup →
    filterText options x s text = some (result, after) →
      s.onEmptyChain.Asks (fun expression => '\n' ∉ expression ∨
        ({ x with markup := markup } : Expander).Nested expression) after

theorem keeps_lines {options : FilterOptions} (hSingle : options.multiLine = false) (x : Expander)
    (s : Session) : KeepsLines options x s where
  seen f token expression hLine := unbroken_of_look (hLine.trans hSingle)
  read reader f calls given g hMake hReplies := by
    obtain ⟨markup, hMeasured, _⟩ := eq_of_make hMake
    obtain ⟨hMarkup, _⟩ := options.measured_eq_ok_iff.mp hMeasured
    obtain ⟨hLine, hSession, _⟩ := parts_of_make hMarkup hMake
    have hAsks := lasting_asks.replies (reach_of_make hMake) hReplies (hLine.trans hSingle)
    have hAsked := hAsks.session
    rw [← hAsks.askable, hSession] at hAsked
    exact ⟨hAsks.multiLine.trans hLine, hAsked⟩
  filtered markup text result after hMarkup hFilter := by
    rcases filterText_cases hMarkup hFilter with ⟨_, rfl⟩ | ⟨f, out, hMake, hFlows, hWhole⟩
    · exact .refl _ _
    · obtain ⟨hLine, hSession, hExpander⟩ := parts_of_make hMarkup hMake
      have hAsked := hFlows.asks (reach_of_make hMake) (hLine.trans hSingle) hWhole
      rw [hSession] at hAsked
      exact hAsked.mono fun expression hAskable => hExpander ▸ hAskable

/-- The standard switches, and an answer that holds a placeholder with a line end in it. -/
theorem keeps_lines_standard :
    let x : Expander := ⟨[.single ['a'] ['@', 'b', '\n', 'c', '@']], [], .standard, true, false⟩
    FilterOptions.standard.multiLine = false ∧ KeepsLines .standard x (.fresh .empty) := by
  intro x
  exact ⟨rfl, keeps_lines rfl x (.fresh .empty)⟩

/-- With the standard switches, which keep expressions to one line, an expression that spans two is
asked for, because an answer holds it. -/
theorem nested_line_end_asked :
    let x : Expander := ⟨[.single ['a'] ['@', 'b', '\n', 'c', '@'], .single ['b', '\n', 'c'] ['X']], [],
      .standard, true, false⟩
    ∃ after, filterText .standard x (.fresh .empty) ['@', 'a', '@'] = some (.ok ['X'], after) ∧
      .asked 1 ['b', '\n', 'c'] ∈ after.events := by
  intro x
  have hMarkup : FilterOptions.standard.markup = .ok .standard := rfl
  have hCut : (FilterOptions.standard.rules .standard).cut ['@', 'a', '@'] =
      [.placeholder .atSign ['a']] := by
    with_unfolding_all rfl
  have hOuter : x.valueSegments ['@', 'b', '\n', 'c', '@'] =
      [.placeholder .atSign ['b', '\n', 'c']] := by
    with_unfolding_all rfl
  have hInner : x.valueSegments ['X'] = [.literal ['X']] := by
    with_unfolding_all rfl
  have hAskInner : x.ask ['b', '\n', 'c'] =
      (.ok (some ['X']), [.asked 0 ['b', '\n', 'c'], .asked 1 ['b', '\n', 'c']]) := rfl
  have hAskOuter : x.ask ['a'] = (.ok (some ['@', 'b', '\n', 'c', '@']), [.asked 0 ['a']]) := rfl
  have hNil : ∀ chain, x.expandIn chain [] = some ⟨.ok [], chain, []⟩ := fun chain => by
    rw [Expander.expandIn]
  obtain ⟨inner, hExpansion, hResult, hAsked⟩ : ∃ inner, x.resolveIn .empty ['a'] = some inner ∧
      inner.result = .ok (some ['X']) ∧ .asked 1 ['b', '\n', 'c'] ∈ inner.events := by
    rw [Expander.resolveIn]
    simp only [hAskOuter, hOuter]
    rw [Expander.expandIn, Expander.resolveIn]
    simp only [hAskInner, hInner]
    rw [Expander.expandIn, hNil]
    simp only [hNil]
    exact ⟨_, rfl, rfl, by decide⟩
  obtain ⟨after, hResolve, hEvents⟩ :=
    x.resolve_of_resolveIn (s := (Session.fresh .empty).onEmptyChain) rfl rfl hExpansion hResult
  refine ⟨after, filterText_of_cut hMarkup (by decide) hCut hResolve, ?_⟩
  rw [hEvents]
  exact hAsked

end FilterStream

end Placeholder
