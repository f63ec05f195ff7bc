import Mathlib.Logic.Function.Basic
import Placeholder.Proofs.Session.TopLevel
/-!
Clones of one expander at work on chains that their callers open and close frames on. Whether a clone
remembers answers shows in nothing that it replies and in no chain. What remembering does is that the
sources are asked once at the top level about an expression that has an answer.
-/
namespace Placeholder

/-- What one of several clones has of its own. -/
structure Clone where
  remembers : Bool
  answers : Table
  /-- What it did so far, the latest first. -/
  log : List Event

namespace Clone

/-- A clone that was not used yet. -/
def unused (remembers : Bool) : Clone := ⟨remembers, .empty, []⟩

/-- The expander as this clone has it. -/
def expander (x : Expander) (clone : Clone) : Expander := { x with remembers := clone.remembers }

/-- The clone at work on a chain. -/
def on (clone : Clone) (chain : Chain) : Session := ⟨chain, clone.answers, clone.log⟩

/-- The clone as a session leaves it. -/
def after (clone : Clone) (s : Session) : Clone :=
  { clone with answers := s.answers, log := s.log }

/-- What the clone did so far, in order. -/
def events (clone : Clone) : List Event := clone.log.reverse

end Clone

/-- One thing to do with the clones, by their numbers and those of the chains. -/
inductive Request where
  /-- Interpolates a text on a chain of its own, which is empty and accepts no prefix. -/
  | interpolate (clone : Nat) (text : Text)
  | interpolateOn (clone chain : Nat) (text : Text)
  | resolve (clone chain : Nat) (expression : Text)
  /-- Begins a chain anew, without frames. -/
  | begin (chain : Nat) (prefixes : List Text)
  | start (chain : Nat) (expression : Text)
  | finish (chain : Nat) (expression : Text)
  | forget (clone : Nat)
  /-- Puts a clone of `clone` in the place of `other`. -/
  | copy (clone other : Nat)
  | remember (clone : Nat) (on : Bool)

namespace Request

/-- The same with nothing remembered. -/
def unremembered : Request → Request
  | remember clone _ => remember clone false
  | request => request

/-- Every chain that is begun accepts these prefixes. -/
def Shares (prefixes : List Text) : Request → Prop
  | interpolate .. => prefixes = []
  | begin _ own => own = prefixes
  | _ => True

/-- The clone of this number stays in use, goes on remembering and forgets nothing. -/
def Keeps (number : Nat) : Request → Prop
  | forget clone => clone ≠ number
  | copy _ other => other ≠ number
  | remember clone on => clone = number → on = true
  | _ => True

end Request

/-- What comes back. -/
inductive Response where
  | text (result : Except Failure Text)
  | answer (result : Except Failure (Option Text))
  | done

/-- Clones of one expander and the chains that they are used on. -/
structure Clones where
  clones : Nat → Clone
  chains : Nat → Chain

namespace Clones

/-- Nothing was asked yet. -/
def unused (remembers : Bool) (prefixes : List Text) : Clones :=
  ⟨fun _ => .unused remembers, fun _ => .withPrefixes prefixes⟩

def setClone (c : Clones) (number : Nat) (clone : Clone) : Clones :=
  { c with clones := Function.update c.clones number clone }

def setChain (c : Clones) (number : Nat) (chain : Chain) : Clones :=
  { c with chains := Function.update c.chains number chain }

/-- The chain of a number; without one, an empty chain that accepts no prefix. -/
def chain (c : Clones) : Option Nat → Chain
  | none => .empty
  | some number => c.chains number

/-- The chain of a number as a question leaves it; without one, nothing is kept of it. -/
def leaveChain (c : Clones) (chain : Chain) : Option Nat → Clones
  | none => c
  | some number => c.setChain number chain

/-- Interpolating a text, as a question to a clone. -/
def interpolate (text : Text) (own : Expander) (s : Session) : Option (Response × Session) :=
  (own.interpolate s text).map (Prod.map .text id)

/-- Resolving an expression, as a question to a clone. -/
def resolve (expression : Text) (own : Expander) (s : Session) : Option (Response × Session) :=
  (own.resolve s expression).map (Prod.map .answer id)

/-- Puts a question to a clone. -/
def question (c : Clones) (x : Expander) (clone : Nat) (chain : Option Nat)
    (ask : Expander → Session → Option (Response × Session)) : Option (Response × Clones) :=
  (ask ((c.clones clone).expander x) ((c.clones clone).on (c.chain chain))).map
    fun (result, after) =>
      (result, (c.setClone clone ((c.clones clone).after after)).leaveChain after.chain chain)

/-- Does what is requested. -/
def reply (x : Expander) (c : Clones) : Request → Option (Response × Clones)
  | .interpolate clone text => c.question x clone none (interpolate text)
  | .interpolateOn clone chain text => c.question x clone chain (interpolate text)
  | .resolve clone chain expression => c.question x clone chain (resolve expression)
  | .begin chain prefixes => some (.done, c.setChain chain (.withPrefixes prefixes))
  | .start chain expression => some (.done, c.setChain chain ((c.chains chain).start expression))
  | .finish chain expression => some (.done, c.setChain chain ((c.chains chain).finish expression))
  | .forget clone => some (.done, c.setClone clone { c.clones clone with answers := .empty })
  | .copy clone other => some (.done, c.setClone other (.unused (c.clones clone).remembers))
  | .remember clone on => some (.done, c.setClone clone { c.clones clone with remembers := on })

/-- Does one thing after the other. Each reply stands beside the chains after it. -/
def serve (x : Expander) : List Request → Clones → Option (List (Response × (Nat → Chain)) × Clones)
  | [], c => some ([], c)
  | request :: rest, c => do
    let (reply, next) ← c.reply x request
    let (later, after) ← serve x rest next
    return ((reply, next.chains) :: later, after)

/-! Nothing of what is remembered shows. -/

variable {x : Expander} {prefixes : List Text} {c d : Clones}

/-- Two sets of clones that can be told apart at most by what they remember, and remember nothing that
is not so. -/
structure Alike (x : Expander) (prefixes : List Text) (c d : Clones) : Prop where
  chains : d.chains = c.chains
  accepts : ∀ chain, (c.chains chain).prefixes = prefixes
  left : ∀ clone, x.Faithful prefixes (c.clones clone).answers
  right : ∀ clone, x.Faithful prefixes (d.clones clone).answers

theorem alike_unused (x : Expander) (prefixes : List Text) (remembers remembers' : Bool) :
    Alike x prefixes (unused remembers prefixes) (unused remembers' prefixes) where
  chains := rfl
  accepts _ := rfl
  left _ := x.faithful_empty prefixes
  right _ := x.faithful_empty prefixes

theorem Alike.setClone (h : Alike x prefixes c d) (number : Nat) {m n : Clone}
    (hLeft : x.Faithful prefixes m.answers) (hRight : x.Faithful prefixes n.answers) :
    Alike x prefixes (c.setClone number m) (d.setClone number n) where
  chains := h.chains
  accepts := h.accepts
  left clone := by
    by_cases hSame : clone = number
    · simpa [Clones.setClone, hSame] using hLeft
    · simpa [Clones.setClone, hSame] using h.left clone
  right clone := by
    by_cases hSame : clone = number
    · simpa [Clones.setClone, hSame] using hRight
    · simpa [Clones.setClone, hSame] using h.right clone

theorem Alike.setChain (h : Alike x prefixes c d) (number : Nat) {chain : Chain}
    (hPrefixes : chain.prefixes = prefixes) :
    Alike x prefixes (c.setChain number chain) (d.setChain number chain) where
  chains := by simp [Clones.setChain, h.chains]
  accepts other := by
    by_cases hSame : other = number
    · simpa [Clones.setChain, hSame] using hPrefixes
    · simpa [Clones.setChain, hSame] using h.accepts other
  left := h.left
  right := h.right

/-- Both come to the same result and are alike after it, or neither comes to one. -/
inductive Together {α : Type} (x : Expander) (prefixes : List Text) :
    Option (α × Clones) → Option (α × Clones) → Prop
  | endless : Together x prefixes none none
  | ends {result : α} {c d : Clones} (h : Alike x prefixes c d) :
      Together x prefixes (some (result, c)) (some (result, d))

/-- A question whose answer does not depend on what is remembered has the same answer on both
sides. -/
theorem Alike.question (h : Alike x prefixes c d) (clone : Nat) {chain : Option Nat}
    (hChain : (c.chain chain).prefixes = prefixes)
    (ask : Expander → Session → Option (Response × Session)) (given : Option Response)
    (hAsk : ∀ remembers s, s.chain = c.chain chain → x.Faithful s.chain.prefixes s.answers →
      x.Answered s given (ask { x with remembers := remembers } s)) :
    Together x prefixes (c.question x clone chain ask) (d.question x clone chain ask) := by
  subst hChain
  have hLeft := hAsk (c.clones clone).remembers ((c.clones clone).on (c.chain chain)) rfl
    (h.left clone)
  have hRight := hAsk (d.clones clone).remembers ((d.clones clone).on (c.chain chain)) rfl
    (h.right clone)
  have hSame : d.chain chain = c.chain chain := by
    cases chain with
    | none => rfl
    | some number => exact congrFun h.chains number
  simp only [Clones.question, Clone.expander, hSame]
  generalize ask _ _ = left at hLeft ⊢
  generalize ask _ _ = right at hRight ⊢
  cases hLeft with
  | endless =>
      cases hRight with
      | endless => exact .endless
  | ends hChain hFaithful =>
      cases hRight with
      | ends hChain' hFaithful' =>
          simp only [Option.map_some, hChain, hChain']
          have hNext := h.setClone clone (m := (c.clones clone).after _)
            (n := (d.clones clone).after _) hFaithful hFaithful'
          cases chain with
          | none => exact .ends hNext
          | some number => exact .ends (hNext.setChain number rfl)

theorem Alike.interpolate (h : Alike x prefixes c d) (clone : Nat) (chain : Option Nat)
    (hChain : (c.chain chain).prefixes = prefixes) (text : Text) :
    Together x prefixes (c.question x clone chain (interpolate text))
      (d.question x clone chain (interpolate text)) := by
  apply h.question clone hChain _ ((x.fillOn (c.chain chain) (x.markup.segments text)).map .text)
  intro remembers s hOn hFaithful
  rw [← x.faithful_remembering remembers] at hFaithful
  have hAnswered := hFaithful.interpolate text
  rw [x.fillOn_remembering, hOn] at hAnswered
  exact hAnswered.of_remembering.map Response.text

theorem Alike.resolve (h : Alike x prefixes c d) (clone : Nat) (chain : Option Nat)
    (hChain : (c.chain chain).prefixes = prefixes) (expression : Text) :
    Together x prefixes (c.question x clone chain (resolve expression))
      (d.question x clone chain (resolve expression)) := by
  apply h.question clone hChain _ ((x.answerOn (c.chain chain) expression).map .answer)
  intro remembers s hOn hFaithful
  rw [← x.faithful_remembering remembers] at hFaithful
  have hAnswered := hFaithful.resolve expression
  rw [x.answerOn_remembering, hOn] at hAnswered
  exact hAnswered.of_remembering.map Response.answer

/-- Whatever is requested, the reply is the same, and so are the chains after it. -/
theorem Alike.reply (h : Alike x prefixes c d) {request : Request}
    (hShares : request.Shares prefixes) :
    Together x prefixes (c.reply x request) (d.reply x request.unremembered) := by
  cases request with
  | interpolate clone text => exact h.interpolate clone none hShares.symm text
  | interpolateOn clone chain text => exact h.interpolate clone chain (h.accepts chain) text
  | resolve clone chain expression => exact h.resolve clone chain (h.accepts chain) expression
  | begin chain own => exact .ends (h.setChain chain hShares)
  | start chain expression =>
      simp only [Clones.reply, Request.unremembered, h.chains]
      exact .ends (h.setChain chain (h.accepts chain))
  | finish chain expression =>
      simp only [Clones.reply, Request.unremembered, h.chains]
      exact .ends (h.setChain chain (h.accepts chain))
  | forget clone =>
      exact .ends (h.setClone clone (x.faithful_empty prefixes) (x.faithful_empty prefixes))
  | copy clone other =>
      exact .ends (h.setClone other (x.faithful_empty prefixes) (x.faithful_empty prefixes))
  | remember clone on => exact .ends (h.setClone clone (h.left clone) (h.right clone))

/-- So it is for one thing after the other. -/
theorem Alike.serve {requests : List Request} (h : Alike x prefixes c d)
    (hShares : ∀ request ∈ requests, request.Shares prefixes) :
    Together x prefixes (serve x requests c) (serve x (requests.map .unremembered) d) := by
  induction requests generalizing c d with
  | nil => exact .ends h
  | cons request rest ih =>
      have hReply := h.reply (hShares request (List.mem_cons_self ..))
      rw [List.map_cons, Clones.serve, Clones.serve]
      generalize c.reply x request = left at hReply ⊢
      generalize d.reply x request.unremembered = right at hReply ⊢
      cases hReply with
      | endless => exact .endless
      | ends hNext =>
          have hRest := ih hNext fun later hMem => hShares later (List.mem_cons_of_mem _ hMem)
          simp only [Option.bind_eq_bind, Option.bind_some, hNext.chains]
          generalize Clones.serve x rest _ = left at hRest ⊢
          generalize Clones.serve x (rest.map _) _ = right at hRest ⊢
          cases hRest with
          | endless => exact .endless
          | ends hAfter => exact .ends hAfter

/-! Sources are asked once. -/

/-- The clone remembers answers, and since `before` it asked no source twice at the top level about an
expression that has an answer. -/
structure Thrifty (x : Expander) (prefixes : List Text) (before : List Event) (clone : Clone) :
    Prop where
  remembers : clone.remembers = true
  spares : ∀ chain, (clone.expander x).Spares prefixes before (clone.on chain)

/-- The answers are those that would be given if nothing were remembered. -/
theorem Alike.faithful (h : Alike x prefixes c d) (number : Nat) :
    ((c.clones number).expander x).Faithful prefixes (c.clones number).answers := by
  rw [Clone.expander, x.faithful_remembering]
  exact h.left number

variable {before : List Event} {number : Nat}

/-- A clone stays thrifty if the question keeps it so. -/
theorem Thrifty.question (h : Thrifty x prefixes before (c.clones number)) (clone : Nat)
    {chain : Option Nat} {ask : Expander → Session → Option (Response × Session)} {result : Response}
    {next : Clones} (hQuestion : c.question x clone chain ask = some (result, next))
    (hAsk : ∀ after, ask ((c.clones number).expander x) ((c.clones number).on (c.chain chain)) =
      some (result, after) → ((c.clones number).expander x).Spares prefixes before after) :
    Thrifty x prefixes before (next.clones number) := by
  obtain ⟨⟨given, after⟩, hGiven, hNext⟩ := Option.map_eq_some_iff.mp hQuestion
  obtain ⟨rfl, rfl⟩ := Prod.mk.inj hNext
  have hClones : ((c.setClone clone ((c.clones clone).after after)).leaveChain after.chain
      chain).clones = Function.update c.clones clone ((c.clones clone).after after) := by
    cases chain <;> rfl
  rw [hClones]
  by_cases hSame : number = clone
  · subst hSame
    rw [Function.update_self]
    exact ⟨h.remembers, fun _ => hAsk after hGiven⟩
  · rw [Function.update_of_ne hSame]
    exact h

theorem Thrifty.interpolate (h : Thrifty x prefixes before (c.clones number))
    (hAlike : Alike x prefixes c d) (clone : Nat) (chain : Option Nat)
    (hChain : (c.chain chain).prefixes = prefixes) {text : Text} {result : Response} {next : Clones}
    (hQuestion : c.question x clone chain (interpolate text) = some (result, next)) :
    Thrifty x prefixes before (next.clones number) := by
  apply h.question clone hQuestion
  intro after hAfter
  obtain ⟨⟨filled, _⟩, hFilled, hSame⟩ := Option.map_eq_some_iff.mp hAfter
  obtain ⟨_, rfl⟩ := Prod.mk.inj hSame
  exact (h.spares (c.chain chain)).fillSegments _ h.remembers (hAlike.faithful number) hChain
    hFilled

/-- Whatever is requested, a clone that keeps its answers asks no source again. -/
theorem Thrifty.reply (h : Thrifty x prefixes before (c.clones number))
    (hAlike : Alike x prefixes c d) {request : Request} (hShares : request.Shares prefixes)
    (hKeeps : request.Keeps number) {result : Response} {next : Clones}
    (hReply : c.reply x request = some (result, next)) :
    Thrifty x prefixes before (next.clones number) := by
  -- Where the clone is not the one that changes, it is as it was.
  have hOther : ∀ {clone own}, clone ≠ number →
      Thrifty x prefixes before ((c.setClone clone own).clones number) := by
    intro clone own hNe
    simpa [Clones.setClone, Ne.symm hNe] using h
  cases request with
  | interpolate clone text => exact h.interpolate hAlike clone none hShares.symm hReply
  | interpolateOn clone chain text =>
      exact h.interpolate hAlike clone chain (hAlike.accepts chain) hReply
  | resolve clone chain expression =>
      apply h.question clone hReply
      intro after hAfter
      obtain ⟨⟨answer, _⟩, hAnswer, hSame⟩ := Option.map_eq_some_iff.mp hAfter
      obtain ⟨_, rfl⟩ := Prod.mk.inj hSame
      exact (h.spares (c.chains chain)).resolve h.remembers (hAlike.accepts chain) hAnswer
  | begin chain own =>
      obtain ⟨_, rfl⟩ := Prod.mk.inj (Option.some.inj hReply)
      exact h
  | start chain expression =>
      obtain ⟨_, rfl⟩ := Prod.mk.inj (Option.some.inj hReply)
      exact h
  | finish chain expression =>
      obtain ⟨_, rfl⟩ := Prod.mk.inj (Option.some.inj hReply)
      exact h
  | forget clone =>
      obtain ⟨_, rfl⟩ := Prod.mk.inj (Option.some.inj hReply)
      exact hOther hKeeps
  | copy clone other =>
      obtain ⟨_, rfl⟩ := Prod.mk.inj (Option.some.inj hReply)
      exact hOther hKeeps
  | remember clone on =>
      obtain ⟨_, rfl⟩ := Prod.mk.inj (Option.some.inj hReply)
      by_cases hSame : clone = number
      · obtain rfl := hKeeps hSame
        subst hSame
        have hClone : { c.clones clone with remembers := true } = c.clones clone := by
          rw [← h.remembers]
        rw [hClone, Clones.setClone, Function.update_eq_self]
        exact h
      · exact hOther hSame

theorem Thrifty.serve {requests : List Request}
    (h : Thrifty x prefixes before (c.clones number)) (hAlike : Alike x prefixes c d)
    (hShares : ∀ request ∈ requests, request.Shares prefixes)
    (hKeeps : ∀ request ∈ requests, request.Keeps number)
    {replies : List (Response × (Nat → Chain))} {after : Clones}
    (hServe : serve x requests c = some (replies, after)) :
    Thrifty x prefixes before (after.clones number) := by
  induction requests generalizing c d replies with
  | nil =>
      obtain ⟨_, rfl⟩ := Prod.mk.inj (Option.some.inj hServe)
      exact h
  | cons request rest ih =>
      obtain ⟨⟨reply, next⟩, hReply, hRest⟩ := Option.bind_eq_some_iff.mp hServe
      obtain ⟨⟨later, last⟩, hLater, hSame⟩ := Option.bind_eq_some_iff.mp hRest
      obtain ⟨_, rfl⟩ := Prod.mk.inj (Option.some.inj hSame)
      have hHere := hShares request (List.mem_cons_self ..)
      have hNext := hAlike.reply hHere
      rw [hReply] at hNext
      generalize d.reply x request.unremembered = other at hNext
      cases hNext with
      | ends hBoth =>
          exact ih (h.reply hAlike hHere (hKeeps request (List.mem_cons_self ..)) hReply) hBoth
            (fun later hMem => hShares later (List.mem_cons_of_mem _ hMem))
            (fun later hMem => hKeeps later (List.mem_cons_of_mem _ hMem)) hLater

/-- While this is done, a clone that remembers answers all along and forgets none asks no source twice
at the top level about an expression that has an answer. -/
def AsksOnce (x : Expander) (prefixes : List Text) (requests : List Request) (c : Clones) : Prop :=
  ∀ number, (c.clones number).remembers = true → (∀ request ∈ requests, request.Keeps number) →
    ∀ replies after, serve x requests c = some (replies, after) →
      ∃ since, (after.clones number).events = (c.clones number).events ++ since ∧
        ∀ expression, x.Answers prefixes expression → ∀ place,
          (topQuestions false since).count (place, expression) ≤ 1

theorem Alike.asksOnce {requests : List Request} (h : Alike x prefixes c d)
    (hShares : ∀ request ∈ requests, request.Shares prefixes) :
    AsksOnce x prefixes requests c := by
  intro number hRemembers hKeeps replies after hServe
  have hStart : Thrifty x prefixes (c.clones number).events (c.clones number) :=
    ⟨hRemembers, fun _ => ⟨[], (List.append_nil _).symm, fun _ _ _ => by simp [topQuestions]⟩⟩
  have hEnd := hStart.serve h hShares hKeeps hServe
  obtain ⟨since, hSince, hSpares⟩ := hEnd.spares .empty
  refine ⟨since, hSince, fun expression hAnswers place => ?_⟩
  rw [Expander.Answers, ← x.answerOn_remembering] at hAnswers
  exact (hSpares expression hAnswers place).1

/-- Whatever is done with the clones, each reply and all chains after it are as they would be if
nothing were ever remembered. And from any moment on, sources are asked once at the top level by a
clone that remembers answers. -/
theorem remembering_unnoticed (x : Expander) (remembers : Bool) (prefixes : List Text)
    (requests : List Request) (hShares : ∀ request ∈ requests, request.Shares prefixes) :
    (serve x requests (unused remembers prefixes)).map Prod.fst =
        (serve x (requests.map .unremembered) (unused false prefixes)).map Prod.fst ∧
      ∀ earlier later replies c, requests = earlier ++ later →
        serve x earlier (unused remembers prefixes) = some (replies, c) →
        AsksOnce x prefixes later c := by
  constructor
  · have hTogether := (alike_unused x prefixes remembers false).serve hShares
    generalize serve x requests _ = left at hTogether ⊢
    generalize serve x (requests.map _) _ = right at hTogether ⊢
    cases hTogether with
    | endless => rfl
    | ends _ => rfl
  · rintro earlier later replies c rfl hEarlier
    have hTogether := (alike_unused x prefixes remembers false).serve fun request hMem =>
      hShares request (List.mem_append_left later hMem)
    rw [hEarlier] at hTogether
    generalize serve x (earlier.map _) _ = right at hTogether
    cases hTogether with
    | ends hAlike =>
        exact hAlike.asksOnce fun request hMem => hShares request (List.mem_append_right earlier hMem)

/-- A value that refers back is asked for inside and outside of a frame, by a clone and by a clone of
it, before and after the answers are dropped. -/
theorem remembering_unnoticed_circle :
    let x : Expander := ⟨[.ofTable (.ofList [(['a'], ['@', 'b', '@']), (['b'], ['@', 'a', '@'])])],
      [fun _ value => some ('!' :: value)], .standard, true, true⟩
    let requests : List Request := [.resolve 0 0 ['a'], .start 0 ['b'], .resolve 0 0 ['a'],
      .finish 0 ['b'], .copy 0 1, .interpolateOn 1 0 ['@', 'a', '@'], .resolve 0 0 ['p', 'a'],
      .forget 0, .begin 0 [['p']], .resolve 0 0 ['a'], .remember 1 false, .resolve 1 0 ['a']]
    (serve x requests (unused true [['p']])).map Prod.fst =
        (serve x (requests.map .unremembered) (unused false [['p']])).map Prod.fst ∧
      ∀ earlier later replies c, requests = earlier ++ later →
        serve x earlier (unused true [['p']]) = some (replies, c) →
        AsksOnce x [['p']] later c :=
  remembering_unnoticed _ true [['p']] _ (by simp [Request.Shares])

end Clones

end Placeholder
