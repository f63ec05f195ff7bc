import Placeholder.Proofs.Expansion.Failing
import Placeholder.Proofs.Expansion.Leading
import Placeholder.Proofs.Session.Remembering
/-!
The frames of a session. Every question ends on the chain that it was asked on, whatever comes out
of it, and no frame was ever pushed that was on the chain already.
-/
namespace Placeholder

/-- What a question leaves behind: the chain as it was, and among what happened no frame that was
pushed on one equal to it. -/
structure Session.Restored (s after : Session) : Prop where
  chain : after.chain = s.chain
  pushed : ∃ events, after.events = s.events ++ events ∧ ∀ frames, .opened frames ∈ events →
    ∃ below frame, frames = below ++ [frame] ∧ s.chain.Grows below ∧ frame ∉ below

namespace Session.Restored

variable {s after later : Session}

theorem refl (s : Session) : s.Restored s := ⟨rfl, [], (List.append_nil _).symm, by simp⟩

theorem trans (h : s.Restored after) (hLater : after.Restored later) : s.Restored later := by
  obtain ⟨hChain, events, hEvents, hPushed⟩ := h
  obtain ⟨hLaterChain, more, hMore, hMorePushed⟩ := hLater
  rw [hChain] at hLaterChain hMorePushed
  refine ⟨hLaterChain, events ++ more, ?_, fun frames hMem => ?_⟩
  · rw [hMore, hEvents, List.append_assoc]
  · rcases List.mem_append.mp hMem with hHere | hThere
    · exact hPushed frames hHere
    · exact hMorePushed frames hThere

end Session.Restored

namespace Expander

variable {x : Expander} {s after : Session}

theorem restored_of_resolve {expression : Text} {result : Except Failure (Option Text)}
    (h : x.resolve s expression = some (result, after)) : s.Restored after := by
  rw [resolve] at h
  cases hRemembered : x.remembered? s expression with
  | some answer =>
      rw [hRemembered] at h
      cases h
      exact .refl s
  | none =>
      rw [hRemembered] at h
      obtain ⟨inner, hInner, hConclude⟩ := Option.map_eq_some_iff.mp h
      obtain ⟨hChain, hEvents⟩ := x.conclude_session s expression inner
      rw [hConclude] at hChain hEvents
      refine ⟨hChain.trans (x.restores_of_expansion.1 _ _ _ hInner).same, _, hEvents, ?_⟩
      intro frames hMem
      obtain ⟨query, hLeads, hNew, rfl⟩ := x.causes_of_expansion.1 _ _ _ hInner _ hMem
      exact ⟨_, _, rfl, grows_of_leads hLeads, Chain.key_notMem_of_has hNew⟩

theorem restored_of_fillSegments {segments : List Segment} {result : Except Failure Text}
    (h : x.fillSegments s segments = some (result, after)) : s.Restored after :=
  fillSegments_induct (R := fun s _ after => s.Restored after) .refl (fun _ _ _ _ => .trans)
    (fun _ _ _ _ _ _ => restored_of_resolve) h

/-- The chain is always restored. A question about an expression or a whole text that comes to an
end, with a value, without one or with a failure met at any depth, leaves the chain exactly as it
was, whatever prefixes it accepts and whatever frames a caller has opened, equal ones among them.
And whether the question ends or not, everything that it leads to is met on this chain with frames
on top that differ from one another and from all those below, and pushes another one only if it does
so too. -/
theorem chain_restored (x : Expander) (s : Session) :
    (∀ expression result after, x.resolve s expression = some (result, after) → s.Restored after) ∧
      (∀ text result after, x.interpolate s text = some (result, after) → s.Restored after) ∧
      ∀ expression query, Relation.ReflTransGen x.Leads ⟨s.chain, expression⟩ query →
        s.chain.Grows query.chain.frames ∧
          ∀ frames, query.Opens frames → s.chain.Grows frames :=
  ⟨fun _ _ _ => restored_of_resolve, fun _ _ _ => restored_of_fillSegments, fun _ _ hLeads =>
    ⟨grows_of_leads hLeads, by
      rintro frames ⟨hNew, rfl⟩
      exact (grows_of_leads hLeads).start hNew⟩⟩

/-- A failure below the top level, on a chain with a prefix on which a caller has opened one frame
twice. -/
theorem chain_restored_after_failure :
    let x : Expander := ⟨[.single ['a'] ['@', 'p', '.', 'b', '@'],
      .failing ['p', '.', 'b'] ['n', 'o']], [], .standard, true, true⟩
    let s : Session := .fresh ⟨[['p', '.']], [['c'], ['c']]⟩
    let deepest : List Text := [['c'], ['c'], ['a'], ['b']]
    let after := s.record [.opened [['c'], ['c'], ['a']], .asked 0 ['a'], .opened deepest,
      .asked 0 ['p', '.', 'b'], .asked 1 ['p', '.', 'b']]
    let failure : Failure := .lookup ['p', '.', 'b'] ['n', 'o']
    let inner : Query := ⟨s.chain.start ['a'], ['p', '.', 'b']⟩
    (x.resolve s ['a'] = some (.error failure, after) ∧ s.Restored after) ∧
      (x.interpolate s ['@', 'a', '@'] = some (.error failure, after) ∧ s.Restored after) ∧
      x.Leads ⟨s.chain, ['a']⟩ inner ∧ inner.Opens deepest ∧ s.chain.Grows deepest := by
  intro x s deepest after failure inner
  obtain ⟨hResolve, hInterpolate, hGrows⟩ := x.chain_restored s
  have hOuter : x.ask ['a'] = (.ok (some ['@', 'p', '.', 'b', '@']), [.asked 0 ['a']]) := rfl
  have hInner : x.ask ['p', '.', 'b'] =
      (.error failure, [.asked 0 ['p', '.', 'b'], .asked 1 ['p', '.', 'b']]) := rfl
  have hCut : x.valueSegments ['@', 'p', '.', 'b', '@'] =
      [.placeholder .atSign ['p', '.', 'b']] := by
    with_unfolding_all rfl
  have hText : x.markup.segments ['@', 'a', '@'] = [.placeholder .atSign ['a']] := by
    with_unfolding_all rfl
  have hFails : ∀ value, (x.ask ['p', '.', 'b']).1 ≠ .ok (some value) := by simp [hInner]
  have hNew : (s.chain.start ['a']).has ['p', '.', 'b'] = false := rfl
  have hBelow := resolveIn_unanswered hNew hFails
  have hValue := expandIn_failed hBelow (congrArg Prod.fst hInner) .atSign []
  rw [← hCut] at hValue
  have hTop : s.chain.has ['a'] = false := rfl
  have hWhole := resolveIn_value hTop (congrArg Prod.fst hOuter) hValue
  have hAnswer : x.resolve s ['a'] = some (.error failure, after) := by
    rw [x.resolve_of_empty rfl, hWhole]
    rfl
  have hFilled : x.interpolate s ['@', 'a', '@'] = some (.error failure, after) := by
    rw [interpolate, hText, fillSegments, hAnswer]
    rfl
  have hLeads : x.Leads ⟨s.chain, ['a']⟩ inner :=
    .inside hTop (congrArg Prod.fst hOuter) (hCut.trans (List.nil_append _).symm)
      (x.expandIn_nil _) rfl
  exact ⟨⟨hAnswer, hResolve _ _ _ hAnswer⟩, ⟨hFilled, hInterpolate _ _ _ hFilled⟩, hLeads,
    ⟨rfl, rfl⟩, (hGrows _ _ (.single hLeads)).2 _ ⟨rfl, rfl⟩⟩

end Expander

end Placeholder
