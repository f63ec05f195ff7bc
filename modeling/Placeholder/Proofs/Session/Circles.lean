import Placeholder.Proofs.Expansion.Circling
import Placeholder.Proofs.Session.Remembering
/-!
The circles that a session reports. Whether answers are remembered or finishers change them, what is
reported from one question to the next is genuine.
-/
namespace Placeholder.Expander

/-- From one session to the other the chain is the same, and every circle that was reported is genuine;
`asked` says what the questions in between were about, and `aborts` with which failures a run may have
been aborted. -/
structure ReportsCircles (x : Expander) (s : Session) (asked : Text → Prop) (aborts : Failure → Prop)
    (after : Session) : Prop where
  chain : after.chain = s.chain
  reports : ∃ events, after.events = s.events ++ events ∧
    ∀ path, .circular path ∈ events → x.Genuine s.chain asked aborts path

namespace ReportsCircles

variable {x : Expander} {s after later : Session} {asked wider : Text → Prop}
  {aborts weaker : Failure → Prop}

theorem refl (x : Expander) (s : Session) (asked : Text → Prop) (aborts : Failure → Prop) :
    x.ReportsCircles s asked aborts s :=
  ⟨rfl, [], (List.append_nil _).symm, nofun⟩

theorem mono (h : x.ReportsCircles s asked aborts after)
    (hWeaker : ∀ failure, aborts failure → weaker failure) :
    x.ReportsCircles s asked weaker after := by
  obtain ⟨hChain, events, hEvents, hReports⟩ := h
  exact ⟨hChain, events, hEvents, fun path hMem => (hReports path hMem).mono (fun _ => id) hWeaker⟩

theorem widen (h : x.ReportsCircles s asked aborts after)
    (hWider : ∀ expression, asked expression → wider expression) :
    x.ReportsCircles s wider aborts after := by
  obtain ⟨hChain, events, hEvents, hReports⟩ := h
  exact ⟨hChain, events, hEvents, fun path hMem => (hReports path hMem).mono hWider fun _ => id⟩

theorem trans (h : x.ReportsCircles s asked aborts after)
    (hLater : x.ReportsCircles after asked aborts later) : x.ReportsCircles s asked aborts later := by
  obtain ⟨hChain, events, hEvents, hReports⟩ := h
  obtain ⟨hLaterChain, more, hMore, hMoreReports⟩ := hLater
  rw [hChain] at hLaterChain hMoreReports
  refine ⟨hLaterChain, events ++ more, ?_, fun path hMem => ?_⟩
  · rw [hMore, hEvents, List.append_assoc]
  · exact (List.mem_append.mp hMem).elim (hReports path) (hMoreReports path)

end ReportsCircles

variable {x : Expander} {s after : Session}

theorem reportsCircles_of_resolve {expression : Text} {result : Except Failure (Option Text)}
    (hEmpty : s.chain.frames = []) (h : x.resolve s expression = some (result, after)) :
    x.ReportsCircles s (· = expression) (fun failure => result = .error failure) after := by
  rw [resolve] at h
  cases hRemembered : x.remembered? s expression with
  | some answer =>
      rw [hRemembered] at h
      cases h
      exact .refl x s _ _
  | none =>
      rw [hRemembered] at h
      obtain ⟨inner, hInner, hConclude⟩ := Option.map_eq_some_iff.mp h
      obtain ⟨hChain, hEvents⟩ := x.conclude_session s expression inner
      have hResult := x.fst_conclude s expression inner
      rw [hConclude] at hChain hEvents hResult
      refine ⟨hChain.trans (x.restores_of_expansion.1 _ _ _ hInner).same, _, hEvents, ?_⟩
      intro path hMem
      refine (genuine_of_resolveIn hEmpty hInner hMem).mono (fun _ => id) fun failure hFails => ?_
      have hSame : result = inner.result.map _ := hResult
      rw [hSame, hFails]
      rfl

theorem reportsCircles_of_fillSegments {segments : List Segment} {result : Except Failure Text}
    (hEmpty : s.chain.frames = []) (h : x.fillSegments s segments = some (result, after)) :
    x.ReportsCircles s (fun expression => ∃ d, .placeholder d expression ∈ segments)
      (fun failure => result = .error failure) after := by
  have hReports := fillSegments_induct (R := fun s failed after => s.chain.frames = [] →
      x.ReportsCircles s (fun expression => ∃ d, .placeholder d expression ∈ segments)
        (fun failure => failed = some failure) after) ?_ ?_ ?_ h hEmpty
  · exact hReports.mono fun _ => errorOf_eq_some_iff.mp
  · exact fun s _ => .refl x s _ _
  · intro s next after failed hNext hLater hEmpty
    have hHere := hNext hEmpty
    exact (hHere.mono nofun).trans (hLater (hHere.chain ▸ hEmpty))
  · rintro s d expression result after hMem hResolve hEmpty
    have hHere := (reportsCircles_of_resolve hEmpty hResolve).mono fun _ => errorOf_eq_some_iff.mpr
    exact hHere.widen fun _ hSame => ⟨d, hSame ▸ hMem⟩

end Placeholder.Expander
