import Placeholder.Filter.Sight
import Placeholder.Proofs.Markup.Segments
import Placeholder.Proofs.Reading.PuttingBack
/-!
What a filter sees covers characters that it has seen. This holds on any input and for any window:
what a sight stands for is the front of what was read since the mark, as it is written there.
-/
namespace Placeholder.Sight

/-- What a sight says about the characters seen from `start`: which of them it covers, or that there
is none. -/
inductive Sees (markup : Markup) (start : TextReader) : Sight → Text → Prop
  | ended {now : Text} (hEnd : start.toCome = []) : Sees markup start ended now
  | literal {front now : Text} (hSome : front ≠ []) (hFront : front <+: now) :
      Sees markup start (literal front) now
  | escaped {marker now : Text} {d : Delimiter} (hMarker : markup.escape.marker = some marker)
      (hFront : marker ++ d.opening <+: now) :
      Sees markup start
        (escaped (markup.escape.kept marker ++ d.opening) (marker.length + d.opening.length)) now
  | placeholder {d : Delimiter} {expression now : Text} (hFront : d.wrap expression <+: now) :
      Sees markup start (placeholder (d.wrap expression) expression) now

open Lookahead (Looks)

variable {markup : Markup} {multiLine : Bool} {closing : Text} {l : Lookahead} {start : TextReader}
  {limit : Nat}

/-- The first character of a window passes. -/
theorem Sees.first {window now : Text} (hSome : window ≠ []) (hWindow : window <+: now) :
    Sees markup start (.literal (window.take 1)) now := by
  refine .literal ?_ ((List.take_prefix 1 window).trans hWindow)
  rwa [ne_eq, List.take_eq_nil_iff, not_or, and_iff_right Nat.one_ne_zero]

theorem closes_of_judge {seen : Text} {c : Char} (h : judge multiLine closing seen c = .closed) :
    closing.reverse <+: c :: seen := by
  rw [judge] at h
  split at h
  · cases h
  · split at h
    · rename_i hClosed
      exact List.isPrefixOf_iff_prefix.mp hClosed
    · cases h

theorem closes_of_followWindow {seen window body : Text}
    (h : followWindow multiLine closing seen window = some (.inl body)) :
    closing.reverse <+: body ∧ body.reverse <+: seen.reverse ++ window := by
  induction window generalizing seen with
  | nil => cases h
  | cons c rest ih =>
      rw [followWindow] at h
      cases hJudge : judge multiLine closing seen c with
      | broken => simp only [hJudge] at h; cases h
      | closed =>
          simp only [hJudge] at h
          cases h
          refine ⟨closes_of_judge hJudge, rest, ?_⟩
          rw [List.reverse_cons, List.append_assoc, List.singleton_append]
      | further =>
          simp only [hJudge] at h
          obtain ⟨hCloses, hFront⟩ := ih h
          refine ⟨hCloses, ?_⟩
          rwa [List.reverse_cons, List.append_assoc, List.singleton_append] at hFront

theorem eq_of_followWindow {seen window further : Text}
    (h : followWindow multiLine closing seen window = some (.inr further)) :
    further.reverse = seen.reverse ++ window := by
  induction window generalizing seen with
  | nil =>
      cases h
      exact (List.append_nil _).symm
  | cons c rest ih =>
      rw [followWindow] at h
      cases hJudge : judge multiLine closing seen c with
      | broken => simp only [hJudge] at h; cases h
      | closed => simp only [hJudge] at h; cases h
      | further =>
          simp only [hJudge] at h
          rw [ih h, List.reverse_cons, List.append_assoc, List.singleton_append]

/-- A body that was found ends with its closing token, and it was seen behind `front`. -/
def Found (closing front : Text) (found : Option Text) (now : Text) : Prop :=
  ∀ body, found = some body → closing.reverse <+: body ∧ front ++ body.reverse <+: now

theorem followInput_looks {front seen : Text} (h : l.Since start limit (front ++ seen.reverse))
    (n : Nat) :
    Looks start limit (front ++ seen.reverse) (Found closing front)
      (followInput multiLine closing n seen l) := by
  induction n generalizing l seen with
  | zero => exact .answered (List.prefix_refl _) h fun body hNone => by cases hNone
  | succ n ih =>
      have hReads := h.read
      rw [followInput]
      cases hRead : l.read with
      | mk result after =>
          rw [hRead] at hReads
          cases hReads with
          | failed hGrows hSince hFails => exact .failed hGrows hSince hFails
          | answered hGrows hSince hRight =>
              rename_i answer now
              obtain ⟨rfl, _⟩ := hRight
              cases answer with
              | none => exact .answered hGrows hSince fun body hNone => by cases hNone
              | some c =>
                  have hNow : front ++ seen.reverse ++ [c] = front ++ (c :: seen).reverse := by
                    rw [List.reverse_cons, List.append_assoc]
                  rw [Option.toList_some, hNow] at hSince hGrows
                  cases hJudge : judge multiLine closing seen c with
                  | broken =>
                      simp only [hJudge]
                      exact .answered hGrows hSince fun body hNone => by cases hNone
                  | closed =>
                      simp only [hJudge]
                      refine .answered hGrows hSince fun body hBody => ?_
                      cases hBody
                      exact ⟨closes_of_judge hJudge, List.prefix_refl _⟩
                  | further =>
                      simp only [hJudge]
                      exact (ih hSince).of_grown hGrows

theorem followBody_looks (multiLine : Bool) (closing : Text) {front window : Text}
    (h : l.Since start limit (front ++ window)) :
    Looks start limit (front ++ window) (Found closing front)
      (followBody multiLine closing window l) := by
  rw [followBody]
  cases hFollow : followWindow multiLine closing [] window with
  | none => exact .answered (List.prefix_refl _) h fun body hNone => by cases hNone
  | some followed =>
      cases followed with
      | inl body =>
          obtain ⟨hCloses, hFront⟩ := closes_of_followWindow hFollow
          refine .answered (List.prefix_refl _) h fun found hFound => ?_
          cases hFound
          exact ⟨hCloses, (List.prefix_append_right_inj front).mpr hFront⟩
      | inr seen =>
          have hSeen := eq_of_followWindow hFollow
          rw [List.reverse_nil, List.nil_append] at hSeen
          rw [← hSeen] at h ⊢
          exact followInput_looks h _

theorem ofOpening_looks {d : Delimiter} {window : Text} (h : l.Since start limit window)
    (hOpening : d.opening <+: window) :
    Looks start limit window (Sees markup start) (ofOpening multiLine d window l) := by
  obtain ⟨back, rfl⟩ := hOpening
  have hSome : d.opening ++ back ≠ [] := by
    intro hNil
    exact d.opening_ne_nil (List.append_eq_nil_iff.mp hNil).1
  have hBody := followBody_looks multiLine d.closing h
  rw [ofOpening, List.drop_left]
  cases hFollow : followBody multiLine d.closing back l with
  | mk result after =>
      rw [hFollow] at hBody
      cases hBody with
      | failed hGrows hSince hFails => exact .failed hGrows hSince hFails
      | answered hGrows hSince hRight =>
          rename_i found now
          cases found with
          | none => exact .answered hGrows hSince (.first hSome hGrows)
          | some body =>
              obtain ⟨⟨reversed, rfl⟩, hFront⟩ := hRight body rfl
              -- The body ends with the closing token; what comes before it is the expression.
              have hToken : d.opening ++ (d.closing.reverse ++ reversed).reverse =
                  d.wrap reversed.reverse := by
                rw [List.reverse_append, List.reverse_reverse, Delimiter.wrap, List.append_assoc]
              have hInside : ((d.closing.reverse ++ reversed).drop d.closing.length).reverse =
                  reversed.reverse := by
                rw [← List.length_reverse, List.drop_left]
              simp only [hInside]
              rw [hToken] at hFront ⊢
              exact .answered hGrows hSince (.placeholder hFront)

theorem ofUnescaped_looks {window : Text} (h : l.Since start limit window) (hSome : window ≠ []) :
    Looks start limit window (Sees markup start) (ofUnescaped markup multiLine window l) := by
  have hFills := h.fill markup.delimiters.maxOpening
  rw [ofUnescaped]
  cases hFill : l.fill window markup.delimiters.maxOpening with
  | mk result after =>
      rw [hFill] at hFills
      cases hFills with
      | failed hGrows hSince hFails => exact .failed hGrows hSince hFails
      | answered hGrows hSince hRight =>
          rename_i shown now
          obtain ⟨rfl, _⟩ := hRight
          simp only
          cases hMatch : markup.delimiters.longestMatch shown with
          | none =>
              refine .answered hGrows hSince (.first ?_ (List.prefix_refl _))
              exact fun hNil => hSome (List.prefix_nil.mp (hNil ▸ hGrows))
          | some d =>
              have hOpening := DelimiterSet.opening_prefix_of_longestMatch hMatch
              exact (ofOpening_looks hSince hOpening).of_grown hGrows

theorem ofEscaped_looks {marker window : Text} (hMarker : markup.escape.marker = some marker)
    (h : l.Since start limit window) (hHere : marker <+: window) :
    Looks start limit window (Sees markup start) (ofEscaped markup marker window l) := by
  have hFills := h.fill (marker.length + markup.delimiters.maxOpening)
  rw [ofEscaped]
  cases hFill : l.fill window (marker.length + markup.delimiters.maxOpening) with
  | mk result after =>
      rw [hFill] at hFills
      cases hFills with
      | failed hGrows hSince hFails => exact .failed hGrows hSince hFails
      | answered hGrows hSince hRight =>
          rename_i shown now
          obtain ⟨rfl, _⟩ := hRight
          obtain ⟨back, hBack⟩ := hHere.trans hGrows
          simp only
          cases hMatch : markup.delimiters.longestMatch (shown.drop marker.length) with
          | none =>
              refine .answered hGrows hSince (.literal ?_ (List.take_prefix _ _))
              intro hNil
              have hLength := congrArg List.length hNil
              have hPos := Escape.marker_pos hMarker
              rw [List.length_take, ← hBack, List.length_append, List.length_nil] at hLength
              omega
          | some d =>
              have hOpening := DelimiterSet.opening_prefix_of_longestMatch hMatch
              refine .answered hGrows hSince (.escaped hMarker ?_)
              rw [← hBack, List.drop_left] at hOpening
              rw [← hBack]
              exact (List.prefix_append_right_inj marker).mpr hOpening

theorem ofWindow_looks {c : Char} {window : Text} (h : l.Since start limit window)
    (hSome : window ≠ []) :
    Looks start limit window (Sees markup start) (ofWindow markup multiLine c window l) := by
  rw [ofWindow]
  cases hMarker : markup.escape.marker with
  | none => exact ofUnescaped_looks h hSome
  | some marker =>
      simp only
      by_cases hHead : marker.head? = some c
      · rw [if_pos hHead]
        have hFills := h.fill marker.length
        cases hFill : l.fill window marker.length with
        | mk result after =>
            rw [hFill] at hFills
            cases hFills with
            | failed hGrows hSince hFails => exact .failed hGrows hSince hFails
            | answered hGrows hSince hRight =>
                rename_i shown now
                obtain ⟨rfl, _⟩ := hRight
                simp only
                by_cases hHere : marker.isPrefixOf shown = true
                · rw [if_pos hHere]
                  have hPrefix := List.isPrefixOf_iff_prefix.mp hHere
                  exact (ofEscaped_looks hMarker hSince hPrefix).of_grown hGrows
                · rw [if_neg hHere]
                  have hShown : shown ≠ [] := fun hNil =>
                    hSome (List.prefix_nil.mp (hNil ▸ hGrows))
                  exact (ofUnescaped_looks hSince hShown).of_grown hGrows
      · rw [if_neg hHead]
        exact ofUnescaped_looks h hSome

/-- Looking from a new mark sees what stands there, or meets a failure of the reader. -/
theorem ofInput_looks (markup : Markup) (multiLine : Bool) (input : Lookahead)
    (hReach : 0 < limit) :
    Looks input.reader limit [] (Sees markup input.reader)
      (ofInput markup multiLine (input.mark limit)) := by
  have hFills := (input.since_mark limit).fill 1
  rw [ofInput]
  cases hFill : (input.mark limit).fill [] 1 with
  | mk result after =>
      rw [hFill] at hFills
      cases hFills with
      | failed hGrows hSince hFails => exact .failed hGrows hSince hFails
      | answered hGrows hSince hRight =>
          rename_i window now
          obtain ⟨rfl, hEnd⟩ := hRight
          cases window with
          | nil => exact .answered hGrows hSince (.ended (hEnd rfl Nat.one_pos hReach))
          | cons c rest =>
              exact (ofWindow_looks hSince (List.cons_ne_nil c rest)).of_grown hGrows

end Placeholder.Sight
