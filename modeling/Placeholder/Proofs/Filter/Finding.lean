import Placeholder.Proofs.Filter.Shown
/-!
Looking finds what the window shows, on any feed and with any window. Where the window is cut off by
a failure, the look fails if it would have to see what comes behind.
-/
namespace Placeholder.Sight

open Lookahead (cutOff shortOf)

/-- The look comes to this. Where it does not fail it is still amid the text. -/
def Finds {α : Type} (text : Text) (stop : Option Failure) (limit : Nat)
    (expected : Except Failure α) (look : Except Failure α × Lookahead) : Prop :=
  look.1 = expected ∧ ∀ answer, expected = .ok answer →
    ∃ taken, look.2.Amid text stop taken ∧ look.2.limit = limit

variable {markup : Markup} {multiLine : Bool} {closing : Text} {l : Lookahead} {text : Text}
  {stop : Option Failure} {taken : Nat}

/-- Following the rest of a window, with an allowance that reaches behind it. -/
theorem followInput_finds (h : l.Amid text stop taken) (n : Nat) (seen : Text)
    (hEnough : ((text.take l.limit).drop taken).length ≤ n)
    (hBeyond : cutOff l.limit text stop ≠ none → ((text.take l.limit).drop taken).length < n) :
    Finds text stop l.limit
      (followed multiLine closing (cutOff l.limit text stop) seen ((text.take l.limit).drop taken))
      (followInput multiLine closing n seen l) := by
  induction n generalizing l taken seen with
  | zero =>
      have hNil := List.length_eq_zero_iff.mp (Nat.le_zero.mp hEnough)
      have hWhole : cutOff l.limit text stop = none := by
        cases hCut : cutOff l.limit text stop with
        | none => rfl
        | some failure => exact absurd (hBeyond (by simp [hCut])) (Nat.not_lt_zero _)
      rw [hNil, hWhole]
      exact ⟨rfl, fun _ _ => ⟨taken, h, rfl⟩⟩
  | succ n ih =>
      rw [followInput]
      cases hNext : (text.take l.limit).drop taken with
      | nil =>
          have hReads := h.read_nil hNext
          cases hCut : cutOff l.limit text stop with
          | some failure =>
              simp only [hCut] at hReads
              obtain ⟨after, hRead⟩ := hReads
              rw [hRead]
              exact ⟨rfl, fun _ hNone => by cases hNone⟩
          | none =>
              simp only [hCut] at hReads
              obtain ⟨after, hRead, hAmid, hLimit⟩ := hReads
              rw [hRead]
              exact ⟨rfl, fun _ _ => ⟨taken, hAmid, hLimit⟩⟩
      | cons c rest =>
          obtain ⟨next, hRead, hAmid, hLimit⟩ := h.read_cons hNext
          have hRest := (Lookahead.shown_of_drop hNext).2.2.1
          rw [hRead]
          simp only [followed, followWindow]
          cases hJudge : judge multiLine closing seen c with
          | broken => exact ⟨rfl, fun _ _ => ⟨_, hAmid, hLimit⟩⟩
          | closed => exact ⟨rfl, fun _ _ => ⟨_, hAmid, hLimit⟩⟩
          | further =>
              rw [hNext, List.length_cons] at hEnough hBeyond
              have hFinds := ih hAmid (c :: seen) (by rw [hLimit, hRest]; omega) (by
                rw [hLimit, hRest]
                exact fun hCut => Nat.lt_of_succ_lt_succ (hBeyond hCut))
              rwa [hLimit, hRest] at hFinds

/-- Following a body whose front was seen already. -/
theorem followBody_finds (multiLine : Bool) (closing : Text) (h : l.Amid text stop taken)
    (start : Nat) (hStart : start ≤ taken) :
    Finds text stop l.limit
      (followed multiLine closing (cutOff l.limit text stop) [] ((text.take l.limit).drop start))
      (followBody multiLine closing ((text.take taken).drop start) l) := by
  have hTake : (text.take l.limit).take taken = text.take taken := by
    rw [List.take_take, Nat.min_eq_left h.le_limit]
  have hSplit : (text.take l.limit).drop start =
      (text.take taken).drop start ++ (text.take l.limit).drop taken := by
    have hLength : (text.take taken).length = taken := by
      rw [List.length_take, Nat.min_eq_left h.inText]
    rw [← List.drop_append_of_le_length (hLength.symm ▸ hStart), ← hTake, List.take_append_drop]
  rw [hSplit, followBody]
  simp only [followed, followWindow_append]
  cases hFollow : followWindow multiLine closing [] ((text.take taken).drop start) with
  | none => exact ⟨rfl, fun _ _ => ⟨taken, h, rfl⟩⟩
  | some found =>
      cases found with
      | inl body => exact ⟨rfl, fun _ _ => ⟨taken, h, rfl⟩⟩
      | inr seen =>
          have hInText := h.inText
          have hCounted := h.counted
          have hLimit := h.inLimit
          apply followInput_finds h
          · rw [List.length_drop, List.length_take]
            rcases h.exact with hEq | ⟨hEnd, _⟩ <;> omega
          · intro hCut
            rw [cutOff] at hCut
            split at hCut
            · rw [List.length_drop, List.length_take]
              rcases h.exact with hEq | ⟨_, rfl⟩
              · omega
              · exact absurd rfl hCut
            · exact absurd rfl hCut

/-- Only the first character of a window passes where nothing stands. -/
theorem take_one_window (h : l.Amid text stop taken) (hTaken : 0 < taken) :
    (text.take taken).take 1 = (text.take l.limit).take 1 := by
  have hLimit := h.le_limit
  rw [List.take_take, List.take_take, Nat.min_eq_left hTaken, Nat.min_eq_left (by omega)]

theorem ofOpening_finds (multiLine : Bool) (d : Delimiter) (h : l.Amid text stop taken)
    (hTaken : 0 < taken) (hOpening : d.opening.length ≤ taken) :
    Finds text stop l.limit
      (shownOpening multiLine d (cutOff l.limit text stop) (text.take l.limit))
      (ofOpening multiLine d (text.take taken) l) := by
  obtain ⟨hSame, hAmid⟩ := followBody_finds multiLine d.closing h d.opening.length hOpening
  rw [shownOpening, ofOpening]
  generalize followBody multiLine d.closing _ l = look at hSame hAmid ⊢
  obtain ⟨result, after⟩ := look
  rw [← hSame] at hAmid ⊢
  cases result with
  | error failure => exact ⟨rfl, fun _ hNone => by cases hNone⟩
  | ok found =>
      cases found with
      | none =>
          simp only [take_one_window h hTaken]
          exact ⟨rfl, fun _ _ => hAmid none rfl⟩
      | some body => exact ⟨rfl, fun _ _ => hAmid (some body) rfl⟩

/-- Once a window is filled, a look comes to what takes so many characters to tell. -/
theorem finds_of_fill {α : Type} {expected : Except Failure α} {look : Except Failure α × Lookahead}
    (h : l.Amid text stop taken) (length : Nat)
    (hFailed : ∀ failure after, l.fill (text.take taken) length = (.error failure, after) →
      look = (.error failure, after))
    (hFilled : ∀ now after, l.fill (text.take taken) length = (.ok (text.take now), after) →
      after.Amid text stop now → after.limit = l.limit →
      now = min (max taken length) (min l.limit text.length) →
      Finds text stop l.limit expected look) :
    Finds text stop l.limit
      (needing (cutOff l.limit text stop) (text.take l.limit) length expected) look := by
  have hFills := h.fill length
  rw [Lookahead.Fills] at hFills
  rw [needing]
  cases hShort : shortOf (cutOff l.limit text stop) (text.take l.limit) length with
  | some failure =>
      simp only [hShort] at hFills ⊢
      obtain ⟨after, hFill⟩ := hFills
      rw [hFailed failure after hFill]
      exact ⟨rfl, fun _ hNone => by cases hNone⟩
  | none =>
      simp only [hShort] at hFills ⊢
      obtain ⟨after, now, hFill, hAmid, hSame, hNow⟩ := hFills
      exact hFilled now after hFill hAmid hSame hNow

theorem ofUnescaped_finds (markup : Markup) (multiLine : Bool) (h : l.Amid text stop taken)
    (hTaken : 0 < taken) :
    Finds text stop l.limit
      (shownUnescaped markup multiLine (cutOff l.limit text stop) (text.take l.limit))
      (ofUnescaped markup multiLine (text.take taken) l) := by
  have hLimit := h.le_limit
  have hInText := h.inText
  apply finds_of_fill h
  · intro failure after hFill
    simp only [ofUnescaped, hFill]
  · intro now after hFill hAmid hSame hNow
    have hMatch : markup.delimiters.longestMatch (text.take now) =
        markup.delimiters.longestMatch (text.take l.limit) := by
      have hTake : text.take now = (text.take l.limit).take now := by
        rw [List.take_take, Nat.min_eq_left (by omega)]
      rw [hTake]
      apply DelimiterSet.longestMatch_window
      rw [List.length_take]
      omega
    simp only [ofUnescaped, hFill, hMatch]
    cases hLongest : markup.delimiters.longestMatch (text.take l.limit) with
    | none =>
        simp only [take_one_window hAmid (by omega), hSame]
        exact ⟨rfl, fun _ _ => ⟨now, hAmid, hSame⟩⟩
    | some d =>
        -- The window showed the opening token, so it holds all of it.
        have hOpens := DelimiterSet.opening_prefix_of_longestMatch (hMatch.trans hLongest)
        have hLength := hOpens.length_le
        rw [List.length_take] at hLength
        have hFinds := ofOpening_finds multiLine d hAmid (by omega) (by omega)
        rwa [hSame] at hFinds

theorem ofEscaped_finds (markup : Markup) {marker : Text} (h : l.Amid text stop taken)
    (hMarker : taken ≤ marker.length) (hHere : marker.length ≤ (text.take l.limit).length) :
    Finds text stop l.limit
      (shownEscaped markup marker (cutOff l.limit text stop) (text.take l.limit))
      (ofEscaped markup marker (text.take taken) l) := by
  rw [List.length_take] at hHere
  apply finds_of_fill h
  · intro failure after hFill
    simp only [ofEscaped, hFill]
  · intro now after hFill hAmid hSame hNow
    have hTake : text.take now = (text.take l.limit).take now := by
      rw [List.take_take, Nat.min_eq_left (by omega)]
    have hMatch : markup.delimiters.longestMatch ((text.take now).drop marker.length) =
        markup.delimiters.longestMatch ((text.take l.limit).drop marker.length) := by
      rw [hTake, List.drop_take]
      apply DelimiterSet.longestMatch_window
      rw [List.length_drop, List.length_take]
      omega
    have hFront : (text.take now).take (marker.length + 1) =
        (text.take l.limit).take (marker.length + min 1 markup.delimiters.maxOpening) := by
      rw [List.take_take, List.take_take, List.take_eq_take_iff]
      omega
    simp only [ofEscaped, hFill, hMatch, hFront]
    cases markup.delimiters.longestMatch ((text.take l.limit).drop marker.length) with
    | none => exact ⟨rfl, fun _ _ => ⟨now, hAmid, hSame⟩⟩
    | some d => exact ⟨rfl, fun _ _ => ⟨now, hAmid, hSame⟩⟩

theorem ofWindow_finds (markup : Markup) (multiLine : Bool) (c : Char) (h : l.Amid text stop 1) :
    Finds text stop l.limit
      (shownFrom markup multiLine (cutOff l.limit text stop) c (text.take l.limit))
      (ofWindow markup multiLine c (text.take 1) l) := by
  rw [shownFrom]
  cases hMarker : markup.escape.marker with
  | none =>
      simp only [ofWindow, hMarker]
      exact ofUnescaped_finds markup multiLine h Nat.one_pos
  | some marker =>
      have hPos := Escape.marker_pos hMarker
      have hInText := h.inText
      have hLimit := h.le_limit
      simp only
      by_cases hHead : marker.head? = some c
      · rw [if_pos hHead]
        apply finds_of_fill h
        · intro failure after hFill
          simp only [ofWindow, hMarker, if_pos hHead, hFill]
        · intro now after hFill hAmid hSame hNow
          -- All of the escape string is shown, or the window is too short for it.
          have hPrefix : marker.isPrefixOf (text.take now) = marker.isPrefixOf (text.take l.limit) := by
            rw [Bool.eq_iff_iff, List.isPrefixOf_iff_prefix, List.isPrefixOf_iff_prefix,
              List.prefix_take_iff, List.prefix_take_iff]
            refine and_congr_right fun hHere => ?_
            have hFits := hHere.length_le
            omega
          simp only [ofWindow, hMarker, if_pos hHead, hFill, hPrefix]
          by_cases hThere : marker.isPrefixOf (text.take l.limit) = true
          · have hFits := (List.isPrefixOf_iff_prefix.mp hThere).length_le
            rw [if_pos hThere, if_pos hThere]
            have hFinds := ofEscaped_finds markup hAmid (by omega) (hSame ▸ hFits)
            rwa [hSame] at hFinds
          · rw [if_neg hThere, if_neg hThere]
            have hFinds := ofUnescaped_finds markup multiLine hAmid (by omega)
            rwa [hSame] at hFinds
      · simp only [ofWindow, hMarker, if_neg hHead]
        exact ofUnescaped_finds markup multiLine h Nat.one_pos

/-- Looking from a mark finds what the window shows. -/
theorem ofInput_finds (markup : Markup) (multiLine : Bool) (h : l.Amid text stop 0) :
    Finds text stop l.limit (shown markup multiLine (cutOff l.limit text stop) (text.take l.limit))
      (ofInput markup multiLine l) := by
  have hLength : (text.take l.limit).length = min l.limit text.length := List.length_take
  cases hWindow : text.take l.limit with
  | nil =>
      rw [hWindow, List.length_nil] at hLength
      rw [shown, ← hWindow]
      apply finds_of_fill h
      · intro failure after hFill
        rw [List.take_zero] at hFill
        rw [ofInput, hFill]
      · intro now after hFill hAmid hSame hNow
        obtain rfl : now = 0 := by omega
        rw [List.take_zero] at hFill
        rw [ofInput, hFill]
        exact ⟨rfl, fun _ _ => ⟨0, hAmid, hSame⟩⟩
  | cons c rest =>
      rw [hWindow, List.length_cons] at hLength
      have hFinds : Finds text stop l.limit
          (needing (cutOff l.limit text stop) (text.take l.limit) 1
            (shownFrom markup multiLine (cutOff l.limit text stop) c (text.take l.limit)))
          (ofInput markup multiLine l) := by
        apply finds_of_fill h
        · intro failure after hFill
          rw [List.take_zero] at hFill
          rw [ofInput, hFill]
        · intro now after hFill hAmid hSame hNow
          obtain rfl : now = 1 := by omega
          have hFirst : text.take 1 = [c] := by
            have hShown := congrArg (List.take 1) hWindow
            rwa [List.take_take, Nat.min_eq_left (by omega)] at hShown
          have hRest := ofWindow_finds markup multiLine c hAmid
          rw [List.take_zero, hFirst] at hFill
          rw [hSame, hFirst] at hRest
          rw [ofInput, hFill]
          exact hRest
      rwa [needing, shortOf, if_neg (by rw [hWindow, List.length_cons]; omega), hWindow] at hFinds

end Placeholder.Sight
