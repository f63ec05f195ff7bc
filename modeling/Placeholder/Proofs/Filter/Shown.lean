import Placeholder.Proofs.Filter.Sight
import Placeholder.Proofs.Filter.Token
import Placeholder.Proofs.Reading.Ahead
/-!
What a window shows is told by its characters, and by the failure that cuts it off if there is one.
`shown` says what that is, without marking, reading or going back. What a window shows that is cut
off, every longer one shows as well.
-/
namespace Placeholder.Sight

open Lookahead (shortOf)

/-- The body of a placeholder in a window, from the characters behind the opening token. -/
def followed (multiLine : Bool) (closing : Text) (cut : Option Failure) (seen window : Text) :
    Except Failure (Option Text) :=
  match followWindow multiLine closing seen window with
  | none => .ok none
  | some (.inl body) => .ok (some body)
  | some (.inr _) =>
    match cut with
    | some failure => .error failure
    | none => .ok none

/-- What a window shows that starts with the opening token of `d`. -/
def shownOpening (multiLine : Bool) (d : Delimiter) (cut : Option Failure) (window : Text) :
    Except Failure Sight :=
  match followed multiLine d.closing cut [] (window.drop d.opening.length) with
  | .error failure => .error failure
  | .ok none => .ok (.literal (window.take 1))
  | .ok (some body) =>
    .ok (.placeholder (d.opening ++ body.reverse) (body.drop d.closing.length).reverse)

/-- An answer that takes so many characters of a window to tell. -/
def needing {α : Type} (cut : Option Failure) (window : Text) (length : Nat)
    (answer : Except Failure α) : Except Failure α :=
  match shortOf cut window length with
  | some failure => .error failure
  | none => answer

/-- What a window shows at whose front no escape string stands. -/
def shownUnescaped (markup : Markup) (multiLine : Bool) (cut : Option Failure) (window : Text) :
    Except Failure Sight :=
  needing cut window markup.delimiters.maxOpening <|
    match markup.delimiters.longestMatch window with
    | none => .ok (.literal (window.take 1))
    | some d => shownOpening multiLine d cut window

/-- What a window shows at whose front the escape string stands. Without any delimiters it is not
looked at what follows the escape string. -/
def shownEscaped (markup : Markup) (marker : Text) (cut : Option Failure) (window : Text) :
    Except Failure Sight :=
  needing cut window (marker.length + markup.delimiters.maxOpening) <|
    match markup.delimiters.longestMatch (window.drop marker.length) with
    | none => .ok (.literal (window.take (marker.length + min 1 markup.delimiters.maxOpening)))
    | some d =>
      .ok (.escaped (markup.escape.kept marker ++ d.opening) (marker.length + d.opening.length))

/-- What a window shows that holds the first character `c`. -/
def shownFrom (markup : Markup) (multiLine : Bool) (cut : Option Failure) (c : Char)
    (window : Text) : Except Failure Sight :=
  match markup.escape.marker with
  | none => shownUnescaped markup multiLine cut window
  | some marker =>
    if marker.head? = some c then
      needing cut window marker.length <|
        if marker.isPrefixOf window then shownEscaped markup marker cut window
        else shownUnescaped markup multiLine cut window
    else shownUnescaped markup multiLine cut window

/-- What a window shows. -/
def shown (markup : Markup) (multiLine : Bool) (cut : Option Failure) :
    Text → Except Failure Sight
  | [] => needing cut [] 1 (.ok .ended)
  | c :: rest => shownFrom markup multiLine cut c (c :: rest)

variable {markup : Markup} {multiLine : Bool} {closing : Text} {cut : Option Failure}
  {window : Text} {sight : Sight}

/-- A window that nothing cuts off is long enough for every answer. -/
theorem needing_none {α : Type} (window : Text) (length : Nat) (answer : Except Failure α) :
    needing none window length answer = answer := by
  rw [needing, Lookahead.shortOf, ite_self]

theorem followWindow_append (seen front back : Text) :
    followWindow multiLine closing seen (front ++ back) =
      match followWindow multiLine closing seen front with
      | some (.inr further) => followWindow multiLine closing further back
      | followed => followed := by
  induction front generalizing seen with
  | nil => rfl
  | cons c front ih =>
      rw [List.cons_append, followWindow, followWindow]
      cases judge multiLine closing seen c with
      | broken => rfl
      | closed => rfl
      | further => exact ih (c :: seen)

/-- What may be seen in a window. -/
inductive Seen (markup : Markup) (multiLine : Bool) : Text → Sight → Prop
  | ended : Seen markup multiLine [] ended
  | first (c : Char) (rest : Text) : Seen markup multiLine (c :: rest) (literal [c])
  | marker {marker : Text} (hMarker : markup.escape.marker = some marker) (back : Text) :
      Seen markup multiLine (marker ++ back)
        (literal (marker ++ back.take (min 1 markup.delimiters.maxOpening)))
  | escaped {marker : Text} {d : Delimiter} (hMarker : markup.escape.marker = some marker)
      (back : Text) :
      Seen markup multiLine (marker ++ d.opening ++ back)
        (escaped (markup.escape.kept marker ++ d.opening) (marker.length + d.opening.length))
  | placeholder {d : Delimiter} {window expression after : Text}
      (hEscaped : markup.escapedAt window = none)
      (hFound : markup.placeholderAt window = some (d, expression, after)) :
      Seen markup multiLine window (placeholder (d.wrap expression) expression)

/-- The body that is followed ends with the first closing token. -/
theorem exists_of_followed {d : Delimiter} {body : Text}
    (h : followed multiLine d.closing cut [] window = .ok (some body)) :
    ∃ expression after, Text.breakOn d.closing window = some (expression, after) ∧
      body = (expression ++ d.closing).reverse := by
  have hFollow : followWindow multiLine d.closing [] window = some (.inl body) := by
    simp only [followed] at h
    split at h
    · cases h
    · rename_i found hFound
      cases h
      exact hFound
    · split at h <;> cases h
  have hTrack : track multiLine d.closing [] window = some body := by
    rw [← List.append_nil window, track_append, hFollow]
  have hSeen : ∀ b a : Text, ([] : Text).reverse ≠ b ++ d.closing ++ a := by
    simp [d.closing_ne_nil]
  rw [track_eq_breakOn d.closing_ne_nil window [] hSeen (Or.inr List.not_mem_nil),
    List.reverse_nil, List.nil_append] at hTrack
  obtain ⟨⟨expression, after⟩, hBreak, hBody⟩ := Option.bind_eq_some_iff.mp hTrack
  simp only [Option.ite_none_right_eq_some] at hBody
  exact ⟨expression, after, hBreak, (Option.some.inj hBody.2).symm⟩

theorem head?_of_prefix {marker rest : Text} {c : Char} (hMarker : markup.escape.marker = some marker)
    (hPrefix : marker <+: c :: rest) : marker.head? = some c := by
  obtain ⟨back, hBack⟩ := hPrefix
  cases marker with
  | nil => exact absurd hMarker markup.escape.marker_ne_nil
  | cons first marker => rw [List.head?_cons, (List.cons.inj hBack).1]

/-- Without an escape string at the front of the window, it is not looked behind one. -/
theorem shown_unescaped {c : Char} {rest : Text} (h : markup.escapedAt (c :: rest) = none) :
    shown markup multiLine none (c :: rest) = shownUnescaped markup multiLine none (c :: rest) := by
  rw [shown, shownFrom]
  cases hMarker : markup.escape.marker with
  | none => rfl
  | some marker =>
      have hAway := Markup.escapedAt_eq_none_iff.mp h marker hMarker
      simp only [needing_none, List.isPrefixOf_iff_prefix, if_neg hAway, ite_self]

theorem shown_marker {marker after : Text} (hMarker : markup.escape.marker = some marker) :
    shown markup multiLine none (marker ++ after) =
      shownEscaped markup marker none (marker ++ after) := by
  cases hWindow : marker ++ after with
  | nil =>
      obtain rfl := (List.append_eq_nil_iff.mp hWindow).1
      exact absurd hMarker markup.escape.marker_ne_nil
  | cons c rest =>
      have hHere : marker <+: c :: rest := ⟨after, hWindow⟩
      simp only [shown, shownFrom, hMarker, head?_of_prefix hMarker hHere, if_true, needing_none,
        List.isPrefixOf_iff_prefix.mpr hHere]

theorem of_needing {α : Type} {length : Nat} {expected : Except Failure α} {answer : α}
    (h : needing cut window length expected = .ok answer) :
    shortOf cut window length = none ∧ expected = .ok answer := by
  rw [needing] at h
  split at h
  · cases h
  · rename_i hEnough
    exact ⟨hEnough, h⟩

theorem seen_of_shownUnescaped (hEscaped : markup.escapedAt window = none) (hSome : window ≠ [])
    (h : shownUnescaped markup multiLine cut window = .ok sight) :
    Seen markup multiLine window sight := by
  have hFirst : Seen markup multiLine window (.literal (window.take 1)) := by
    cases window with
    | nil => exact absurd rfl hSome
    | cons c rest => exact .first c rest
  obtain ⟨_, hMatched⟩ := of_needing h
  split at hMatched
  · obtain rfl := Except.ok.inj hMatched
    exact hFirst
  · rename_i d hMatch
    rw [shownOpening] at hMatched
    split at hMatched
    · cases hMatched
    · obtain rfl := Except.ok.inj hMatched
      exact hFirst
    · rename_i body hFollowed
      obtain rfl := Except.ok.inj hMatched
      obtain ⟨expression, after, hBreak, rfl⟩ := exists_of_followed hFollowed
      have hFound : markup.placeholderAt window = some (d, expression, after) := by
        simp only [Markup.placeholderAt, hMatch, hBreak, Option.map_some]
      have hToken : d.opening ++ (expression ++ d.closing).reverse.reverse = d.wrap expression := by
        rw [List.reverse_reverse, Delimiter.wrap, List.append_assoc]
      rw [hToken, reverse_drop_body]
      exact .placeholder hEscaped hFound

theorem seen_of_shown (h : shown markup multiLine cut window = .ok sight) :
    Seen markup multiLine window sight := by
  cases window with
  | nil =>
      obtain ⟨_, hEnded⟩ := of_needing h
      obtain rfl := Except.ok.inj hEnded
      exact .ended
  | cons c rest =>
      rw [shown, shownFrom] at h
      split at h
      · rename_i hOff
        exact seen_of_shownUnescaped (Markup.escapedAt_of_off hOff _) (List.cons_ne_nil c rest) h
      · rename_i marker hMarker
        split at h
        · obtain ⟨_, hShown⟩ := of_needing h
          split at hShown
          · rename_i hHere
            obtain ⟨back, hBack⟩ := List.isPrefixOf_iff_prefix.mp hHere
            rw [← hBack] at hShown ⊢
            obtain ⟨_, hMatched⟩ := of_needing hShown
            rw [List.drop_left] at hMatched
            split at hMatched
            · obtain rfl := Except.ok.inj hMatched
              rw [List.take_length_add_append]
              exact .marker hMarker back
            · rename_i d hMatch
              obtain rfl := Except.ok.inj hMatched
              obtain ⟨after, rfl⟩ := DelimiterSet.opening_prefix_of_longestMatch hMatch
              rw [← List.append_assoc]
              exact .escaped hMarker after
          · rename_i hAbsent
            refine seen_of_shownUnescaped (Markup.escapedAt_of_absent hMarker ?_)
              (List.cons_ne_nil c rest) hShown
            exact fun hPrefix => hAbsent (List.isPrefixOf_iff_prefix.mpr hPrefix)
        · rename_i hHead
          refine seen_of_shownUnescaped (Markup.escapedAt_of_absent hMarker fun hPrefix => hHead ?_)
            (List.cons_ne_nil c rest) h
          exact head?_of_prefix hMarker hPrefix

/-- What is seen lies in the window. -/
theorem Seen.extent_le (h : Seen markup multiLine window sight) : sight.extent ≤ window.length := by
  cases h with
  | ended => exact Nat.le_refl 0
  | first c rest => simp [extent]
  | marker hMarker back =>
      simp only [extent, List.length_append, List.length_take]
      omega
  | escaped hMarker back =>
      simp only [extent, List.length_append]
      omega
  | placeholder hEscaped hFound =>
      rw [(Markup.eq_of_placeholderAt hFound).1, extent, List.length_append]
      omega

/-- Everything but the end takes up characters. -/
theorem Seen.extent_pos (h : Seen markup multiLine window sight) (hGoesOn : sight ≠ .ended) :
    0 < sight.extent := by
  cases h with
  | ended => exact absurd rfl hGoesOn
  | first c rest => exact Nat.one_pos
  | marker hMarker back =>
      have hPos := Escape.marker_pos hMarker
      simp only [extent, List.length_append]
      omega
  | escaped hMarker back =>
      have hPos := Escape.marker_pos hMarker
      simp only [extent]
      omega
  | placeholder hEscaped hFound =>
      rename_i d _ _
      have hPos := d.opening_pos
      simp only [extent, Delimiter.wrap, List.length_append]
      omega

/-- The end is seen in an empty window only. -/
theorem Seen.window_nil (h : Seen markup multiLine window .ended) : window = [] := by
  cases h with
  | ended => rfl

/-- A token that is seen is, read as a text of its own, one placeholder with just this expression. -/
theorem Seen.segments_token {token expression : Text}
    (h : Seen markup multiLine window (.placeholder token expression)) :
    ∃ d : Delimiter, token = d.wrap expression ∧
      markup.segments token = [.placeholder d expression] := by
  cases h with
  | placeholder hEscaped hFound => exact ⟨_, rfl, Markup.segments_wrap hEscaped hFound⟩

/-- A placeholder that is seen stands at the front of the window, opened by what the window chooses. -/
theorem Seen.chosen {token expression : Text}
    (h : Seen markup multiLine window (.placeholder token expression)) :
    ∃ d : Delimiter, token = d.wrap expression ∧ token <+: window ∧
      markup.delimiters.longestMatch window = some d := by
  cases h with
  | placeholder hEscaped hFound =>
      obtain ⟨hWindow, hMatch, _⟩ := Markup.eq_of_placeholderAt hFound
      exact ⟨_, rfl, ⟨_, hWindow.symm⟩, hMatch⟩

/-! A window fails to show something only where it is cut off. -/

variable {failure : Failure}

theorem cut_of_needing {α : Type} {length : Nat} {expected : Except Failure α}
    (h : needing cut window length expected = .error failure)
    (hExpected : expected = .error failure → cut = some failure) : cut = some failure := by
  rw [needing, shortOf] at h
  split at h
  · rename_i hShort
    obtain rfl := Except.error.inj h
    split at hShort
    · exact hShort
    · cases hShort
  · exact hExpected h

theorem cut_of_followed {seen : Text}
    (h : followed multiLine closing cut seen window = .error failure) : cut = some failure := by
  simp only [followed] at h
  split at h
  · cases h
  · cases h
  · split at h
    · exact congrArg some (Except.error.inj h)
    · cases h

theorem cut_of_shownUnescaped
    (h : shownUnescaped markup multiLine cut window = .error failure) : cut = some failure := by
  refine cut_of_needing h fun hMatched => ?_
  split at hMatched
  · cases hMatched
  · rw [shownOpening] at hMatched
    split at hMatched
    · rename_i hFollowed
      obtain rfl := Except.error.inj hMatched
      exact cut_of_followed hFollowed
    · cases hMatched
    · cases hMatched

theorem cut_of_shown (h : shown markup multiLine cut window = .error failure) :
    cut = some failure := by
  cases window with
  | nil => exact cut_of_needing h fun hEnded => by cases hEnded
  | cons c rest =>
      rw [shown, shownFrom] at h
      split at h
      · exact cut_of_shownUnescaped h
      · split at h
        · refine cut_of_needing h fun hShown => ?_
          split at hShown
          · refine cut_of_needing hShown fun hMatched => ?_
            split at hMatched <;> cases hMatched
          · exact cut_of_shownUnescaped hShown
        · exact cut_of_shownUnescaped h

/-! A window that is cut off shows what every longer one shows. -/

variable {more : Text}

theorem of_needing_cut {α : Type} {length : Nat} {expected : Except Failure α} {answer : α}
    (h : needing (some failure) window length expected = .ok answer) :
    length ≤ window.length ∧ expected = .ok answer := by
  obtain ⟨hShort, hExpected⟩ := of_needing h
  rw [shortOf] at hShort
  split at hShort
  · cases hShort
  · exact ⟨by omega, hExpected⟩

theorem needing_of_le {α : Type} {length : Nat} (h : length ≤ window.length) (cut : Option Failure)
    (expected : Except Failure α) : needing cut window length expected = expected := by
  rw [needing, shortOf, if_neg (by omega)]

theorem followed_append {found : Option Text} {seen : Text}
    (h : followed multiLine closing (some failure) seen window = .ok found)
    (cut : Option Failure) (more : Text) :
    followed multiLine closing cut seen (window ++ more) = .ok found := by
  simp only [followed, followWindow_append] at h ⊢
  split at h
  · rename_i hFollow
    simp only [hFollow, h]
  · rename_i body hFollow
    simp only [hFollow, h]
  · cases h

theorem shownOpening_append {d : Delimiter} (hOpening : d.opening <+: window)
    (h : shownOpening multiLine d (some failure) window = .ok sight) (cut : Option Failure)
    (more : Text) : shownOpening multiLine d cut (window ++ more) = .ok sight := by
  have hPos := d.opening_pos
  have hLength := hOpening.length_le
  simp only [shownOpening] at h ⊢
  rw [List.drop_append_of_le_length hLength, List.take_append_of_le_length (by omega)]
  split at h
  · cases h
  · rename_i hFollowed
    rw [followed_append hFollowed cut more]
    exact h
  · rename_i body hFollowed
    rw [followed_append hFollowed cut more]
    exact h

theorem shownUnescaped_append (hSome : window ≠ [])
    (h : shownUnescaped markup multiLine (some failure) window = .ok sight)
    (cut : Option Failure) (more : Text) :
    shownUnescaped markup multiLine cut (window ++ more) = .ok sight := by
  obtain ⟨hLength, hShown⟩ := of_needing_cut h
  rw [shownUnescaped, needing_of_le (by rw [List.length_append]; omega),
    DelimiterSet.longestMatch_append hLength]
  split at hShown
  · rw [List.take_append_of_le_length (List.length_pos_iff.mpr hSome)]
    exact hShown
  · rename_i d hMatch
    exact shownOpening_append (DelimiterSet.opening_prefix_of_longestMatch hMatch) hShown cut more

theorem shownEscaped_append {marker : Text} (hMarker : marker.length ≤ window.length)
    (h : shownEscaped markup marker (some failure) window = .ok sight) (cut : Option Failure)
    (more : Text) : shownEscaped markup marker cut (window ++ more) = .ok sight := by
  obtain ⟨hLength, hShown⟩ := of_needing_cut h
  rw [shownEscaped, needing_of_le (by rw [List.length_append]; omega),
    List.drop_append_of_le_length hMarker,
    DelimiterSet.longestMatch_append (by rw [List.length_drop]; omega),
    List.take_append_of_le_length (by omega)]
  exact hShown

theorem shown_append (h : shown markup multiLine (some failure) window = .ok sight)
    (cut : Option Failure) (more : Text) :
    shown markup multiLine cut (window ++ more) = .ok sight := by
  cases window with
  | nil =>
      rw [shown] at h
      have hLength := (of_needing_cut h).1
      exact absurd hLength (Nat.not_succ_le_zero 0)
  | cons c rest =>
      have hSome : c :: rest ≠ [] := List.cons_ne_nil c rest
      rw [shown, shownFrom] at h
      rw [List.cons_append, shown, shownFrom, ← List.cons_append]
      split at h
      · exact shownUnescaped_append hSome h cut more
      · rename_i marker _
        split at h
        · rename_i hHead
          obtain ⟨hLength, hShown⟩ := of_needing_cut h
          have hPrefix : marker.isPrefixOf (c :: rest ++ more) = marker.isPrefixOf (c :: rest) := by
            rw [Bool.eq_iff_iff, List.isPrefixOf_iff_prefix, List.isPrefixOf_iff_prefix]
            exact ⟨fun hLong => List.prefix_of_prefix_length_le hLong (List.prefix_append _ more)
              hLength, fun hHere => hHere.trans (List.prefix_append _ more)⟩
          rw [if_pos hHead, needing_of_le (by rw [List.length_append]; omega), hPrefix]
          split at hShown
          · rename_i hHere
            rw [if_pos hHere]
            exact shownEscaped_append hLength hShown cut more
          · rename_i hAbsent
            rw [if_neg hAbsent]
            exact shownUnescaped_append hSome hShown cut more
        · rename_i hHead
          rw [if_neg hHead]
          exact shownUnescaped_append hSome h cut more

end Placeholder.Sight
