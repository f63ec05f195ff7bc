import Placeholder.Proofs.Markup.Plain
/-!
Texts guarded by escape strings. With an escape string in front of each of its opening tokens, a
text is characters only, and they are the text itself. The escape string begins with a character
that is in no opening token, so it hides none and completes none.
-/
namespace Placeholder

namespace DelimiterSet

/-- The text, read from the left, with `marker` in front of each opening token that is met. Behind
an opening token the text is read afresh. -/
def guarded (set : DelimiterSet) (marker : Text) : Text → Text
  | [] => []
  | c :: rest =>
    match set.longestMatch (c :: rest) with
    | none => c :: set.guarded marker rest
    | some d => marker ++ (d.opening ++ set.guarded marker ((c :: rest).drop d.opening.length))
termination_by text => text.length
decreasing_by
  · simp
  · have hPos := d.opening_pos
    simp only [List.length_drop, List.length_cons]
    omega

variable {set : DelimiterSet} {marker others text : Text} {first : Char}

theorem guarded_nil (set : DelimiterSet) (marker : Text) : set.guarded marker [] = [] := by
  rw [guarded]

theorem guarded_of_none {c : Char} {rest : Text} (h : set.longestMatch (c :: rest) = none) :
    set.guarded marker (c :: rest) = c :: set.guarded marker rest := by
  rw [guarded, h]

theorem guarded_of_some {d : Delimiter} {rest : Text}
    (h : set.longestMatch (d.opening ++ rest) = some d) :
    set.guarded marker (d.opening ++ rest) = marker ++ (d.opening ++ set.guarded marker rest) := by
  cases hText : d.opening ++ rest with
  | nil => exact absurd (List.append_eq_nil_iff.mp hText).1 d.opening_ne_nil
  | cons c tail =>
      rw [guarded, ← hText, h]
      simp only [List.drop_left]

/-- A text is guarded in one of three steps. -/
theorem guarded_induction (set : DelimiterSet) {motive : Text → Prop} (nil : motive [])
    (plain : ∀ c rest, set.longestMatch (c :: rest) = none → motive rest → motive (c :: rest))
    (opening : ∀ d rest, set.longestMatch (d.opening ++ rest) = some d → motive rest →
      motive (d.opening ++ rest)) (text : Text) : motive text := by
  induction text using guarded.induct set with
  | case1 => exact nil
  | case2 c rest hNone ih => exact plain c rest hNone ih
  | case3 c rest d hMatch ih =>
      obtain ⟨back, hText⟩ := opening_prefix_of_longestMatch hMatch
      rw [← hText] at hMatch ih ⊢
      rw [List.drop_left] at ih
      exact opening d back hMatch ih

/-- A token without the first character of the escape string stands at the front of the guarded text
only if it stands there in the text. -/
theorem prefix_of_prefix_guarded {token : Text} (hApart : first ∉ token)
    (h : token <+: set.guarded (first :: others) text) : token <+: text := by
  induction text using guarded_induction set generalizing token with
  | nil => rwa [guarded_nil] at h
  | plain c rest hNone ih =>
      rw [guarded_of_none hNone] at h
      cases token with
      | nil => exact List.nil_prefix
      | cons t token =>
          obtain ⟨rfl, hRest⟩ := List.cons_prefix_cons.mp h
          have hLater := ih (fun hMem => hApart (List.mem_cons_of_mem _ hMem)) hRest
          exact List.cons_prefix_cons.mpr ⟨rfl, hLater⟩
  | opening d rest hMatch _ =>
      rw [guarded_of_some hMatch] at h
      cases token with
      | nil => exact List.nil_prefix
      | cons t token =>
          obtain ⟨rfl, _⟩ := List.cons_prefix_cons.mp h
          exact absurd (List.mem_cons_self ..) hApart

/-- Where no opening token stands in the text, none stands in the guarded text. -/
theorem longestMatch_guarded (others : Text) {c : Char} {rest : Text}
    (hApart : ∀ d ∈ set.members, first ∉ d.opening)
    (h : set.longestMatch (c :: rest) = none) :
    set.longestMatch (c :: set.guarded (first :: others) rest) = none := by
  rw [← guarded_of_none h]
  refine longestMatch_eq_none_iff.mpr fun d hMem hOpens => ?_
  have hThere := prefix_of_prefix_guarded (hApart d hMem) hOpens
  exact longestMatch_eq_none_iff.mp h d hMem hThere

/-- Guarding what comes behind an opening token makes it neither shorter nor longer. -/
theorem longestMatch_opening_guarded (others : Text) {d : Delimiter} {rest : Text}
    (hApart : ∀ d ∈ set.members, first ∉ d.opening)
    (h : set.longestMatch (d.opening ++ rest) = some d) :
    set.longestMatch (d.opening ++ set.guarded (first :: others) rest) = some d := by
  rw [← h]
  refine longestMatch_congr fun other hMem => ?_
  constructor
  · intro hOpens
    rcases List.prefix_or_prefix_of_prefix hOpens (List.prefix_append d.opening _) with
      hShort | ⟨tail, hTail⟩
    · exact hShort.trans (List.prefix_append _ _)
    · rw [← hTail] at hOpens ⊢
      rw [List.prefix_append_right_inj] at hOpens ⊢
      refine prefix_of_prefix_guarded (fun hFirst => hApart other hMem ?_) hOpens
      rw [← hTail]
      exact List.mem_append_right _ hFirst
  · intro hOpens
    -- It is no longer than the token that wins there, so the text behind has no part in it.
    have hLength := (longestMatch_eq_some_iff.mp h).length_le hMem hOpens
    have hWithin := List.prefix_of_prefix_length_le hOpens (List.prefix_append _ rest) hLength
    exact hWithin.trans (List.prefix_append _ _)

end DelimiterSet

namespace Markup

/-- The escape string is dropped where it escapes, and it begins with a character that is in no
opening token. -/
structure Guards (m : Markup) (first : Char) (others : Text) : Prop where
  marker : m.escape.marker = some (first :: others)
  dropped : m.escape.preserve = false
  apart : ∀ d ∈ m.delimiters.members, first ∉ d.opening

variable {m : Markup} {first : Char} {others text : Text}

theorem Guards.kept (h : m.Guards first others) (marker : Text) : m.escape.kept marker = [] := by
  rw [Escape.kept, h.dropped]
  rfl

theorem Guards.escapedAt_cons (h : m.Guards first others) {c : Char} (hOther : c ≠ first)
    (rest : Text) : m.escapedAt (c :: rest) = none := by
  refine escapedAt_of_absent h.marker fun hHere => hOther ?_
  exact (List.cons_prefix_cons.mp hHere).1.symm

/-- The segments of the guarded text are characters only, and they are the text. -/
theorem Guards.plain_segments (h : m.Guards first others) (hText : first ∉ text) :
    Plain (m.segments (m.delimiters.guarded (first :: others) text)) text := by
  induction text using m.delimiters.guarded_induction with
  | nil =>
      rw [DelimiterSet.guarded_nil, segments_nil]
      exact .nil
  | plain c rest hNone ih =>
      have hOther : c ≠ first := fun hSame => hText (hSame ▸ List.mem_cons_self ..)
      have hNone' := DelimiterSet.longestMatch_guarded others h.apart hNone
      have hRest := ih fun hMem => hText (List.mem_cons_of_mem _ hMem)
      rw [DelimiterSet.guarded_of_none hNone, segments_cons, first_eq, h.escapedAt_cons hOther,
        Option.getD_none, firstUnescaped, hNone']
      exact hRest.literal [c]
  | opening d rest hMatch ih =>
      have hMatch' := DelimiterSet.longestMatch_opening_guarded others h.apart hMatch
      have hEscaped := escapedAt_of_match h.marker hMatch'
      have hRest := ih fun hMem => hText (List.mem_append_right _ hMem)
      rw [h.kept, List.nil_append, List.drop_left, List.cons_append] at hEscaped
      rw [DelimiterSet.guarded_of_some hMatch, List.cons_append, segments_cons, first_eq, hEscaped,
        Option.getD_some]
      exact hRest.literal d.opening

end Markup

end Placeholder
