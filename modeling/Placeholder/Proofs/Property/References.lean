import Placeholder.Proofs.Markup.Segments
import Placeholder.Property.Resolver
/-!
References between properties as placeholders. A value read piece by piece for its references has the
segments that it has as a text whose one delimiter is a dollar sign with braces, character by
character: an unclosed reference is plain text in both.
-/
namespace Placeholder

/-- The markup of references: a dollar sign and braces, and no escape string. -/
def Markup.references : Markup := ⟨⟨[.dollarBrace], by decide⟩, .off⟩

example : (DelimiterSet.parse [['$', '\x7b', '*', '\x7d']]).toOption =
    some Markup.references.delimiters := by decide

/-- A piece as segments. -/
def PropertyPiece.segments : PropertyPiece → List Segment
  | literal text => text.map fun c => .literal [c]
  | reference key => [.placeholder .dollarBrace key]

namespace PropertyPiece

/-- The pieces of a value, without the facts by which the reading of them ends. -/
theorem ofValue_eq (value : Text) :
    ofValue value =
      match Text.breakOn opening value with
      | none => [.literal value]
      | some (before, after) =>
        match Text.breakOn ['\x7d'] after with
        | none => [.literal before, .literal (opening ++ after)]
        | some (key, rest) => .literal before :: .reference key :: ofValue rest := by
  rw [ofValue]
  split
  · rename_i hOpen
    rw [hOpen]
  · rename_i hOpen
    simp only [hOpen]
    split <;> rename_i hClose <;> rw [hClose]

end PropertyPiece

namespace Markup

theorem placeholderAt_references_of_unopened {text : Text}
    (h : ¬ PropertyPiece.opening <+: text) : references.placeholderAt text = none := by
  have hNone : references.delimiters.longestMatch text = none :=
    DelimiterSet.longestMatch_eq_none_iff.mpr fun d hMem => by
      obtain rfl := List.mem_singleton.mp hMem
      exact h
  simp only [placeholderAt, hNone]

theorem placeholderAt_references (after : Text) :
    references.placeholderAt (PropertyPiece.opening ++ after) =
      (Text.breakOn ['\x7d'] after).map fun cut => (.dollarBrace, cut.1, cut.2) := by
  rfl

/-- Without an escape string, what is no placeholder is one character. -/
theorem segments_references_cons {c : Char} {rest : Text}
    (h : references.placeholderAt (c :: rest) = none) :
    references.segments (c :: rest) = .literal [c] :: references.segments rest := by
  have hNoEscape : references.escapedAt (c :: rest) = none := escapedAt_of_off rfl _
  simp only [segments_cons, first_eq, hNoEscape, Option.getD_none, firstUnescaped_eq, h]

/-- Without a closing brace nothing is a reference. -/
theorem segments_references_of_unclosed {text : Text} (h : '\x7d' ∉ text) :
    references.segments text = text.map fun c => .literal [c] := by
  induction text with
  | nil => exact segments_nil _
  | cons c rest ih =>
      have hNone : references.placeholderAt (c :: rest) = none := by
        cases hFound : references.placeholderAt (c :: rest) with
        | none => rfl
        | some found =>
            obtain ⟨d, key, after⟩ := found
            obtain ⟨hText, hMatch, _⟩ := eq_of_placeholderAt hFound
            obtain rfl := List.mem_singleton.mp (DelimiterSet.mem_of_longestMatch hMatch)
            rw [hText] at h
            exact absurd (by simp [Delimiter.wrap, Delimiter.dollarBrace]) h
      rw [segments_references_cons hNone, ih fun hMem => h (List.mem_cons_of_mem _ hMem),
        List.map_cons]

/-- In front of the first opening token, and everywhere if there is none, characters pass. -/
theorem segments_references_eq (text : Text) :
    references.segments text =
      match Text.breakOn PropertyPiece.opening text with
      | none => text.map fun c => .literal [c]
      | some (before, after) =>
        (before.map fun c => .literal [c]) ++
          references.segments (PropertyPiece.opening ++ after) := by
  induction text with
  | nil => exact segments_nil _
  | cons c rest ih =>
      rw [Text.breakOn]
      cases hPrefix : PropertyPiece.opening.isPrefixOf? (c :: rest) with
      | some after =>
          rw [Text.eq_append_of_isPrefixOf? hPrefix]
          rfl
      | none =>
          rw [segments_references_cons (placeholderAt_references_of_unopened
            (Text.isPrefixOf?_eq_none_iff.mp hPrefix)), ih]
          cases Text.breakOn PropertyPiece.opening rest <;> rfl

/-- The segments of a value are those of its pieces. -/
theorem segments_references (value : Text) :
    references.segments value = (PropertyPiece.ofValue value).flatMap PropertyPiece.segments := by
  induction value using PropertyPiece.ofValue.induct with
  | case1 value hOpen =>
      rw [segments_references_eq, PropertyPiece.ofValue_eq, hOpen, List.flatMap_singleton]
      rfl
  | case2 value before after hOpen hClose =>
      have hUnclosed : '\x7d' ∉ PropertyPiece.opening ++ after := by
        have hAfter : '\x7d' ∉ after := Text.breakOn_singleton_eq_none_iff.mp hClose
        simpa [PropertyPiece.opening] using hAfter
      rw [segments_references_eq, PropertyPiece.ofValue_eq, hOpen]
      simp only [hClose, segments_references_of_unclosed hUnclosed, List.flatMap_cons,
        List.flatMap_nil, PropertyPiece.segments, List.append_nil]
  | case3 value before after hOpen key rest hClose ih =>
      have hFirst : references.segments (PropertyPiece.opening ++ after) =
          .placeholder .dollarBrace key :: references.segments rest := by
        have hNoEscape : references.escapedAt (PropertyPiece.opening ++ after) = none :=
          escapedAt_of_off rfl _
        have hFound := placeholderAt_references after
        rw [hClose, Option.map_some] at hFound
        rw [PropertyPiece.opening, List.cons_append] at hNoEscape hFound ⊢
        simp only [segments_cons, first_eq, hNoEscape, Option.getD_none, firstUnescaped_eq, hFound]
      rw [segments_references_eq, PropertyPiece.ofValue_eq, hOpen]
      simp only [hClose, hFirst, ih, List.flatMap_cons, PropertyPiece.segments, List.singleton_append]

end Markup

end Placeholder
