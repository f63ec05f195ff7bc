import Placeholder.Delimiter
import Placeholder.Proofs.Results
import Placeholder.Proofs.Text.Search
import Mathlib.Data.List.Infix
/-!
The written form of delimiters. The first `*` of a form divides it, so an opening token never holds
one and a form can be read in one way only, whatever stars stand in the closing token. A set that was
read from written forms is read again from the forms of its members.
-/
namespace Placeholder

namespace Delimiter

variable {spec : Text} {d e : Delimiter}

/-- A delimiter is its two tokens. -/
theorem eq_of_tokens (hOpening : d.opening = e.opening) (hClosing : d.closing = e.closing) :
    d = e := by
  cases d
  cases e
  simp_all

/-- A token without a star opens and closes. -/
theorem parse_single (d : Delimiter) (h : '*' ∉ d.opening) (hSame : d.closing = d.opening) :
    parse d.opening = .ok d := by
  have hNone : Text.breakOn ['*'] d.opening = none := Text.breakOn_singleton_eq_none_iff.mpr h
  rw [parse, dif_neg d.opening_ne_nil, hNone]
  exact congrArg Except.ok (eq_of_tokens rfl hSame.symm)

/-- Two tokens around the first star. -/
theorem parse_divided (d : Delimiter) (h : '*' ∉ d.opening) :
    parse (d.opening ++ '*' :: d.closing) = .ok d := by
  have hCut : Text.breakOn ['*'] (d.opening ++ '*' :: d.closing) = some (d.opening, d.closing) :=
    Text.breakOn_singleton_eq_some_iff.mpr ⟨h, rfl⟩
  simp [parse, hCut, d.opening_ne_nil, d.closing_ne_nil]

/-- What a written form says: one token without a star, or two with a star between them. -/
theorem parse_eq_ok_iff :
    parse spec = .ok d ↔
      '*' ∉ d.opening ∧
        (spec = d.opening ∧ d.closing = d.opening ∨ spec = d.opening ++ '*' :: d.closing) := by
  constructor
  · intro h
    by_cases hEmpty : spec = []
    · simp [parse, hEmpty] at h
    rw [parse, dif_neg hEmpty] at h
    cases hCut : Text.breakOn ['*'] spec with
    | none =>
        rw [hCut] at h
        cases h
        exact ⟨Text.breakOn_singleton_eq_none_iff.mp hCut, .inl ⟨rfl, rfl⟩⟩
    | some cut =>
        obtain ⟨hFirst, hSpec⟩ := Text.breakOn_singleton_eq_some_iff.mp hCut
        rw [hCut] at h
        by_cases hOpening : cut.1 = []
        · simp [hOpening] at h
        by_cases hClosing : cut.2 = []
        · simp [hOpening, hClosing] at h
        simp only [hOpening, hClosing, dite_false, Except.ok.injEq] at h
        subst h
        exact ⟨hFirst, .inr hSpec⟩
  · rintro ⟨hFirst, ⟨rfl, hSame⟩ | rfl⟩
    · exact d.parse_single hFirst hSame
    · exact d.parse_divided hFirst

/-- What is shown of a delimiter that was read is read as that delimiter. -/
theorem parse_display (h : parse spec = .ok d) : parse d.display = .ok d := by
  obtain ⟨hFirst, _⟩ := parse_eq_ok_iff.mp h
  rw [display, isSymmetric]
  split
  · rename_i hSame
    exact d.parse_single hFirst (of_decide_eq_true hSame).symm
  · exact d.parse_divided hFirst

/-- The star that counts stands inside the form. -/
def StarInside (spec : Text) : Prop :=
  '*' ∈ spec → spec.idxOf '*' ≠ 0 ∧ spec.idxOf '*' + 1 ≠ spec.length

/-- The tokens that a form is divided into by its first star, or without a star the form twice. -/
def Divides (spec : Text) (d : Delimiter) : Prop :=
  if '*' ∈ spec then
    d.opening = spec.take (spec.idxOf '*') ∧ d.closing = spec.drop (spec.idxOf '*' + 1)
  else d.opening = spec ∧ d.closing = spec

/-- The first star, and what stands around it. -/
theorem idxOf_star {opening closing : Text} (h : '*' ∉ opening) :
    (opening ++ '*' :: closing).idxOf '*' = opening.length := by
  simp [List.idxOf_append, h]

theorem divides_of_parse (h : parse spec = .ok d) : Divides spec d := by
  obtain ⟨hFirst, ⟨rfl, hSame⟩ | rfl⟩ := parse_eq_ok_iff.mp h
  · rw [Divides, if_neg hFirst]
    exact ⟨rfl, hSame⟩
  · rw [Divides, if_pos (by simp), idxOf_star hFirst]
    simp

theorem exists_parse_iff : (∃ d, parse spec = .ok d) ↔ spec ≠ [] ∧ StarInside spec := by
  constructor
  · rintro ⟨d, h⟩
    obtain ⟨hFirst, ⟨rfl, _⟩ | rfl⟩ := parse_eq_ok_iff.mp h
    · exact ⟨d.opening_ne_nil, fun hStar => absurd hStar hFirst⟩
    · refine ⟨by simp, fun _ => ?_⟩
      rw [idxOf_star hFirst]
      simp [d.opening_ne_nil, d.closing_ne_nil]
  · rintro ⟨hSome, hInside⟩
    by_cases hStar : '*' ∈ spec
    · obtain ⟨opening, closing, rfl, hFirst⟩ := List.eq_append_cons_of_mem hStar
      have hPlaces := hInside hStar
      rw [idxOf_star hFirst] at hPlaces
      have hTokens : opening ≠ [] ∧ closing ≠ [] := by simpa using hPlaces
      let d : Delimiter := ⟨opening, closing, hTokens.1, hTokens.2⟩
      exact ⟨d, d.parse_divided hFirst⟩
    · let d : Delimiter := ⟨spec, spec, hSome, hSome⟩
      exact ⟨d, d.parse_single hStar rfl⟩

end Delimiter

namespace DelimiterSet

variable {specs : List Text} {set : DelimiterSet} {members : List Delimiter}

theorem ofList_concat (members : List Delimiter) (d : Delimiter) :
    ofList (members ++ [d]) = (ofList members).insert d := by
  simp [ofList]

/-- Each delimiter stands at the first place where it is declared. -/
theorem members_ofList (members : List Delimiter) :
    (ofList members).members = members.eraseDups := by
  induction members using List.reverseRecOn with
  | nil => rfl
  | append_singleton members d ih =>
      rw [ofList_concat, insert, List.eraseDups_append]
      by_cases h : d ∈ members
      · simp [ih, h, List.removeAll]
      · simp [ih, h, List.removeAll, List.eraseDups_cons]

/-- Delimiters declared once are all kept. -/
theorem ofList_of_nodup (h : members.Nodup) : ofList members = ⟨members, h⟩ := by
  induction members using List.reverseRecOn with
  | nil => rfl
  | append_singleton members d ih =>
      obtain ⟨hBefore, _, hApart⟩ := List.nodup_append.mp h
      have hNew : d ∉ members := fun hMem => hApart d hMem d (by simp) rfl
      rw [ofList_concat, ih hBefore, insert, dif_neg hNew]

/-- A set comes of written forms that can all be read. -/
theorem parse_eq_ok_iff :
    parse specs = .ok set ↔
      ∃ delimiters : List Delimiter,
        specs.map Delimiter.parse = delimiters.map .ok ∧ ofList delimiters = set := by
  rw [parse]
  constructor
  · intro h
    obtain ⟨delimiters, hAll, hSet⟩ := exists_of_map_eq_ok h
    exact ⟨delimiters, mapM_eq_ok_iff.mp hAll, hSet⟩
  · rintro ⟨delimiters, hAll, rfl⟩
    rw [mapM_eq_ok_iff.mpr hAll]
    rfl

/-- What a set that was read from written forms is, and what is read from its own. -/
structure ReadsBack (specs : List Text) (set : DelimiterSet) : Prop where
  /-- The forms of its members are read as the same set. -/
  again : parse (set.members.map Delimiter.display) = .ok set
  /-- No two members have the same form. -/
  apart : ∀ d ∈ set.members, ∀ e ∈ set.members, d.display = e.display → d = e
  /-- It holds what the forms say in their order, less what was there before. -/
  firsts : ∃ delimiters : List Delimiter,
    specs.map Delimiter.parse = delimiters.map .ok ∧ set.members = delimiters.eraseDups

/-- A member was read from one of the forms. -/
theorem exists_spec_of_mem {delimiters : List Delimiter} {d : Delimiter}
    (hAll : specs.map Delimiter.parse = delimiters.map .ok) (h : d ∈ (ofList delimiters).members) :
    ∃ spec ∈ specs, Delimiter.parse spec = .ok d := by
  rw [members_ofList, List.mem_eraseDups] at h
  exact (mem_results_iff hAll).mp h

theorem readsBack_of_parse (h : parse specs = .ok set) : ReadsBack specs set := by
  obtain ⟨delimiters, hAll, rfl⟩ := parse_eq_ok_iff.mp h
  have hDisplay : ∀ d ∈ (ofList delimiters).members, Delimiter.parse d.display = .ok d := by
    intro d hMem
    obtain ⟨spec, _, hSpec⟩ := exists_spec_of_mem hAll hMem
    exact Delimiter.parse_display hSpec
  constructor
  case again =>
    have hSame : ofList (ofList delimiters).members = ofList delimiters :=
      ofList_of_nodup (ofList delimiters).nodup
    refine parse_eq_ok_iff.mpr ⟨(ofList delimiters).members, ?_, hSame⟩
    rw [List.map_map]
    exact List.map_congr_left hDisplay
  case apart =>
    intro d hd e he hSame
    have hRead := hDisplay d hd
    rw [hSame, hDisplay e he] at hRead
    exact (Except.ok.inj hRead).symm
  case firsts => exact ⟨delimiters, hAll, members_ofList delimiters⟩

/-- Sets are read back from the forms of their members, and a form is read exactly if its first star
stands inside it. -/
theorem written_forms_read_back :
    (∀ specs set, parse specs = .ok set → ReadsBack specs set) ∧
      ∀ spec, ((∃ d, Delimiter.parse spec = .ok d) ↔ spec ≠ [] ∧ Delimiter.StarInside spec) ∧
        ∀ d, Delimiter.parse spec = .ok d → Delimiter.Divides spec d :=
  ⟨fun _ _ => readsBack_of_parse,
    fun _ => ⟨Delimiter.exists_parse_iff, fun _ => Delimiter.divides_of_parse⟩⟩

/-- One delimiter in two forms, closing tokens with stars in them, and a form that is not read. -/
theorem written_forms_read_back_starred :
    let specs : List Text := ["a*a".toList, "a**".toList, "a".toList, "a*b*c".toList]
    let set : DelimiterSet := ⟨[⟨['a'], ['a'], nofun, nofun⟩, ⟨['a'], ['*'], nofun, nofun⟩,
      ⟨['a'], ['b', '*', 'c'], nofun, nofun⟩], by decide⟩
    parse specs = .ok set ∧ ReadsBack specs set ∧ ¬ ∃ d, Delimiter.parse ['a', '*'] = .ok d := by
  intro specs set
  have hParse : parse specs = .ok set := rfl
  refine ⟨hParse, written_forms_read_back.1 specs set hParse, ?_⟩
  rw [(written_forms_read_back.2 ['a', '*']).1]
  exact fun h => (h.2 (by decide)).2 rfl

end DelimiterSet

end Placeholder
