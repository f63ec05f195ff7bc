/-!
Text is a list of characters. A window is cut from it, a token is looked for in it and a length is
counted in it one character at a time, so all of that is list work. `breakOn` is the one search: it
cuts a text around the first occurrence of a token.
-/
namespace Placeholder

/-- Unicode text, one character after the other. -/
abbrev Text := List Char

namespace Text

/-- What stands before and after the first occurrence of `token`. An empty text holds no occurrence. -/
def breakOn (token : Text) : Text → Option (Text × Text)
  | [] => none
  | c :: rest =>
    match token.isPrefixOf? (c :: rest) with
    | some after => some ([], after)
    | none => (breakOn token rest).map fun cut => (c :: cut.1, cut.2)

/-- Whether `token` stands somewhere in the text. -/
def occursIn (token text : Text) : Bool :=
  (breakOn token text).isSome

/-- The pieces between the occurrences of `separator`; there is always at least one. -/
def cutAt (separator : Char) : Text → List Text
  | [] => [[]]
  | c :: rest =>
    if c = separator then [] :: cutAt separator rest
    else
      match cutAt separator rest with
      | [] => [[c]]
      | piece :: pieces => (c :: piece) :: pieces

/-- The pieces one after the other, with `separator` between neighbours. -/
def join (separator : Text) : List Text → Text
  | [] => []
  | [piece] => piece
  | piece :: pieces => piece ++ separator ++ join separator pieces

theorem isPrefixOf?_cons (t c : Char) (token text : Text) :
    (t :: token).isPrefixOf? (c :: text) = if t == c then token.isPrefixOf? text else none := rfl

theorem isPrefixOf?_nil (text : Text) : ([] : Text).isPrefixOf? text = some text := by
  cases text <;> rfl

theorem eq_append_of_isPrefixOf? {token text after : Text}
    (h : token.isPrefixOf? text = some after) : text = token ++ after := by
  induction token generalizing text with
  | nil =>
    rw [isPrefixOf?_nil] at h
    exact Option.some.inj h
  | cons t token ih =>
    cases text with
    | nil => cases h
    | cons c text =>
      rw [isPrefixOf?_cons] at h
      split at h
      · rename_i hEq
        rw [ih h, beq_iff_eq.mp hEq, List.cons_append]
      · cases h

theorem isPrefixOf?_append (token after : Text) :
    token.isPrefixOf? (token ++ after) = some after := by
  induction token with
  | nil => exact isPrefixOf?_nil after
  | cons t token ih => rw [List.cons_append, isPrefixOf?_cons, beq_self_eq_true, if_pos rfl, ih]

/-- Nothing is lost around the token. -/
theorem eq_append_of_breakOn {token text before after : Text}
    (h : breakOn token text = some (before, after)) : text = before ++ token ++ after := by
  induction text generalizing before with
  | nil => cases h
  | cons c rest ih =>
    simp only [breakOn] at h
    split at h
    · rename_i hToken
      cases h
      exact eq_append_of_isPrefixOf? hToken
    · obtain ⟨cut, hCut, hEq⟩ := Option.map_eq_some_iff.mp h
      cases hEq
      simpa using ih hCut

end Text

end Placeholder
