import Placeholder.Markup
import Placeholder.Reading.Lookahead
/-!
What stands at the front of a marked input: nothing, plain characters, an escaped opening token or a
whole placeholder. Seeing it takes no more characters than the window holds, and asks for no value.
-/
namespace Placeholder

/-- What stands at the front of an input. -/
inductive Sight where
  /-- The input has no more characters. -/
  | ended
  /-- Characters that pass through. -/
  | literal (text : Text)
  /-- An escape string with the opening token after it, `consumed` characters that turn into `text`. -/
  | escaped (text : Text) (consumed : Nat)
  /-- A placeholder: all of it, and the expression inside. -/
  | placeholder (token expression : Text)
deriving DecidableEq

/-- How a character continues the body of an open placeholder. -/
inductive Progress where
  | broken
  | closed
  | further
deriving DecidableEq

namespace Sight

/-- Judges `c`, which follows the characters `seen` of the body (the latest first). -/
def judge (multiLine : Bool) (closing seen : Text) (c : Char) : Progress :=
  if c = '\n' && !multiLine then .broken
  else if closing.reverse.isPrefixOf (c :: seen) then .closed
  else .further

/-- Follows the body through characters that were read already. Answers the body up to its closing
token, or how far it goes (`Sum.inr`), the latest character first; nothing if it breaks off. -/
def followWindow (multiLine : Bool) (closing : Text) : Text → Text → Option (Text ⊕ Text)
  | seen, [] => some (.inr seen)
  | seen, c :: rest =>
    match judge multiLine closing seen c with
    | .broken => none
    | .closed => some (.inl (c :: seen))
    | .further => followWindow multiLine closing (c :: seen) rest

/-- Follows the body through at most `count` characters of the input. -/
def followInput (multiLine : Bool) (closing : Text) :
    Nat → Text → Lookahead → Except Failure (Option Text) × Lookahead
  | 0, _, input => (.ok none, input)
  | n + 1, seen, input =>
    match input.read with
    | (.error failure, input) => (.error failure, input)
    | (.ok none, input) => (.ok none, input)
    | (.ok (some c), input) =>
      match judge multiLine closing seen c with
      | .broken => (.ok none, input)
      | .closed => (.ok (some (c :: seen)), input)
      | .further => followInput multiLine closing n (c :: seen) input

/-- The body of a placeholder whose opening token was read, closing token included and the latest
character first; nothing if it is not closed within the window, or a line ends before. -/
def followBody (multiLine : Bool) (closing window : Text) (input : Lookahead) :
    Except Failure (Option Text) × Lookahead :=
  match followWindow multiLine closing [] window with
  | none => (.ok none, input)
  | some (.inl body) => (.ok (some body), input)
  | some (.inr seen) =>
    followInput multiLine closing (input.limit - input.position) seen input

/-- What a window shows that starts with the opening token of `d`. -/
def ofOpening (multiLine : Bool) (d : Delimiter) (window : Text) (input : Lookahead) :
    Except Failure Sight × Lookahead :=
  match followBody multiLine d.closing (window.drop d.opening.length) input with
  | (.error failure, input) => (.error failure, input)
  | (.ok none, input) => (.ok (.literal (window.take 1)), input)
  | (.ok (some body), input) =>
    (.ok (.placeholder (d.opening ++ body.reverse) (body.drop d.closing.length).reverse), input)

/-- What a window shows at whose front no escape string stands. -/
def ofUnescaped (markup : Markup) (multiLine : Bool) (window : Text) (input : Lookahead) :
    Except Failure Sight × Lookahead :=
  match input.fill window markup.delimiters.maxOpening with
  | (.error failure, input) => (.error failure, input)
  | (.ok window, input) =>
    match markup.delimiters.longestMatch window with
    | none => (.ok (.literal (window.take 1)), input)
    | some d => ofOpening multiLine d window input

/-- What a window shows at whose front the escape string stands. -/
def ofEscaped (markup : Markup) (marker window : Text) (input : Lookahead) :
    Except Failure Sight × Lookahead :=
  match input.fill window (marker.length + markup.delimiters.maxOpening) with
  | (.error failure, input) => (.error failure, input)
  | (.ok window, input) =>
    match markup.delimiters.longestMatch (window.drop marker.length) with
    | none => (.ok (.literal (window.take (marker.length + 1))), input)
    | some d =>
      (.ok (.escaped (markup.escape.kept marker ++ d.opening) (marker.length + d.opening.length)),
        input)

/-- What a window shows that holds the first character `c`. -/
def ofWindow (markup : Markup) (multiLine : Bool) (c : Char) (window : Text) (input : Lookahead) :
    Except Failure Sight × Lookahead :=
  match markup.escape.marker with
  | none => ofUnescaped markup multiLine window input
  | some marker =>
    if marker.head? = some c then
      match input.fill window marker.length with
      | (.error failure, input) => (.error failure, input)
      | (.ok window, input) =>
        if marker.isPrefixOf window then ofEscaped markup marker window input
        else ofUnescaped markup multiLine window input
    else ofUnescaped markup multiLine window input

/-- What stands at the front of an input that was just marked. -/
def ofInput (markup : Markup) (multiLine : Bool) (input : Lookahead) :
    Except Failure Sight × Lookahead :=
  match input.fill [] 1 with
  | (.error failure, input) => (.error failure, input)
  | (.ok [], input) => (.ok .ended, input)
  | (.ok (c :: window), input) => ofWindow markup multiLine c (c :: window) input

end Sight

end Placeholder
