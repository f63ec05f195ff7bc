import Placeholder.Document.Basic
/-!
Reading JSON. Whole numbers that fit sixty-four bits stay whole. All others are made from the digits
that fit sixty-four bits and a power of ten, in two rounded steps, so they can miss the nearest
double-precision number by a little. Lists and objects nest at most 127 deep; of two members with
one key the later wins.
-/
namespace Placeholder.Json

def isSpace (c : Char) : Bool :=
  c = ' ' || c = '\n' || c = '\t' || c = '\r'

/-- The text without the blanks at its front. -/
def skipSpace (text : Text) : Text := text.dropWhile isSpace

/-- Adds digits to a significand as long as it stays within sixty-four bits. Answers the
significand, how many digits were added and those that were not. -/
def absorb (significand added : Nat) : Text → Nat × Nat × Text
  | [] => (significand, added, [])
  | c :: rest =>
    let next := significand * 10 + (c.toNat - '0'.toNat)
    if greatestUnsigned < next then (significand, added, c :: rest) else absorb next (added + 1) rest

/-- `f · 10^exponent` by one product, or by quotients with powers of ten that are numbers
themselves; nothing if it is too large. -/
def scale (f : Binary64) (exponent : Int) : Option Binary64 :=
  if exponent.natAbs ≤ 308 then
    if 0 ≤ exponent then
      let product := f.mulMagnitude (.ofDecimal false 1 exponent)
      if product.isFinite then some product else none
    else some (f.divMagnitude (.ofDecimal false 1 (-exponent)))
  else if f.mantissa = 0 then some f
  else if 0 ≤ exponent then none
  else scale (f.divMagnitude (.ofDecimal false 1 308)) (exponent + 308)
termination_by (-exponent).toNat
decreasing_by omega

def real (negative : Bool) (significand : Nat) (exponent : Int) : Option Number :=
  (scale (.ofNat significand) exponent).map fun f => .real (if negative then f.neg else f)

def exponentPart (negative : Bool) (significand : Nat) (start : Int) (text : Text) :
    Option (Number × Text) :=
  let (minus, text) := match text with
    | '+' :: rest => (false, rest)
    | '-' :: rest => (true, rest)
    | other => (false, other)
  let digits := text.takeWhile Char.isDigit
  let rest := text.dropWhile Char.isDigit
  if digits.isEmpty then none
  else
    let exponent := digits.foldl (fun n c => n * 10 + (c.toNat - '0'.toNat)) 0
    if pow2 31 ≤ exponent then
      if significand != 0 && !minus then none
      else some (.real (.zero negative), rest)
    else
      (real negative significand (if minus then start - exponent else start + exponent)).map
        fun number => (number, rest)

def tailPart (negative : Bool) (significand : Nat) (exponent : Int) (text : Text) :
    Option (Number × Text) :=
  match text with
  | 'e' :: rest => exponentPart negative significand exponent rest
  | 'E' :: rest => exponentPart negative significand exponent rest
  | _ => (real negative significand exponent).map fun number => (number, text)

def fractionPart (negative : Bool) (significand : Nat) (exponent : Int) (text : Text) :
    Option (Number × Text) :=
  let digits := text.takeWhile Char.isDigit
  let rest := text.dropWhile Char.isDigit
  if digits.isEmpty then none
  else
    let (significand, added, _) := absorb significand 0 digits
    tailPart negative significand (exponent - added) rest

/-- The whole number with this sign; a real one if it does not fit, or is a negative zero. -/
def whole (negative : Bool) (significand : Nat) : Number :=
  if !negative then .whole significand
  else if 0 < significand && significand ≤ pow2 63 then .whole (-(significand : Int))
  else .real (Binary64.ofNat significand).neg

/-- A number without its sign. -/
def unsigned (negative : Bool) (text : Text) : Option (Number × Text) :=
  let digits := text.takeWhile Char.isDigit
  let rest := text.dropWhile Char.isDigit
  if digits.isEmpty || (digits.head? = some '0' && 1 < digits.length) then none
  else
    let (significand, _, excess) := absorb 0 0 digits
    match rest with
    | '.' :: fraction => fractionPart negative significand excess.length fraction
    | 'e' :: _ => tailPart negative significand excess.length rest
    | 'E' :: _ => tailPart negative significand excess.length rest
    | _ =>
      if excess.isEmpty then some (whole negative significand, rest)
      else tailPart negative significand excess.length rest

/-- The character of a `\u` escape, after the letter. A character beyond U+FFFF takes two escapes,
and half of such a pair is refused. -/
def unicodeEscape : Text → Option (Char × Text)
  | a :: b :: c :: d :: rest => do
    let unit ← Digits.number? 16 [a, b, c, d]
    if 0xD800 ≤ unit ∧ unit < 0xDC00 then
      match rest with
      | '\\' :: 'u' :: a :: b :: c :: d :: rest => do
        let low ← Digits.number? 16 [a, b, c, d]
        if 0xDC00 ≤ low ∧ low < 0xE000 then
          return (Char.ofNat (0x10000 + (unit - 0xD800) * 0x400 + (low - 0xDC00)), rest)
        else none
      | _ => none
    else if 0xDC00 ≤ unit ∧ unit < 0xE000 then none
    else return (Char.ofNat unit, rest)
  | _ => none

def escapeSequence : Text → Option (Char × Text)
  | '"' :: rest => some ('"', rest)
  | '\\' :: rest => some ('\\', rest)
  | '/' :: rest => some ('/', rest)
  | 'b' :: rest => some ('\x08', rest)
  | 'f' :: rest => some ('\x0c', rest)
  | 'n' :: rest => some ('\n', rest)
  | 'r' :: rest => some ('\r', rest)
  | 't' :: rest => some ('\t', rest)
  | 'u' :: rest => unicodeEscape rest
  | _ => none

/-- A quoted text, after its opening quote; the characters in `seen` come before it, the latest
first. Each step uses up a character. -/
def quoted : Nat → Text → Text → Option (Text × Text)
  | 0, _, _ => none
  | _, _, [] => none
  | n + 1, seen, c :: rest =>
    if c = '"' then some (seen.reverse, rest)
    else if c = '\\' then
      match escapeSequence rest with
      | some (escaped, rest) => quoted n (escaped :: seen) rest
      | none => none
    else if c.toNat < 0x20 then none
    else quoted n (c :: seen) rest

mutual

/-- A document at the front of the text, blanks before it skipped. Each call has one step less; twice
as many steps as characters, and two more, are enough. `depth` says how many more lists and objects
may be opened. -/
def value : Nat → Nat → Text → Option (Document × Text)
  | 0, _, _ => none
  | n + 1, depth, text =>
    match skipSpace text with
    | 'n' :: 'u' :: 'l' :: 'l' :: rest => some (.null, rest)
    | 't' :: 'r' :: 'u' :: 'e' :: rest => some (.boolean true, rest)
    | 'f' :: 'a' :: 'l' :: 's' :: 'e' :: rest => some (.boolean false, rest)
    | '"' :: rest => (quoted n [] rest).map fun (text, rest) => (.text text, rest)
    | '-' :: rest => (unsigned true rest).map fun (number, rest) => (.number number, rest)
    | '[' :: rest =>
      match depth with
      | 0 => none
      | depth + 1 =>
        match skipSpace rest with
        | ']' :: rest => some (.list [], rest)
        | _ => (items n depth [] rest).map fun (all, rest) => (.list all, rest)
    | '\x7b' :: rest =>
      match depth with
      | 0 => none
      | depth + 1 =>
        match skipSpace rest with
        | '\x7d' :: rest => some (.object [], rest)
        | _ => (members n depth [] rest).map fun (all, rest) => (.ofMembers all, rest)
    | text => (unsigned false text).map fun (number, rest) => (.number number, rest)

/-- The items of a list up to its bracket, after those in `seen`, the latest first. -/
def items : Nat → Nat → List Document → Text → Option (List Document × Text)
  | 0, _, _, _ => none
  | n + 1, depth, seen, text =>
    match value n depth text with
    | none => none
    | some (item, rest) =>
      match skipSpace rest with
      | ',' :: rest => items n depth (item :: seen) rest
      | ']' :: rest => some ((item :: seen).reverse, rest)
      | _ => none

/-- The members of an object up to its brace, after those in `seen`, the latest first. -/
def members : Nat → Nat → List (Text × Document) → Text → Option (List (Text × Document) × Text)
  | 0, _, _, _ => none
  | n + 1, depth, seen, text =>
    match skipSpace text with
    | '"' :: rest =>
      match quoted n [] rest with
      | none => none
      | some (key, rest) =>
        match skipSpace rest with
        | ':' :: rest =>
          match value n depth rest with
          | none => none
          | some (item, rest) =>
            match skipSpace rest with
            | ',' :: rest => members n depth ((key, item) :: seen) rest
            | '\x7d' :: rest => some (((key, item) :: seen).reverse, rest)
            | _ => none
        | _ => none
    | _ => none

end

def deepest : Nat := 127

def read? (text : Text) : Option Document :=
  match value (2 * text.length + 2) deepest text with
  | some (document, rest) => if (skipSpace rest).isEmpty then some document else none
  | none => none

end Placeholder.Json
