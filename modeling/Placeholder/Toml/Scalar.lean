import Placeholder.Toml.Written
/-!
The scalars of TOML. Quoted texts come on one line or on several, with escapes or literal; an
unquoted word is a truth value, a number, or a date or time.
-/
namespace Placeholder.Toml.Scalar

/-- Whether a character may not stand in a text or a comment. -/
def isControl (c : Char) : Bool :=
  (c.toNat < 0x20 && c != '\t') || c.toNat = 0x7f

def isGap (c : Char) : Bool :=
  c = ' ' || c = '\t'

def afterBreak? : Text → Option Text
  | '\n' :: rest => some rest
  | '\r' :: '\n' :: rest => some rest
  | _ => none

/-- The character with the code that `count` hexadecimal digits write. -/
def coded (count : Nat) (text : Text) : Option (Char × Text) := do
  let digits := text.take count
  if digits.length < count then none
  else
    let code ← Digits.number? 16 digits
    if h : code.isValidChar then some (Char.ofNatAux code h, text.drop count) else none

def escape : Text → Option (Char × Text)
  | 'b' :: rest => some ('\x08', rest)
  | 't' :: rest => some ('\t', rest)
  | 'n' :: rest => some ('\n', rest)
  | 'f' :: rest => some ('\x0c', rest)
  | 'r' :: rest => some ('\r', rest)
  | 'e' :: rest => some ('\x1b', rest)
  | '"' :: rest => some ('"', rest)
  | '\\' :: rest => some ('\\', rest)
  | 'x' :: rest => coded 2 rest
  | 'u' :: rest => coded 4 rest
  | 'U' :: rest => coded 8 rest
  | _ => none

/-- A text with escapes on one line, after its opening quote; the characters in `seen` come before
it, the latest first. Each step uses up a character. -/
def basic : Nat → Text → Text → Option (Text × Text)
  | 0, _, _ => none
  | _, _, [] => none
  | n + 1, seen, c :: rest =>
    if c = '"' then some (seen.reverse, rest)
    else if c = '\\' then
      match escape rest with
      | some (escaped, rest) => basic n (escaped :: seen) rest
      | none => none
    else if isControl c then none
    else basic n (c :: seen) rest

def literal (text : Text) : Option (Text × Text) :=
  let content := text.takeWhile fun c => c != '\'' && !isControl c
  match text.drop content.length with
  | '\'' :: rest => some (content, rest)
  | _ => none

/-- The text without the blanks and line breaks at its front. -/
def skipBreaks : Text → Text
  | '\n' :: rest => skipBreaks rest
  | '\r' :: '\n' :: rest => skipBreaks rest
  | c :: rest => if isGap c then skipBreaks rest else c :: rest
  | [] => []

/-- The text after a line break that a backslash hides, with the blanks and line breaks that follow;
nothing if the line goes on. -/
def afterHiddenBreak? (text : Text) : Option Text :=
  (afterBreak? (text.dropWhile isGap)).map skipBreaks

/-- The closing quotes of a text of several lines, if there are enough of them: three close it, and
up to two before those belong to it. -/
def closing (quote : Char) (text : Text) : Option (Text × Text) :=
  let count := (text.takeWhile (· = quote)).length
  if 3 ≤ count && count ≤ 5 then some (List.replicate (count - 3) quote, text.drop count) else none

/-- A text of several lines, after its opening quotes; `escapes` says whether a backslash begins an
escape. -/
def lines (escapes : Bool) (quote : Char) : Nat → Text → Text → Option (Text × Text)
  | 0, _, _ => none
  | _, _, [] => none
  | n + 1, seen, c :: rest =>
    if c = quote then
      match closing quote (c :: rest) with
      | some (own, rest) => some (seen.reverse ++ own, rest)
      | none =>
        if (rest.takeWhile (· = quote)).length < 2 then lines escapes quote n (c :: seen) rest
        else none
    else if c = '\\' && escapes then
      match afterHiddenBreak? rest with
      | some rest => lines escapes quote n seen rest
      | none =>
        match escape rest with
        | some (escaped, rest) => lines escapes quote n (escaped :: seen) rest
        | none => none
    else if c = '\r' then
      match rest with
      | '\n' :: rest => lines escapes quote n ('\n' :: '\r' :: seen) rest
      | _ => none
    else if c != '\n' && isControl c then none
    else lines escapes quote n (c :: seen) rest

/-- A text of several lines, after its opening quotes. A line break that follows them at once does
not belong to it. -/
def openedLines (escapes : Bool) (quote : Char) (text : Text) : Option (Text × Text) :=
  let content := (afterBreak? text).getD text
  lines escapes quote (content.length + 1) [] content

/-- Digits without the underscores between them; nothing if one stands elsewhere, or there is no
digit. -/
def digits? (base : Nat) (text : Text) : Option Text :=
  let groups := text.cutAt '_'
  if groups.all fun group => !group.isEmpty && group.all fun c => (Digits.digit? base c).isSome then
    some groups.flatten
  else none

/-- Decimal digits without a zero in front of others. -/
def wholePart? (text : Text) : Option Text := do
  let digits ← digits? 10 text
  if digits.head? = some '0' && 1 < digits.length then none else some digits

def exponent? (text : Text) : Option Int := do
  let (sign, text) : Int × Text := match text with
    | '+' :: rest => (1, rest)
    | '-' :: rest => (-1, rest)
    | other => (1, other)
  let digits ← digits? 10 text
  let n ← Digits.number? 10 digits
  return sign * n

/-- The text before the exponent and the exponent; zero if none is written. -/
def splitExponent? (text : Text) : Option (Text × Int) :=
  let front := text.takeWhile fun c => c != 'e' && c != 'E'
  match text.drop front.length with
  | [] => some (front, 0)
  | _ :: written => (exponent? written).map fun exponent => (front, exponent)

def splitPoint? (text : Text) : Option (Text × Text) :=
  match text.cutAt '.' with
  | [whole] => (wholePart? whole).map fun whole => (whole, [])
  | [whole, part] => do
    let whole ← wholePart? whole
    let part ← digits? 10 part
    return (whole, part)
  | _ => none

/-- The real number that a text without a sign writes. -/
def real? (negative : Bool) (text : Text) : Option Written := do
  let (front, exponent) ← splitExponent? text
  let (whole, part) ← splitPoint? front
  let digits ← Digits.number? 10 (whole ++ part)
  let number := Binary64.ofDecimal negative digits (exponent - part.length)
  return if number.isFinite then .real number else .excess

/-- The whole number that a text without a sign writes with the digits of a base. -/
def integer? (base : Nat) (text : Text) : Option Int := do
  let digits ← digits? base text
  let n ← Digits.number? base digits
  return n

def unsigned? (negative : Bool) (text : Text) : Option Written :=
  if text = "inf".toList then some (.real (.infinity negative))
  else if text = "nan".toList then some (.real .nan)
  else
    match (wholePart? text).bind (integer? 10) with
    | some n => some (.integer (if negative then -n else n))
    | none => real? negative text

def number? (text : Text) : Option Written :=
  match text with
  | '0' :: 'x' :: rest => (integer? 16 rest).map .integer
  | '0' :: 'o' :: rest => (integer? 8 rest).map .integer
  | '0' :: 'b' :: rest => (integer? 2 rest).map .integer
  | '+' :: rest => unsigned? false rest
  | '-' :: rest => unsigned? true rest
  | text => unsigned? false text

def word? (text : Text) : Option Written :=
  if text = "true".toList then some (.boolean true)
  else if text = "false".toList then some (.boolean false)
  else
    match Moment.read? text with
    | some found => some (.moment found)
    | none => number? text

def isWordChar (c : Char) : Bool :=
  c.isAlphanum || c = '_' || c = '+' || c = '-' || c = '.' || c = ':'

def timeFollows (word rest : Text) : Bool :=
  match rest with
  | ' ' :: h₁ :: h₂ :: ':' :: _ => word.length = 10 && h₁.isDigit && h₂.isDigit
  | _ => false

def word (text : Text) : Option (Written × Text) :=
  let front := text.takeWhile isWordChar
  let rest := text.drop front.length
  if timeFollows front rest then
    let later := (rest.drop 1).takeWhile isWordChar
    (word? (front ++ ' ' :: later)).map fun value => (value, rest.drop (1 + later.length))
  else (word? front).map fun value => (value, rest)

end Placeholder.Toml.Scalar
