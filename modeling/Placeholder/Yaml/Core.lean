import Placeholder.Document.Basic
import Placeholder.Yaml.Tag
/-!
What plain scalars mean: null, a truth value, a number or a text. Whole numbers of up to sixty-four
bits stay whole; those that need more, but no more than a hundred and twenty-eight, belong to no
document. A real number that is not finite becomes null.
-/
namespace Placeholder.Yaml.Core

def isNull (text : Text) : Bool :=
  ["~", "null", "Null", "NULL"].any fun word => text = word.toList

def boolean? (text : Text) : Option Bool :=
  if ["true", "True", "TRUE"].any fun word => text = word.toList then some true
  else if ["false", "False", "FALSE"].any fun word => text = word.toList then some false
  else none

/-- Whether decimal digits begin with a zero that they do not need; such a scalar is a text. -/
def hasSpareZero (text : Text) : Bool :=
  let digits := match text with
    | '+' :: rest => rest
    | '-' :: rest => rest
    | other => other
  digits.head? = some '0' && 1 < digits.length && digits.all Char.isDigit

/-- The whole number that a scalar without a sign writes, in the base that it names. -/
def unsigned? (text : Text) : Option Nat :=
  match text with
  | '0' :: 'x' :: digits => Digits.number? 16 digits
  | '0' :: 'o' :: digits => Digits.number? 8 digits
  | '0' :: 'b' :: digits => Digits.number? 2 digits
  | digits => if hasSpareZero digits then none else Digits.number? 10 digits

def integer? (text : Text) : Option Int :=
  match text with
  | '-' :: rest => (unsigned? rest).map fun n => -(n : Int)
  | '+' :: rest => (unsigned? rest).map fun n => (n : Int)
  | rest => (unsigned? rest).map fun n => (n : Int)

def isWhole (n : Int) : Bool :=
  leastSigned ≤ n && n ≤ greatestUnsigned

/-- Whether a whole number is too large for a document, but not so large that it is a real number. -/
def isOversized (n : Int) : Bool :=
  !isWhole n && -(pow2 127 : Int) ≤ n && n < pow2 128

def exponent? (text : Text) : Option Int :=
  match text with
  | '+' :: digits => (Digits.number? 10 digits).map fun n => (n : Int)
  | '-' :: digits => (Digits.number? 10 digits).map fun n => -(n : Int)
  | digits => (Digits.number? 10 digits).map fun n => (n : Int)

/-- The exponent after the digits of a real number: zero if nothing follows. -/
def exponentPart? (text : Text) : Option Int :=
  match text with
  | [] => some 0
  | 'e' :: rest => exponent? rest
  | 'E' :: rest => exponent? rest
  | _ => none

/-- The real number of this sign that digits write; a digit must stand before or after the point. -/
def decimal? (negative : Bool) (text : Text) : Option Binary64 := do
  let whole := text.takeWhile Char.isDigit
  let rest := text.dropWhile Char.isDigit
  let (part, rest) := match rest with
    | '.' :: rest => (rest.takeWhile Char.isDigit, rest.dropWhile Char.isDigit)
    | other => ([], other)
  let digits ← Digits.number? 10 (whole ++ part)
  let exponent ← exponentPart? rest
  let number := Binary64.ofDecimal negative digits (exponent - part.length)
  if number.isFinite then some number else none

/-- Whether a scalar without a sign means infinity. -/
def isInfinity (text : Text) : Bool :=
  [".inf", ".Inf", ".INF"].any fun word => text = word.toList

def real? (text : Text) : Option Binary64 :=
  if [".nan", ".NaN", ".NAN"].any fun word => text = word.toList then some .nan
  else
    match text with
    | '-' :: rest => if isInfinity rest then some (.infinity true) else decimal? true rest
    | '+' :: rest => if isInfinity rest then some (.infinity false) else decimal? false rest
    | rest => if isInfinity rest then some (.infinity false) else decimal? false rest

/-- A real number as a document; null if it is not finite. -/
def ofReal (x : Binary64) : Document :=
  if x.isFinite then .number (.real x) else .null

def ofInteger? (n : Int) : Option Document :=
  if isWhole n then some (.number (.whole n)) else none

def plain? (text : Text) : Option Document :=
  if text.isEmpty || isNull text then some .null
  else
    match boolean? text, integer? text with
    | some value, _ => some (.boolean value)
    | none, some n =>
      if isWhole n then some (.number (.whole n))
      else if isOversized n then none
      else
        match real? text with
        | some x => some (ofReal x)
        | none => some (.text text)
    | none, none =>
      if hasSpareZero text then some (.text text)
      else
        match real? text with
        | some x => some (ofReal x)
        | none => some (.text text)

def tag (name : String) : Bytes :=
  Utf8.encodeText ("tag:yaml.org,2002:".toList ++ name.toList)

def isLocal (tag : Bytes) : Bool :=
  match tag with
  | first :: name => first = Tag.mark && (Utf8.decodeText? name).isSome
  | [] => false

/-- What a scalar means. A tag decides how it is read; a local tag is refused. A tag that begins like a
local one but is no text leaves a plain scalar as it is. -/
def scalar? (own : Option Bytes) (text : Text) (isPlain : Bool) : Option Document :=
  match own with
  | none => if isPlain then plain? text else some (.text text)
  | some own =>
    if isLocal own then none
    else if own = tag "bool" then (boolean? text).map .boolean
    else if own = tag "int" then (integer? text).bind ofInteger?
    else if own = tag "float" then (real? text).map ofReal
    else if own = tag "null" then if isNull text then some .null else none
    else if own.head? = some Tag.mark && isPlain then plain? text
    else some (.text text)

end Placeholder.Yaml.Core
