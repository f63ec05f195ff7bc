import Placeholder.Document.Binary64
import Placeholder.Members
import Placeholder.Text.Digits
import Placeholder.ValueSource
/-!
Documents: the values that JSON can write. A dotted path leads through objects by key and through
lists by place; `Document.get?` gives the text of what it leads to. Keys of an object stand in rising
order, each once.
-/
namespace Placeholder

/-- A number of a document: whole, or in double precision. -/
inductive Number where
  | whole (value : Int)
  | real (value : Binary64)
deriving DecidableEq, Repr

/-- A document. -/
inductive Document where
  | null
  | boolean (value : Bool)
  | number (value : Number)
  | text (value : Text)
  | list (items : List Document)
  | object (members : List (Text × Document))

/-- Real numbers are positional from `10^-5` up to below `10^16`; elsewhere the exponent has a sign,
and a whole number keeps `.0`. -/
def Number.layout : Binary64.Layout where
  lowest := -5
  beyond := 16
  wholeEnd := ['.', '0']
  exponentMark := ['e', '+']
  negativeMark := ['e', '-']

def Number.write : Number → Text
  | whole value => (toString value).toList
  | real value => Number.layout.write value

namespace Document

def hexDigit (n : Nat) : Char := Nat.digitChar n

/-- A character inside a quoted text. Quotes, backslashes and control characters are escaped. -/
def writeChar (c : Char) : Text :=
  match c with
  | '"' => ['\\', '"']
  | '\\' => ['\\', '\\']
  | '\x08' => ['\\', 'b']
  | '\x0c' => ['\\', 'f']
  | '\n' => ['\\', 'n']
  | '\r' => ['\\', 'r']
  | '\t' => ['\\', 't']
  | c =>
    if c.toNat < 0x20 then
      ['\\', 'u', '0', '0', hexDigit (c.toNat / 16), hexDigit (c.toNat % 16)]
    else [c]

def writeText (text : Text) : Text :=
  '"' :: text.flatMap writeChar ++ ['"']

mutual

def write : Document → Text
  | null => "null".toList
  | boolean true => "true".toList
  | boolean false => "false".toList
  | number value => value.write
  | text value => writeText value
  | list items => '[' :: writeItems items ++ [']']
  | object members => '\x7b' :: writeMembers members ++ ['\x7d']

def writeItems : List Document → Text
  | [] => []
  | [item] => item.write
  | item :: rest => item.write ++ ',' :: writeItems rest

def writeMembers : List (Text × Document) → Text
  | [] => []
  | [(key, value)] => writeText key ++ ':' :: value.write
  | (key, value) :: rest => writeText key ++ ':' :: value.write ++ ',' :: writeMembers rest

end

/-- The object with these members; a later one wins over an earlier one of the same key. -/
def ofMembers (members : List (Text × Document)) : Document :=
  object (Members.ofList members)

/-- The place that a path segment names in a list: decimal digits, with or without a plus sign. -/
def place? (segment : Text) : Option Nat :=
  Digits.signedNumber? 10 segment

def walk : Document → List Text → Option Document
  | document, [] => some document
  | document, segment :: rest =>
    match document with
    | object members => (members.lookup segment).bind fun next => walk next rest
    | list items => ((place? segment).bind fun n => items[n]?).bind fun next => walk next rest
    | _ => none

/-- The text of a document as a value: nothing for null, and a text stands for itself. -/
def value? : Document → Option Text
  | null => none
  | text value => some value
  | other => some other.write

def get? (document : Document) (path : Text) : Option Text :=
  (document.walk (path.cutAt '.')).bind value?

end Document

namespace ValueSource

def ofDocument (document : Document) : ValueSource :=
  ofAnswers document.get?

end ValueSource

end Placeholder
