import Placeholder.Text.Digits
import Placeholder.Text.Utf8
import Placeholder.Yaml.Cursor
/-!
Tags as they are written, and the directives that give their handles a meaning. A tag is a handle and
a suffix; a tag between angle brackets has no handle and stands for itself. What a tag stands for is a
row of bytes, since percent escapes can write bytes that are no text; it ends before the first zero.
-/
namespace Placeholder.Yaml

/-- A tag as it is written. -/
structure Tag where
  handle : Text
  suffix : Bytes
deriving DecidableEq

/-- A line at the head of a document that says how to read it. -/
inductive Directive where
  | version (major minor : Nat)
  | shorthand (handle : Text) (meaning : Bytes)
deriving DecidableEq

namespace Tag

def mark : UInt8 := 0x21

/-- A character of a tag, always an ASCII one. Between angle brackets there may be commas and square
brackets too. -/
def isTagChar (inAngles : Bool) (c : Char) : Bool :=
  isNameChar c || ";/?:@&=+$.!~*'()".toList.contains c || (inAngles && ",[]".toList.contains c)

/-- The bytes of a row of `count` percent escapes. -/
def percentRow : Nat → Text → Option Bytes
  | 0, _ => some []
  | n + 1, text =>
    match text with
    | '%' :: a :: b :: rest => do
      let byte ← Digits.number? 16 [a, b]
      return UInt8.ofNat byte :: (← percentRow n rest)
    | _ => none

/-- How many escapes go together, by the leading ones in the first byte; zero if no row starts so. -/
def rowWidth (first : UInt8) : Nat :=
  let b := first.toNat
  if b < 0x80 then 1
  else if b < 0xC0 then 0
  else if b < 0xE0 then 2
  else if b < 0xF0 then 3
  else if b < 0xF8 then 4
  else 0

/-- The bytes that the percent escapes at the front write, as many as go together. They have the form
of one character, but need not be one. -/
def percentBytes (text : Text) : Option Bytes := do
  let first ← percentRow 1 text
  let width := first.head?.elim 0 rowWidth
  if width = 0 then none
  else
    let bytes ← percentRow width text
    if (bytes.drop 1).all fun byte => (Utf8.continuation? byte).isSome then some bytes else none

/-- The bytes of a tag at a cursor after those in `seen`, the latest first. -/
def uriFrom (inAngles : Bool) : Nat → Bytes → Cursor → Option (Bytes × Cursor)
  | 0, _, _ => none
  | n + 1, seen, c =>
    match c.rest with
    | [] => some (seen.reverse, c)
    | ch :: _ =>
      if ch = '%' then
        match percentBytes c.rest with
        | some bytes => uriFrom inAngles n (bytes.reverse ++ seen) (c.forward (3 * bytes.length))
        | none => none
      else if isTagChar inAngles ch then
        uriFrom inAngles n ((Utf8.encode ch).reverse ++ seen) (c.forward 1)
      else some (seen.reverse, c)

def uri (inAngles : Bool) (c : Cursor) : Option (Bytes × Cursor) :=
  uriFrom inAngles (c.rest.length + 1) [] c

/-- The bytes of a tag at a cursor; at least one character must stand there. -/
def someUri (inAngles : Bool) (c : Cursor) : Option (Bytes × Cursor) :=
  (uri inAngles c).filter fun (_, after) => after.index != c.index

/-- The bytes before the first zero. -/
def untilZero (bytes : Bytes) : Bytes :=
  bytes.takeWhile (· != 0)

def handleAt (c : Cursor) : Text × Cursor :=
  let (name, after) := (c.forward 1).takeWhile isNameChar
  if after.rest.head? = some '!' then ('!' :: name ++ ['!'], after.forward 1)
  else ('!' :: name, after)

def exact (c : Cursor) : Option (Tag × Cursor) := do
  let (suffix, c) ← someUri true (c.forward 2)
  if c.rest.head? != some '>' then none else some (⟨[], untilZero suffix⟩, c.forward 1)

/-- A tag with a handle or without. An exclamation mark alone stands for itself. -/
def short (c : Cursor) : Option (Tag × Cursor) := do
  let (handle, after) := handleAt c
  if 1 < handle.length && handle.getLast? = some '!' then
    let (suffix, rest) ← someUri false after
    return (⟨handle, untilZero suffix⟩, rest)
  else
    let (scanned, rest) ← uri false after
    let suffix := untilZero (Utf8.encodeText (handle.drop 1) ++ scanned)
    return (if suffix.isEmpty then ⟨[], [mark]⟩ else ⟨['!'], suffix⟩, rest)

def read (inFlow : Bool) (c : Cursor) : Option (Tag × Cursor) := do
  let (tag, c) ← match c.rest with
    | _ :: '<' :: _ => exact c
    | _ => short c
  if isGapAhead c.rest || (inFlow && c.rest.head? = some ',') then some (tag, c) else none

/-- The meanings of handles that need no directive. -/
def standardHandles : List (Text × Bytes) :=
  [(['!'], [mark]), (['!', '!'], Utf8.encodeText "tag:yaml.org,2002:".toList)]

def resolve? (handles : List (Text × Bytes)) (tag : Tag) : Option Bytes :=
  if tag.handle.isEmpty then some tag.suffix
  else ((handles ++ standardHandles).lookup tag.handle).map (· ++ tag.suffix)

end Tag

namespace Directive

/-- The number at a cursor, of at most nine digits. -/
def numberAt (c : Cursor) : Option (Nat × Cursor) := do
  let (digits, c) := c.takeWhile Char.isDigit
  if 9 < digits.length then none else return (← Digits.number? 10 digits, c)

def versionAt (c : Cursor) : Option (Directive × Cursor) := do
  let (major, c) ← numberAt (c.skipWhile isBlank)
  if c.rest.head? != some '.' then none
  else
    let (minor, c) ← numberAt (c.forward 1)
    return (.version major minor, c)

def handleAt (c : Cursor) : Option (Directive × Cursor) := do
  let c := c.skipWhile isBlank
  if c.rest.head? != some '!' then none
  else
    let (handle, c) := Tag.handleAt c
    if 1 < handle.length && handle.getLast? != some '!' then none
    else if !c.rest.head?.any isBlank then none
    else
      let (meaning, c) ← Tag.someUri true (c.skipWhile isBlank)
      if isGapAhead c.rest then some (.shorthand handle (Tag.untilZero meaning), c) else none

def read (c : Cursor) : Option (Directive × Cursor) := do
  let (name, c) := (c.forward 1).takeWhile isNameChar
  let (directive, c) ←
    if !isGapAhead c.rest then none
    else if name = "YAML".toList then versionAt c
    else if name = "TAG".toList then handleAt c
    else none
  return (directive, ← c.endLine?)

end Directive

end Placeholder.Yaml
