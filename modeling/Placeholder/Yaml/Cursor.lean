import Placeholder.Text.Utf8
/-!
A cursor in a YAML text. Columns decide what belongs together, so the cursor counts lines and columns
on its way; a carriage return with a line feed is one line break.
-/
namespace Placeholder.Yaml

def isBlank (c : Char) : Bool :=
  c = ' ' || c = '\t'

def isBreak (c : Char) : Bool :=
  c = '\n' || c = '\r' || c = '\x85' || c = '\u2028' || c = '\u2029'

/-- How a line break reads: the separators of lines and paragraphs stay, all others are line feeds. -/
def breakText (c : Char) : Text :=
  if c = '\u2028' || c = '\u2029' then [c] else ['\n']

/-- Whether a blank, a line break or the end comes first. -/
def isGapAhead : Text → Bool
  | [] => true
  | c :: _ => isBlank c || isBreak c

def isNameChar (c : Char) : Bool :=
  c.isAlphanum || c = '_' || c = '-'

/-- What is still to be read, and where that starts. -/
structure Cursor where
  rest : Text
  /-- How many bytes of UTF-8 come before it. -/
  index : Nat
  line : Nat
  /-- How many characters of its line come before it. -/
  column : Nat

namespace Cursor

def ofText (text : Text) : Cursor := ⟨text, 0, 0, 0⟩

def forward (c : Cursor) (count : Nat) : Cursor :=
  ⟨c.rest.drop count, c.index + Utf8.size (c.rest.take count), c.line, c.column + count⟩

def nextLine (c : Cursor) : Cursor :=
  match c.rest with
  | '\r' :: '\n' :: rest => ⟨rest, c.index + 2, c.line + 1, 0⟩
  | ch :: rest => ⟨rest, c.index + ch.utf8Size, c.line + 1, 0⟩
  | [] => c

/-- The characters in front that satisfy `p`, none of them a line break, and the cursor after them. -/
def takeWhile (c : Cursor) (p : Char → Bool) : Text × Cursor :=
  let taken := c.rest.takeWhile p
  (taken, c.forward taken.length)

/-- Steps over the characters in front that satisfy `p`, none of them a line break. -/
def skipWhile (c : Cursor) (p : Char → Bool) : Cursor :=
  (c.takeWhile p).2

def skipComment (c : Cursor) : Cursor :=
  if c.rest.head? = some '#' then c.skipWhile fun ch => !isBreak ch else c

/-- Steps over the rest of a line on which only blanks and a comment may follow. -/
def endLine? (c : Cursor) : Option Cursor :=
  let after := (c.skipWhile isBlank).skipComment
  match after.rest with
  | [] => some after
  | ch :: _ => if isBreak ch then some after.nextLine else none

/-- Whether a line starts here with `mark`, alone or before a gap. -/
def isAtMark (c : Cursor) (mark : Text) : Bool :=
  c.column = 0 && (mark.isPrefixOf? c.rest).any isGapAhead

def isAtDocumentMark (c : Cursor) : Bool :=
  c.isAtMark ['-', '-', '-'] || c.isAtMark ['.', '.', '.']

end Cursor

/-- What stands between two words of a text that may span lines: blanks in a line, or line breaks
(the blanks around which do not count). -/
structure Gap where
  blanks : Text
  breaks : List Text
  /-- Whether a tab stands where the indentation must be. -/
  tabbed : Bool

namespace Gap

def none : Gap := ⟨[], [], false⟩

def hidden : Gap := ⟨[], [[]], false⟩

/-- What the gap reads as: one line feed becomes a space, of more the first is dropped. -/
def text (gap : Gap) : Text :=
  match gap.breaks with
  | [] => gap.blanks
  | first :: others =>
    if first = ['\n'] then
      if others.isEmpty then [' '] else others.flatten
    else first ++ others.flatten

/-- Continues a gap as far as it goes. The text is indented by at least `indent`. Each step uses up a
character. -/
def extend (indent : Nat) : Nat → Gap → Cursor → Gap × Cursor
  | 0, gap, c => (gap, c)
  | n + 1, gap, c =>
    match c.rest with
    | [] => (gap, c)
    | ch :: _ =>
      if isBreak ch then
        extend indent n { gap with breaks := gap.breaks ++ [breakText ch] } c.nextLine
      else if isBlank ch then
        if gap.breaks.isEmpty then
          extend indent n { gap with blanks := gap.blanks ++ [ch] } (c.forward 1)
        else
          extend indent n { gap with tabbed := gap.tabbed || (ch = '\t' && c.column < indent) }
            (c.forward 1)
      else (gap, c)

def read (indent : Nat) (begun : Gap) (c : Cursor) : Gap × Cursor :=
  extend indent (c.rest.length + 1) begun c

end Gap

end Placeholder.Yaml
