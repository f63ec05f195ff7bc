import Placeholder.Failure
import Placeholder.Table
import Placeholder.Text.Blank
import Placeholder.Text.Digits
/-!
The `.properties` format: one entry a line, `key=value`, `key: value` or `key value`. A line that
ends in an odd number of backslashes goes on in the next one, and a backslash also escapes single
characters. Lines that begin with `#` or `!` are comments. `read` gives the table that a file
writes, or the first line whose escapes are malformed.
-/
namespace Placeholder.PropertyFile

/-- The lines of a text. A line ends in a line feed, or in a carriage return and a line feed; what
follows the last line feed is a line if it is not empty. -/
def lines (text : Text) : List Text :=
  let pieces := text.cutAt '\n'
  let ended := pieces.dropLast.map fun line =>
    if line.getLast? = some '\r' then line.dropLast else line
  match pieces.getLast? with
  | some [] => ended
  | some last => ended ++ [last]
  | none => ended

def continues (line : Text) : Bool :=
  (line.reverse.takeWhile (· = '\\')).length % 2 = 1

def gather : Text → List Text → Text × List Text
  | line, [] => (if continues line then line.dropLast else line, [])
  | line, next :: rest =>
    if continues line then gather (line.dropLast ++ Text.trimStart next) rest
    else (line, next :: rest)

theorem gather_length (line : Text) (rest : List Text) :
    (gather line rest).2.length ≤ rest.length := by
  induction rest generalizing line with
  | nil => simp [gather]
  | cons next rest ih =>
    simp only [gather]
    split
    · exact Nat.le_succ_of_le (ih _)
    · exact Nat.le_refl _

/-- Whether a line, without the blanks at its front, holds no entry. -/
def isSkipped (line : Text) : Bool :=
  match line with
  | [] => true
  | c :: _ => c = '#' || c = '!'

/-- The entries of the lines, each with the number of the line where it begins; `number` is that of
the first line. -/
def entries (number : Nat) : List Text → List (Nat × Text)
  | [] => []
  | line :: rest =>
    if isSkipped (Text.trimStart line) then entries (number + 1) rest
    else
      (number, (gather (Text.trimStart line) rest).1) ::
        entries (number + 1 + (rest.length - (gather (Text.trimStart line) rest).2.length))
          (gather (Text.trimStart line) rest).2
termination_by lines => lines.length
decreasing_by
  · simp
  · exact Nat.lt_succ_of_le (gather_length _ _)

def isGap (c : Char) : Bool :=
  c = ' ' || c = '\t' || c = '\x0c'

/-- What a key ends before, unless a backslash stands in front. -/
def endsKey (c : Char) : Bool :=
  c = '=' || c = ':' || isGap c

def splitKey : Text → Text × Text
  | [] => ([], [])
  | ['\\'] => (['\\'], [])
  | '\\' :: c :: rest => ('\\' :: c :: (splitKey rest).1, (splitKey rest).2)
  | c :: rest => if endsKey c then ([], c :: rest) else (c :: (splitKey rest).1, (splitKey rest).2)

/-- The value of an entry as it is written, from what follows the key: blanks, at most one `=` or
`:`, and blanks again are dropped. -/
def valueAfter (text : Text) : Text :=
  match text.dropWhile isGap with
  | '=' :: rest => rest.dropWhile isGap
  | ':' :: rest => rest.dropWhile isGap
  | other => other

/-- The character that the four characters after `\u` name: hexadecimal digits, or a plus sign and
three of them. -/
def named? (digits : Text) : Option Char :=
  if digits.length = 4 then
    (Digits.signedNumber? 16 digits).bind fun n => if h : n.isValidChar then some (Char.ofNatAux n h) else none
  else none

def plainEscape (c : Char) : Char :=
  match c with
  | 't' => '\t'
  | 'n' => '\n'
  | 'r' => '\r'
  | 'f' => '\x0c'
  | other => other

/-- Takes the escapes away. A `\u` that names no character is answered with what follows it, up to
four characters. A lone backslash at the end is dropped. -/
def unescape : Text → Except Text Text
  | [] => .ok []
  | ['\\'] => .ok []
  | '\\' :: c :: rest =>
    if c = 'u' then
      match named? (rest.take 4) with
      | some named => (unescape (rest.drop 4)).map (named :: ·)
      | none => .error (rest.take 4)
    else (unescape rest).map (plainEscape c :: ·)
  | c :: rest => (unescape rest).map (c :: ·)
termination_by text => text.length
decreasing_by
  all_goals simp only [List.length_drop, List.length_cons]
  all_goals omega

def readEntry (entry : Text) : Except Text (Text × Text) := do
  let split := splitKey entry
  let key ← unescape split.1
  let value ← unescape (valueAfter split.2)
  return (key, value)

/-- Reads the entries in order into a table. -/
def readEntries (path : Text) (table : Table) : List (Nat × Text) → Except Failure Table
  | [] => .ok table
  | (line, entry) :: rest =>
    match readEntry entry with
    | .ok (key, value) => readEntries path (table.insert key value) rest
    | .error digits => .error (.malformedProperty path line digits)

/-- The table that a property file writes; of two entries for one key the later wins. -/
def read (path content : Text) : Except Failure Table :=
  readEntries path .empty (entries 1 (lines content))

end Placeholder.PropertyFile
