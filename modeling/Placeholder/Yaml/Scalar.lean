import Placeholder.Text.Digits
import Placeholder.Yaml.Cursor
/-!
The scalars of YAML: plain words, quoted texts, and block texts that a bar or an angle introduces.
Each function takes the cursor at the start of a scalar and answers its text and the cursor after it.
-/
namespace Placeholder.Yaml.Scalar

def isFlowSign (c : Char) : Bool :=
  c = ',' || c = '[' || c = ']' || c = '\x7b' || c = '\x7d'

/-- The word at the front of a text, up to a gap or to what ends a plain scalar. In a flow collection
a colon must not touch a sign of the collection. -/
def plainWord (inFlow : Bool) : Text → Option Text
  | [] => some []
  | c :: rest =>
    if isBlank c || isBreak c then some []
    else if c = ':' && inFlow && rest.head?.any (fun next => isFlowSign next || next = '?') then none
    else if c = ':' && isGapAhead rest then some []
    else if inFlow && isFlowSign c then some []
    else (plainWord inFlow rest).map (c :: ·)

/-- Continues a plain scalar. `seen` is its text so far and `gap` what came after it; the answer also
says whether a line break ended the scalar. Each step uses up a character. -/
def plainFrom (indent : Nat) (inFlow : Bool) :
    Nat → Text → Gap → Cursor → Option (Text × Bool × Cursor)
  | 0, _, _, _ => none
  | n + 1, seen, gap, c =>
    if c.isAtDocumentMark || c.rest.head? = some '#' then some (seen, !gap.breaks.isEmpty, c)
    else
      match plainWord inFlow c.rest with
      | none => none
      | some word =>
        let (seen, gap, c) :=
          if word.isEmpty then (seen, gap, c)
          else (seen ++ gap.text ++ word, Gap.none, c.forward word.length)
        if c.rest.isEmpty || !isGapAhead c.rest then some (seen, !gap.breaks.isEmpty, c)
        else
          let (gap, c) := Gap.read indent Gap.none c
          if gap.tabbed then none
          else if !inFlow && c.column < indent then some (seen, !gap.breaks.isEmpty, c)
          else plainFrom indent inFlow n seen gap c

def plain (indent : Nat) (inFlow : Bool) (c : Cursor) : Option (Text × Bool × Cursor) :=
  plainFrom indent inFlow (c.rest.length + 1) [] .none c

/-- The character with the code that the next `count` hexadecimal digits write. -/
def coded (count : Nat) (c : Cursor) : Option (Char × Cursor) := do
  let digits := c.rest.take count
  if digits.length < count then none
  else
    let code ← Digits.number? 16 digits
    if h : code.isValidChar then some (Char.ofNatAux code h, c.forward count) else none

def escape (c : Cursor) : Option (Char × Cursor) :=
  let next := c.forward 1
  match c.rest with
  | '0' :: _ => some ('\x00', next)
  | 'a' :: _ => some ('\x07', next)
  | 'b' :: _ => some ('\x08', next)
  | 't' :: _ => some ('\t', next)
  | '\t' :: _ => some ('\t', next)
  | 'n' :: _ => some ('\n', next)
  | 'v' :: _ => some ('\x0b', next)
  | 'f' :: _ => some ('\x0c', next)
  | 'r' :: _ => some ('\r', next)
  | 'e' :: _ => some ('\x1b', next)
  | ' ' :: _ => some (' ', next)
  | '"' :: _ => some ('"', next)
  | '/' :: _ => some ('/', next)
  | '\\' :: _ => some ('\\', next)
  | 'N' :: _ => some ('\x85', next)
  | '_' :: _ => some ('\xa0', next)
  | 'L' :: _ => some ('\u2028', next)
  | 'P' :: _ => some ('\u2029', next)
  | 'x' :: _ => coded 2 next
  | 'u' :: _ => coded 4 next
  | 'U' :: _ => coded 8 next
  | _ => none

/-- The word at a cursor, up to a gap, the closing quote or a hidden line break, after the characters
in `seen`, the latest first. The answer says whether a line break was hidden. -/
def quotedWord (quote : Char) : Nat → Text → Cursor → Option (Text × Bool × Cursor)
  | 0, _, _ => none
  | n + 1, seen, c =>
    match c.rest with
    | [] => some (seen.reverse, false, c)
    | ch :: rest =>
      if isBlank ch || isBreak ch then some (seen.reverse, false, c)
      else if ch = quote then
        if quote = '\'' && rest.head? = some '\'' then quotedWord quote n ('\'' :: seen) (c.forward 2)
        else some (seen.reverse, false, c)
      else if ch = '\\' && quote = '"' then
        if rest.head?.any isBreak then some (seen.reverse, true, (c.forward 1).nextLine)
        else
          match escape (c.forward 1) with
          | none => none
          | some (escaped, c) => quotedWord quote n (escaped :: seen) c
      else quotedWord quote n (ch :: seen) (c.forward 1)

/-- Continues a quoted text after `seen`. Each step uses up a character. -/
def quotedFrom (quote : Char) : Nat → Text → Cursor → Option (Text × Cursor)
  | 0, _, _ => none
  | n + 1, seen, c =>
    if c.isAtDocumentMark || c.rest.isEmpty then none
    else
      match quotedWord quote (c.rest.length + 1) [] c with
      | none => none
      | some (word, isHidden, c) =>
        if c.rest.head? = some quote then some (seen ++ word, c.forward 1)
        else
          let (gap, c) := Gap.read 0 (if isHidden then .hidden else .none) c
          quotedFrom quote n (seen ++ word ++ gap.text) c

def quoted (quote : Char) (c : Cursor) : Option (Text × Cursor) :=
  quotedFrom quote (c.rest.length + 1) [] (c.forward 1)

/-- Steps over empty lines and the indentation of the line after them. `indent` is zero while it is
not known. The answer holds the widest indentation, the line breaks and the cursor; a tab within the
indentation is refused. -/
def emptyLines (indent : Nat) : Nat → Nat → Text → Cursor → Option (Nat × Text × Cursor)
  | 0, _, _, _ => none
  | n + 1, widest, breaks, c =>
    let spaces := (c.rest.takeWhile (· = ' ')).length
    let c := c.forward (if indent = 0 then spaces else min spaces (indent - c.column))
    let widest := max widest c.column
    match c.rest with
    | [] => some (widest, breaks, c)
    | ch :: _ =>
      if ch = '\t' && (indent = 0 || c.column < indent) then none
      else if isBreak ch then emptyLines indent n widest (breaks ++ breakText ch) c.nextLine
      else some (widest, breaks, c)

/-- What a block text keeps of the line breaks at its end. -/
inductive Chomping where
  | strip
  | clip
  | keep
deriving DecidableEq

/-- A block text so far. -/
structure Block where
  text : Text
  /-- The break that ends the last line. -/
  ending : Text
  /-- The breaks of the empty lines after it. -/
  empty : Text
  /-- Whether the last line began with a blank. -/
  blank : Bool

/-- What stands between the last line and the next one, which begins with a blank or not. A folded
text turns a single line feed between lines into a space. -/
def Block.joint (block : Block) (folded blank : Bool) : Text :=
  if folded && block.ending.head? = some '\n' && !block.blank && !blank then
    (if block.empty.isEmpty then [' '] else []) ++ block.empty
  else block.ending ++ block.empty

/-- The lines of a block text that are indented by `indent`. Each step uses up a line. -/
def blockLines (folded : Bool) (indent : Nat) : Nat → Block → Cursor → Option (Block × Cursor)
  | 0, _, _ => none
  | n + 1, block, c =>
    match c.rest with
    | [] => some (block, c)
    | ch :: _ =>
      if c.column != indent then some (block, c)
      else
        let blank := isBlank ch
        let (line, c) := c.takeWhile fun ch => !isBreak ch
        let ending := (c.rest.head?.map breakText).getD []
        match emptyLines indent (c.rest.length + 1) 0 [] c.nextLine with
        | none => none
        | some (_, empty, c) =>
          blockLines folded indent n
            ⟨block.text ++ block.joint folded blank ++ line, ending, empty, blank⟩ c

def chomping? (c : Char) : Option Chomping :=
  if c = '+' then some .keep else if c = '-' then some .strip else none

def increment? (c : Char) : Option Nat :=
  if '1' ≤ c ∧ c ≤ '9' then some (c.toNat - '0'.toNat) else none

/-- What follows the sign of a block text: a chomping and an increment of the indentation, in either
order. -/
def blockHeader (c : Cursor) : Chomping × Nat × Cursor :=
  match c.rest.head?.bind chomping? with
  | some chomping =>
    let c := c.forward 1
    match c.rest.head?.bind increment? with
    | some increment => (chomping, increment, c.forward 1)
    | none => (chomping, 0, c)
  | none =>
    match c.rest.head?.bind increment? with
    | some increment =>
      let c := c.forward 1
      match c.rest.head?.bind chomping? with
      | some chomping => (chomping, increment, c.forward 1)
      | none => (.clip, increment, c)
    | none => (.clip, 0, c)

/-- A block text. `parent` is the indentation of what it stands in, raised by one so that it is zero
where there is none. -/
def block (folded : Bool) (parent : Nat) (c : Cursor) : Option (Text × Cursor) := do
  let (chomping, increment, c) := blockHeader (c.forward 1)
  let c ← c.endLine?
  let asked := if increment = 0 then 0 else (parent - 1) + increment
  let (widest, breaks, c) ← emptyLines asked (c.rest.length + 1) 0 [] c
  let indent := if asked = 0 then max widest (max parent 1) else asked
  let (block, c) ← blockLines folded indent (c.rest.length + 1) ⟨[], [], breaks, false⟩ c
  return (block.text ++
    (match chomping with
      | .strip => []
      | .clip => block.ending
      | .keep => block.ending ++ block.empty), c)

end Placeholder.Yaml.Scalar
