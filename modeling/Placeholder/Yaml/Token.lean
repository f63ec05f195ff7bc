import Placeholder.Yaml.Scalar
import Placeholder.Yaml.Tag
/-!
The tokens of YAML. Indentation is made visible: a block sequence or mapping has a token where it
starts and one where it ends. A key is recognised only by the colon after it, so the place of a
possible key is remembered and its token put in later. `Token.ofText?` gives the tokens of a text.
-/
namespace Placeholder.Yaml

/-- A piece of a YAML text. -/
inductive Token where
  | directive (directive : Directive)
  | documentStart
  | documentEnd
  | sequenceStart
  | mappingStart
  | blockEnd
  | openBracket
  | closeBracket
  | openBrace
  | closeBrace
  | entry
  | comma
  | key
  | value
  | alias (name : Text)
  | anchor (name : Text)
  | tag (tag : Tag)
  /-- A scalar; `isPlain` if it is not quoted and no block text. -/
  | scalar (text : Text) (isPlain : Bool)
deriving DecidableEq

/-- Where a key may have begun. -/
structure PossibleKey where
  /-- Whether nothing but a key can stand there. -/
  isRequired : Bool
  /-- How many tokens come before it. -/
  place : Nat
  index : Nat
  line : Nat
  column : Nat

/-- A text that is being cut into tokens. -/
structure Scan where
  cursor : Cursor
  /-- The tokens so far, the latest first, and how many they are. -/
  tokens : List Token
  count : Nat
  /-- The possible key at each level of flow collections, the innermost first. The last one belongs
  to the text outside of them. -/
  keys : List (Option PossibleKey)
  /-- Whether a key may begin here. -/
  keyAllowed : Bool
  /-- The columns of the open block collections, the innermost first, each raised by one. -/
  indents : List Nat

namespace Scan

def ofText (text : Text) : Scan := ⟨.ofText text, [], 0, [none], true, []⟩

def inFlow (s : Scan) : Bool := 1 < s.keys.length

/-- The column of the innermost block collection, raised by one; zero if there is none. -/
def indent (s : Scan) : Nat := s.indents.head?.getD 0

def push (s : Scan) (token : Token) : Scan :=
  { s with tokens := token :: s.tokens, count := s.count + 1 }

/-- Adds a token so that `place` tokens stand before it. -/
def insert (s : Scan) (place : Nat) (token : Token) : Scan :=
  { s with
    tokens := s.tokens.take (s.count - place) ++ token :: s.tokens.drop (s.count - place)
    count := s.count + 1 }

/-- Adds a token of `width` characters and steps over them. -/
def take (s : Scan) (token : Token) (width : Nat) : Scan :=
  { s.push token with cursor := s.cursor.forward width }

/-- Whether a key that may have begun there can still be one: it stands on one line and is not long. -/
def isFresh (s : Scan) (key : PossibleKey) : Bool :=
  s.cursor.line ≤ key.line && s.cursor.index ≤ key.index + 1024

/-- A possible key while it is fresh; refused if it is not but had to be a key. -/
def refresh? (s : Scan) (key : Option PossibleKey) : Option (Option PossibleKey) :=
  match key with
  | none => some none
  | some key => if s.isFresh key then some (some key) else if key.isRequired then none else some none

/-- Gives up the possible key at this level, unless it had to be a key. -/
def dropKey (s : Scan) : Option Scan :=
  match s.keys with
  | some key :: others => if key.isRequired then none else some { s with keys := none :: others }
  | _ => some s

def saveKey (s : Scan) : Option Scan :=
  if s.keyAllowed then do
    let s ← s.dropKey
    let c := s.cursor
    let key : PossibleKey :=
      ⟨!s.inFlow && s.indent = c.column + 1, s.count, c.index, c.line, c.column⟩
    return { s with keys := some key :: s.keys.drop 1 }
  else some s

/-- Opens a block collection at a column, unless one is open there or further in. -/
def openBlock (s : Scan) (column place : Nat) (token : Token) : Scan :=
  if !s.inFlow && s.indent < column + 1 then
    { s with indents := (column + 1) :: s.indents }.insert place token
  else s

/-- Closes the block collections, at most `count` of them, that are further in than `limit`. -/
def closeBlocks (limit : Nat) : Nat → Scan → Scan
  | 0, s => s
  | n + 1, s =>
    match s.indents with
    | indent :: others =>
      if limit < indent then closeBlocks limit n ({ s with indents := others }.push .blockEnd) else s
    | [] => s

/-- Closes the block collections further in than the raised column `limit`. -/
def closeTo (s : Scan) (limit : Nat) : Scan :=
  if s.inFlow then s else closeBlocks limit s.indents.length s

/-- Steps over gaps and comments. A tab does not count as a blank where a block key may begin. Each
step uses up a character. -/
def skipVoid : Nat → Scan → Scan
  | 0, s => s
  | n + 1, s =>
    let c := s.cursor
    let c := if c.column = 0 && c.rest.head? = some '\ufeff' then c.forward 1 else c
    let c := c.skipWhile fun ch => ch = ' ' || ((s.inFlow || !s.keyAllowed) && ch = '\t')
    let c := c.skipComment
    if c.rest.head?.any isBreak then
      skipVoid n { s with cursor := c.nextLine, keyAllowed := s.keyAllowed || !s.inFlow }
    else { s with cursor := c }

def atMargin (s : Scan) : Option Scan := do
  let s ← (s.closeTo 0).dropKey
  return { s with keyAllowed := false }

def openFlow (s : Scan) (token : Token) : Option Scan := do
  let s ← s.saveKey
  return { s with keys := none :: s.keys, keyAllowed := true }.take token 1

def closeFlow (s : Scan) (token : Token) : Option Scan := do
  let s ← s.dropKey
  return { s with keys := if s.inFlow then s.keys.drop 1 else s.keys, keyAllowed := false }.take token 1

def entry (s : Scan) : Option Scan := do
  if !s.inFlow && !s.keyAllowed then none
  else
    let s ← (s.openBlock s.cursor.column s.count .sequenceStart).dropKey
    return { s with keyAllowed := true }.take .entry 1

def explicitKey (s : Scan) : Option Scan := do
  if !s.inFlow && !s.keyAllowed then none
  else
    let s ← (s.openBlock s.cursor.column s.count .mappingStart).dropKey
    return { s with keyAllowed := !s.inFlow }.take .key 1

def value (s : Scan) : Option Scan := do
  match ← s.refresh? (s.keys.head?.getD none) with
  | some key =>
    let s := (s.insert key.place .key).openBlock key.column key.place .mappingStart
    return { s with keys := none :: s.keys.drop 1, keyAllowed := false }.take .value 1
  | none =>
    if !s.inFlow && !s.keyAllowed then none
    else
      let s := s.openBlock s.cursor.column s.count .mappingStart
      return { s with keys := none :: s.keys.drop 1, keyAllowed := !s.inFlow }.take .value 1

def endsName (rest : Text) : Bool :=
  isGapAhead rest || rest.head?.any "?:,]\x7d%@`".toList.contains

def name (s : Scan) (token : Text → Token) : Option Scan := do
  let s ← s.saveKey
  let (name, c) := (s.cursor.forward 1).takeWhile isNameChar
  if name.isEmpty || !endsName c.rest then none
  else return { s.push (token name) with cursor := c, keyAllowed := false }

def tag (s : Scan) : Option Scan := do
  let s ← s.saveKey
  let (tag, c) ← Tag.read s.inFlow s.cursor
  return { s.push (.tag tag) with cursor := c, keyAllowed := false }

def block (s : Scan) (folded : Bool) : Option Scan := do
  let s ← s.dropKey
  let (text, c) ← Scalar.block folded s.indent s.cursor
  return { s.push (.scalar text false) with cursor := c, keyAllowed := true }

def quoted (s : Scan) (quote : Char) : Option Scan := do
  let s ← s.saveKey
  let (text, c) ← Scalar.quoted quote s.cursor
  return { s.push (.scalar text false) with cursor := c, keyAllowed := false }

def plain (s : Scan) : Option Scan := do
  let s ← s.saveKey
  let (text, broken, c) ← Scalar.plain s.indent s.inFlow s.cursor
  return { s.push (.scalar text true) with cursor := c, keyAllowed := broken }

/-- Whether a plain scalar can begin with `c`, which `rest` follows. Some signs can begin one only if
no gap follows them. -/
def beginsPlain (inFlow : Bool) (c : Char) (rest : Text) : Bool :=
  if c = '-' then !rest.head?.any isBlank
  else if c = '?' || c = ':' then !inFlow && !isGapAhead rest
  else !isBlank c && !"-?:,[]\x7b\x7d#&*!|>'\"%@`".toList.contains c

/-- The token at the cursor, where `c` comes first and `rest` after it. -/
def token (s : Scan) (c : Char) (rest : Text) : Option Scan :=
  if s.cursor.column = 0 && c = '%' then do
    let s ← s.atMargin
    let (directive, after) ← Directive.read s.cursor
    return { s.push (.directive directive) with cursor := after }
  else if s.cursor.isAtMark ['-', '-', '-'] then s.atMargin.map (·.take .documentStart 3)
  else if s.cursor.isAtMark ['.', '.', '.'] then s.atMargin.map (·.take .documentEnd 3)
  else if c = '[' then s.openFlow .openBracket
  else if c = '\x7b' then s.openFlow .openBrace
  else if c = ']' then s.closeFlow .closeBracket
  else if c = '\x7d' then s.closeFlow .closeBrace
  else if c = ',' then s.dropKey.map fun s => { s with keyAllowed := true }.take .comma 1
  else if c = '-' && isGapAhead rest then s.entry
  else if c = '?' && (s.inFlow || isGapAhead rest) then s.explicitKey
  else if c = ':' && (s.inFlow || isGapAhead rest) then s.value
  else if c = '*' then s.name .alias
  else if c = '&' then s.name .anchor
  else if c = '!' then s.tag
  else if c = '|' && !s.inFlow then s.block false
  else if c = '>' && !s.inFlow then s.block true
  else if c = '\'' || c = '"' then s.quoted c
  else if beginsPlain s.inFlow c rest then s.plain
  else none

def run : Nat → Scan → Option Scan
  | 0, _ => none
  | n + 1, s => do
    let keys ← s.keys.mapM s.refresh?
    let s := skipVoid (s.cursor.rest.length + 1) { s with keys := keys }
    let s := s.closeTo (s.cursor.column + 1)
    match s.cursor.rest with
    | [] => (s.closeTo 0).dropKey
    | c :: rest => run n (← s.token c rest)

end Scan

def Token.ofText? (text : Text) : Option (List Token) :=
  (Scan.run (text.length + 1) (.ofText text)).map fun s => s.tokens.reverse

end Placeholder.Yaml
