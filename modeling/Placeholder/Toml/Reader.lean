import Placeholder.Toml.Scalar
import Placeholder.Toml.Tree
/-!
Reading TOML. A document is a sequence of lines, each of them empty, a header or an assignment, and
each possibly with a comment. `TomlFile.read?` gives the table that a text writes.
-/
namespace Placeholder.TomlFile

open Toml.Scalar

def afterComment? (text : Text) : Option Text :=
  let content := text.takeWhile fun c => !isControl c
  match text.drop content.length with
  | [] => some []
  | rest => (afterBreak? rest).map fun _ => rest

/-- What follows the blanks, comments and line breaks at the front. Each step uses up a character. -/
def skipVoid : Nat → Text → Option Text
  | 0, _ => none
  | n + 1, text =>
    match text.dropWhile isGap with
    | '#' :: rest => (afterComment? rest).bind (skipVoid n)
    | rest =>
      match afterBreak? rest with
      | some rest => skipVoid n rest
      | none => some rest

def afterVoid? (text : Text) : Option Text :=
  skipVoid (text.length + 1) text

/-- The text after the end of a line: blanks, perhaps a comment, and a line break or the end. -/
def afterLine? (text : Text) : Option Text := do
  let rest ← match text.dropWhile isGap with
    | '#' :: rest => afterComment? rest
    | rest => some rest
  if rest.isEmpty then some [] else afterBreak? rest

/-- A character of a key without quotes. -/
def isKeyChar (c : Char) : Bool :=
  c.isAlphanum || c = '_' || c = '-'

def simpleKey : Text → Option (Text × Text)
  | '"' :: '"' :: '"' :: _ => none
  | '\'' :: '\'' :: '\'' :: _ => none
  | '"' :: rest => basic (rest.length + 1) [] rest
  | '\'' :: rest => literal rest
  | text =>
    let key := text.takeWhile isKeyChar
    if key.isEmpty then none else some (key, text.drop key.length)

/-- The dotted key at the front of a text, after the parts in `seen`, the latest first: the path to
a table, and the key in it. The number says how many more parts it may have. -/
def dottedKey : Nat → List Text → Text → Option (List Text × Text × Text)
  | 0, _, _ => none
  | n + 1, seen, text => do
    let (key, rest) ← simpleKey (text.dropWhile isGap)
    match rest.dropWhile isGap with
    | '.' :: rest => dottedKey n (key :: seen) rest
    | rest => return (seen.reverse, key, rest)

def deepest : Nat := 80

def key (text : Text) : Option (List Text × Text × Text) :=
  dottedKey deepest [] text

/-- The key of a member of an inline table, and the text where its value begins. Line breaks may stand
around the sign between them. -/
def assignment (text : Text) : Option (List Text × Text × Text) := do
  let (path, name, rest) ← key text
  match ← afterVoid? rest with
  | '=' :: rest => return (path, name, ← afterVoid? rest)
  | _ => none

mutual

/-- The value at the front of a text. Each call has one step less, and `depth` says how many more
lists and tables may be opened. -/
def value : Nat → Nat → Text → Option (Toml.Written × Text)
  | 0, _, _ => none
  | n + 1, depth, text =>
    match text with
    | '"' :: '"' :: '"' :: rest =>
      (openedLines true '"' rest).map fun (text, rest) => (.text text, rest)
    | '\'' :: '\'' :: '\'' :: rest =>
      (openedLines false '\'' rest).map fun (text, rest) => (.text text, rest)
    | '"' :: rest => (basic (rest.length + 1) [] rest).map fun (text, rest) => (.text text, rest)
    | '\'' :: rest => (literal rest).map fun (text, rest) => (.text text, rest)
    | '[' :: rest =>
      match depth with
      | 0 => none
      | depth + 1 => (items n depth [] rest).map fun (all, rest) => (.list all, rest)
    | '\x7b' :: rest =>
      match depth with
      | 0 => none
      | depth + 1 => (members n depth .empty rest).map fun (table, rest) => (table.finish, rest)
    | text => word text

/-- The items of a list up to its bracket, after those in `seen`, the latest first. -/
def items : Nat → Nat → List Toml.Written → Text → Option (List Toml.Written × Text)
  | 0, _, _, _ => none
  | n + 1, depth, seen, text =>
    match afterVoid? text with
    | none => none
    | some (']' :: rest) => some (seen.reverse, rest)
    | some text =>
      match value n depth text with
      | none => none
      | some (item, rest) =>
        match afterVoid? rest with
        | some (',' :: rest) => items n depth (item :: seen) rest
        | some (']' :: rest) => some ((item :: seen).reverse, rest)
        | _ => none

def members : Nat → Nat → Toml.Node → Text → Option (Toml.Node × Text)
  | 0, _, _, _ => none
  | n + 1, depth, table, text =>
    match afterVoid? text with
    | none => none
    | some ('\x7d' :: rest) => some (table, rest)
    | some text =>
      match assignment text with
      | none => none
      | some (path, name, rest) =>
        match value n depth rest with
        | none => none
        | some (content, rest) =>
          match table.assign path name content, afterVoid? rest with
          | some table, some (',' :: rest) => members n depth table rest
          | some table, some ('\x7d' :: rest) => some (table, rest)
          | _, _ => none

end

def header (closing text : Text) : Option (List Text × Text × Text) := do
  let (path, name, rest) ← key text
  let rest ← closing.isPrefixOf? rest
  return (path, name, ← afterLine? rest)

def statement (text : Text) : Option (Toml.Statement × Text) :=
  match text with
  | '[' :: '[' :: rest =>
    (header [']', ']'] rest).map fun (path, name, rest) => (.openItem path name, rest)
  | '[' :: rest =>
    (header [']'] rest).map fun (path, name, rest) => (.openTable path name, rest)
  | text => do
    let (path, name, rest) ← key text
    match rest with
    | '=' :: rest =>
      let (content, rest) ← value (2 * rest.length + 2) deepest (rest.dropWhile isGap)
      return (.assign path name content, ← afterLine? rest)
    | _ => none

def statements : Nat → Toml.Draft → Text → Option Toml.Draft
  | 0, _, _ => none
  | n + 1, draft, text =>
    match afterVoid? text with
    | none => none
    | some [] => some draft
    | some text =>
      match statement text with
      | none => none
      | some (next, rest) => (draft.add next).bind fun draft => statements n draft rest

/-- The table that a TOML text writes. A byte order mark at its front does not count. -/
def read? (text : Text) : Option Toml.Written :=
  let content := if text.head? = some '\ufeff' then text.drop 1 else text
  (statements (content.length + 1) .empty content).map fun draft => draft.root.finish

end Placeholder.TomlFile
