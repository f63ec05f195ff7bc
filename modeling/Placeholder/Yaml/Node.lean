import Placeholder.Yaml.Token
/-!
The nodes of a YAML document, as its tokens spell them. `Node.ofTokens?` reads the one document that a
text holds; a second one is refused.
-/
namespace Placeholder.Yaml

/-- What may stand before the content of a node. -/
structure Properties (α : Type) where
  anchor : Option α
  tag : Option Bytes
deriving DecidableEq

/-- A node of a document. Anchors are told apart by an `α`: by their names as they are written, or by
numbers. -/
inductive Node (α : Type) where
  | alias (anchor : α)
  | scalar (properties : Properties α) (text : Text) (isPlain : Bool)
  | sequence (properties : Properties α) (items : List (Node α))
  | mapping (properties : Properties α) (entries : List (Node α × Node α))

namespace Node

/-- A node that is not written out. -/
def empty (properties : Properties Text) : Node Text := scalar properties [] true

def noProperties : Properties Text := ⟨none, none⟩

/-- A node without properties that is not written out. -/
def absent : Node Text := empty noProperties

/-- The properties at the front of the tokens: an anchor and a tag, each at most once. -/
def properties? (handles : List (Text × Bytes)) :
    List Token → Option (Properties Text × List Token)
  | .anchor name :: .tag tag :: rest => do
    return (⟨some name, ← tag.resolve? handles⟩, rest)
  | .tag tag :: .anchor name :: rest => do
    return (⟨some name, ← tag.resolve? handles⟩, rest)
  | .anchor name :: rest => some (⟨some name, none⟩, rest)
  | .tag tag :: rest => do return (⟨none, ← tag.resolve? handles⟩, rest)
  | rest => some (noProperties, rest)

def endsLooseEntry : List Token → Bool
  | .entry :: _ | .key :: _ | .value :: _ | .blockEnd :: _ => true
  | _ => false

def endsEntry : List Token → Bool
  | .entry :: _ | .blockEnd :: _ => true
  | _ => false

def endsMember : List Token → Bool
  | .key :: _ | .value :: _ | .blockEnd :: _ => true
  | _ => false

/-- Whether a key of a flow collection, closed by `close`, is left empty before these tokens. -/
def endsFlowKey (close : Token) : List Token → Bool
  | .value :: _ | .comma :: _ => true
  | token :: _ => token = close
  | [] => false

/-- Whether a value of a flow collection, closed by `close`, is left empty before these tokens. -/
def endsFlowValue (close : Token) : List Token → Bool
  | .comma :: _ => true
  | token :: _ => token = close
  | [] => false

def afterComma? : List Token → Option (List Token)
  | .comma :: rest => some rest
  | _ => none

def unwritten (own : Properties Text) (tokens : List Token) : Option (Node Text × List Token) :=
  if own = noProperties then none else some (empty own, tokens)

mutual

/-- The node at the front of the tokens. Block collections are allowed if `inBlock`, and sequences
without an indentation of their own if `isLoose`. Each call has one step less. -/
def node (handles : List (Text × Bytes)) (inBlock isLoose : Bool) :
    Nat → List Token → Option (Node Text × List Token)
  | 0, _ => none
  | _ + 1, .alias name :: rest => some (.alias name, rest)
  | n + 1, tokens =>
    match properties? handles tokens with
    | none => none
    | some (own, tokens) =>
      match tokens with
      | .scalar text isPlain :: rest => some (.scalar own text isPlain, rest)
      | .openBracket :: rest => flowItems handles n own true [] rest
      | .openBrace :: rest => flowEntries handles n own true [] rest
      | .sequenceStart :: rest =>
        if inBlock then items handles n own [] rest else unwritten own tokens
      | .mappingStart :: rest =>
        if inBlock then entries handles n own [] rest else unwritten own tokens
      | .entry :: _ =>
        if isLoose then looseItems handles n own [] tokens else unwritten own tokens
      | _ => unwritten own tokens

/-- The items of a block sequence, after those in `seen`, the latest first. -/
def items (handles : List (Text × Bytes)) :
    Nat → Properties Text → List (Node Text) → List Token → Option (Node Text × List Token)
  | 0, _, _, _ => none
  | _ + 1, own, seen, .blockEnd :: rest => some (.sequence own seen.reverse, rest)
  | n + 1, own, seen, .entry :: rest =>
    if endsEntry rest then items handles n own (absent :: seen) rest
    else
      match node handles true false n rest with
      | some (item, rest) => items handles n own (item :: seen) rest
      | none => none
  | _ + 1, _, _, _ => none

/-- The items of a sequence without an indentation of its own. -/
def looseItems (handles : List (Text × Bytes)) :
    Nat → Properties Text → List (Node Text) → List Token → Option (Node Text × List Token)
  | 0, _, _, _ => none
  | n + 1, own, seen, .entry :: rest =>
    if endsLooseEntry rest then looseItems handles n own (absent :: seen) rest
    else
      match node handles true false n rest with
      | some (item, rest) => looseItems handles n own (item :: seen) rest
      | none => none
  | _ + 1, own, seen, rest => some (.sequence own seen.reverse, rest)

def entries (handles : List (Text × Bytes)) :
    Nat → Properties Text → List (Node Text × Node Text) → List Token →
      Option (Node Text × List Token)
  | 0, _, _, _ => none
  | _ + 1, own, seen, .blockEnd :: rest => some (.mapping own seen.reverse, rest)
  | n + 1, own, seen, .key :: rest =>
    match member handles n rest with
    | none => none
    | some (key, .value :: rest) =>
      match member handles n rest with
      | none => none
      | some (value, rest) => entries handles n own ((key, value) :: seen) rest
    | some (key, rest) => entries handles n own ((key, absent) :: seen) rest
  | _ + 1, _, _, _ => none

def member (handles : List (Text × Bytes)) : Nat → List Token → Option (Node Text × List Token)
  | 0, _ => none
  | n + 1, tokens => if endsMember tokens then some (absent, tokens) else node handles true true n tokens

/-- The items of a flow sequence; `isFirst` says that none was read. A key makes a mapping of one
entry. -/
def flowItems (handles : List (Text × Bytes)) :
    Nat → Properties Text → Bool → List (Node Text) → List Token → Option (Node Text × List Token)
  | 0, _, _, _, _ => none
  | n + 1, own, isFirst, seen, tokens =>
    match tokens with
    | .closeBracket :: rest => some (.sequence own seen.reverse, rest)
    | _ =>
      match (if isFirst then some tokens else afterComma? tokens) with
      | none => none
      | some (.closeBracket :: rest) => some (.sequence own seen.reverse, rest)
      | some (.key :: rest) =>
        match flowPair handles n rest with
        | some (pair, rest) => flowItems handles n own false (.mapping noProperties [pair] :: seen) rest
        | none => none
      | some tokens =>
        match node handles false false n tokens with
        | some (item, rest) => flowItems handles n own false (item :: seen) rest
        | none => none

/-- The one entry of a mapping in a flow sequence, after the sign of its key. If the key is empty, the
token after it is skipped. -/
def flowPair (handles : List (Text × Bytes)) :
    Nat → List Token → Option ((Node Text × Node Text) × List Token)
  | 0, _ => none
  | n + 1, tokens =>
    match (if endsFlowKey .closeBracket tokens then some (absent, tokens.drop 1)
      else node handles false false n tokens) with
    | none => none
    | some (key, .value :: rest) =>
      if endsFlowValue .closeBracket rest then some ((key, absent), rest)
      else
        match node handles false false n rest with
        | some (value, rest) => some ((key, value), rest)
        | none => none
    | some (key, rest) => some ((key, absent), rest)

/-- The entries of a flow mapping; `isFirst` says that none was read. -/
def flowEntries (handles : List (Text × Bytes)) :
    Nat → Properties Text → Bool → List (Node Text × Node Text) → List Token →
      Option (Node Text × List Token)
  | 0, _, _, _, _ => none
  | n + 1, own, isFirst, seen, tokens =>
    match tokens with
    | .closeBrace :: rest => some (.mapping own seen.reverse, rest)
    | _ =>
      match (if isFirst then some tokens else afterComma? tokens) with
      | none => none
      | some (.closeBrace :: rest) => some (.mapping own seen.reverse, rest)
      | some (.key :: rest) =>
        match (if endsFlowKey .closeBrace rest then some (absent, rest)
          else node handles false false n rest) with
        | none => none
        | some (key, .value :: rest) =>
          if endsFlowValue .closeBrace rest then
            flowEntries handles n own false ((key, absent) :: seen) rest
          else
            match node handles false false n rest with
            | some (value, rest) => flowEntries handles n own false ((key, value) :: seen) rest
            | none => none
        | some (key, rest) => flowEntries handles n own false ((key, absent) :: seen) rest
      | some tokens =>
        match node handles false false n tokens with
        | some (key, rest) => flowEntries handles n own false ((key, absent) :: seen) rest
        | none => none

end

/-- The directives at the front of the tokens: the handles that they define, and whether there are
any. One version of the format may be named, and each handle be defined once. -/
def directives? (isNamed : Bool) (handles : List (Text × Bytes)) :
    List Token → Option (List (Text × Bytes) × List Token)
  | .directive (.version major minor) :: rest =>
    if isNamed || major != 1 || (minor != 1 && minor != 2) then none
    else directives? true handles rest
  | .directive (.shorthand handle meaning) :: rest =>
    if (handles.lookup handle).isSome then none
    else directives? isNamed (handles ++ [(handle, meaning)]) rest
  | rest => some (handles, rest)

/-- Whether the document that an explicit mark begins is left empty before these tokens. -/
def endsDocument : List Token → Bool
  | [] => true
  | .directive _ :: _ | .documentStart :: _ | .documentEnd :: _ => true
  | _ => false

def document? (tokens : List Token) : Option (Node Text × List Token) := do
  let (handles, rest) ← directives? false [] tokens
  let fuel := 2 * tokens.length + 2
  match rest with
  | .documentStart :: rest =>
    if endsDocument rest then some (absent, rest) else node handles true false fuel rest
  | rest =>
    match tokens with
    | .directive _ :: _ => none
    | _ => node handles true false fuel rest

def afterDocument : List Token → List Token
  | .documentEnd :: rest => afterDocument rest
  | rest => rest

/-- The node of the one document that the tokens spell; an empty one if there is no token. -/
def ofTokens? (tokens : List Token) : Option (Node Text) := do
  if tokens.isEmpty then some absent
  else
    let (root, rest) ← document? tokens
    if (afterDocument rest).isEmpty then some root else none

end Node

end Placeholder.Yaml
