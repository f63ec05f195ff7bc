import Placeholder.Counting
import Placeholder.Table
/-!
Resolution of references between properties. A reference is a key in braces after a dollar sign; it
is looked up in the properties known so far, overlaid with the table at hand, and then in a fallback
table. A key without a value stays as it is written. A value that leads back to a key being expanded
is left exactly as it was written, and a warning names the path.
-/
namespace Placeholder

/-- A piece of a property's value. -/
inductive PropertyPiece where
  | literal (text : Text)
  | reference (key : Text)
deriving DecidableEq

namespace PropertyPiece

/-- What opens a reference. -/
def opening : Text := ['$', '\x7b']

/-- A reference as it is written. -/
def written (key : Text) : Text := opening ++ key ++ ['\x7d']

/-- The pieces of a value. A reference that is not closed is literal text, with all that follows. -/
def ofValue (value : Text) : List PropertyPiece :=
  match _hOpen : Text.breakOn opening value with
  | none => [.literal value]
  | some (before, after) =>
    match _hClose : Text.breakOn ['\x7d'] after with
    | none => [.literal before, .literal (opening ++ after)]
    | some (key, rest) => .literal before :: .reference key :: ofValue rest
termination_by value.length
decreasing_by
  have hOuter := congrArg List.length (Text.eq_append_of_breakOn _hOpen)
  have hInner := congrArg List.length (Text.eq_append_of_breakOn _hClose)
  simp only [List.length_append, List.length_cons, List.length_nil, opening] at hOuter hInner
  omega

end PropertyPiece

/-- The tables in which references are looked up, the first one first. -/
structure PropertyScope where
  known : Table
  fallback : Table
deriving DecidableEq

namespace PropertyScope

/-- The value of a key. -/
def get? (scope : PropertyScope) (key : Text) : Option Text :=
  (scope.known.get? key).or (scope.fallback.get? key)

/-- Every key that has a value. -/
def keys (scope : PropertyScope) : List Text :=
  scope.known.keys ++ scope.fallback.keys

theorem mem_keys_of_get? {scope : PropertyScope} {key value : Text}
    (h : scope.get? key = some value) : key ∈ scope.keys := by
  rcases Option.or_eq_some_iff.mp h with h | ⟨_, h⟩
  · exact List.mem_append_left _ (Table.mem_keys_of_get? h)
  · exact List.mem_append_right _ (Table.mem_keys_of_get? h)

/-- How many keys may still be put on the chain. -/
def room (scope : PropertyScope) (chain : List Text) : Nat :=
  (scope.keys.filter fun key => !chain.contains key).length

theorem room_append_lt {scope : PropertyScope} {chain : List Text} {key : Text}
    (hKey : key ∈ scope.keys) (hFresh : chain.contains key = false) :
    scope.room (chain ++ [key]) < scope.room chain := by
  refine Counting.length_filter_lt_of_imp (fun other _ hOther => ?_) hKey (by simp) (by simpa using hFresh)
  simp only [List.contains_eq_mem, Bool.not_eq_true', decide_eq_false_iff_not,
    List.mem_append] at hOther ⊢
  exact fun hIn => hOther (Or.inl hIn)

/-- The pieces put together with every reference expanded. The keys on the chain are being expanded;
a reference to one of them ends the expansion with the path that leads back to it. -/
def expand (scope : PropertyScope) (chain : List Text) :
    List PropertyPiece → Except (List Text) Text
  | [] => .ok []
  | .literal text :: rest => (scope.expand chain rest).map (text ++ ·)
  | .reference key :: rest =>
    if _hFresh : chain.contains key then .error (chain ++ [key])
    else
      match _hGet : scope.get? key with
      | none => (scope.expand chain rest).map (PropertyPiece.written key ++ ·)
      | some value =>
        if Text.occursIn PropertyPiece.opening value then
          match scope.expand (chain ++ [key]) (PropertyPiece.ofValue value) with
          | .error path => .error path
          | .ok expanded => (scope.expand chain rest).map (expanded ++ ·)
        else (scope.expand chain rest).map (value ++ ·)
termination_by pieces => (scope.room chain, pieces.length)
decreasing_by
  · exact .right _ (by simp)
  · exact .right _ (by simp)
  · exact .left _ _ (room_append_lt (mem_keys_of_get? _hGet) (by simpa using _hFresh))
  · exact .right _ (by simp)
  · exact .right _ (by simp)

/-- What becomes of the value of `key`: the value with its references expanded, or the path that
leads back to a key on it. -/
def settle (scope : PropertyScope) (key value : Text) : Except (List Text) Text :=
  if Text.occursIn PropertyPiece.opening value then
    scope.expand [key] (PropertyPiece.ofValue value)
  else .ok value

end PropertyScope

/-- A value that was left as written, and the path that leads back to one of its own keys. -/
structure CircularWarning where
  key : Text
  path : List Text
deriving DecidableEq

/-- The warning in one line. -/
def CircularWarning.message (warning : CircularWarning) : String :=
  "circular reference between properties detected: " ++
    String.ofList (Text.join " -> ".toList warning.path)

/-- The properties known so far, and the fallback table. -/
structure PropertyResolver where
  known : Table
  fallback : Table
deriving DecidableEq

namespace PropertyResolver

/-- Where the references of `table` are looked up. -/
def scope (r : PropertyResolver) (table : Table) : PropertyScope :=
  ⟨r.known.overlay table, r.fallback⟩

/-- The table with every value resolved that can be. -/
def resolved (r : PropertyResolver) (table : Table) : Table :=
  table.mapValues fun key value =>
    match (r.scope table).settle key value with
    | .ok expanded => expanded
    | .error _ => value

/-- The warnings about the values that cannot be resolved, in the order of their keys. -/
def warnings (r : PropertyResolver) (table : Table) : List CircularWarning :=
  table.entries.filterMap fun entry =>
    match (r.scope table).settle entry.1 entry.2 with
    | .ok _ => none
    | .error path => some ⟨entry.1, path⟩

/-- The resolver that knows the resolved table too. -/
def learn (r : PropertyResolver) (table : Table) : PropertyResolver :=
  { r with known := r.known.overlay (r.resolved table) }

end PropertyResolver

end Placeholder
