import Placeholder.Failure
/-!
Delimiters and ordered sets of them. A delimiter is written `BEGIN*END`, or as one token that opens
and closes. Of a set, `longestMatch` picks the delimiter that a window starts with: the longest
opening token wins, and among equal ones the first declared.
-/
namespace Placeholder

/-- The tokens that open and close an expression. Neither is empty. -/
structure Delimiter where
  opening : Text
  closing : Text
  opening_ne_nil : opening ≠ []
  closing_ne_nil : closing ≠ []
deriving DecidableEq, Repr

namespace Delimiter

/-- Reads the written form. The first `*` separates the tokens; without one the token opens and
closes. -/
def parse (spec : Text) : Except Failure Delimiter :=
  if hSpec : spec = [] then .error .emptyDelimiter
  else
    match Text.breakOn ['*'] spec with
    | none => .ok ⟨spec, spec, hSpec, hSpec⟩
    | some (opening, closing) =>
      if hOpening : opening = [] then .error (.missingOpening spec)
      else if hClosing : closing = [] then .error (.missingClosing spec)
      else .ok ⟨opening, closing, hOpening, hClosing⟩

/-- Whether the same token opens and closes. -/
def isSymmetric (d : Delimiter) : Bool :=
  d.opening = d.closing

/-- The written form. -/
def display (d : Delimiter) : Text :=
  if d.isSymmetric then d.opening else d.opening ++ '*' :: d.closing

/-- `expression` between the two tokens. -/
def wrap (d : Delimiter) (expression : Text) : Text :=
  d.opening ++ expression ++ d.closing

/-- `$` and braces around the expression. -/
def dollarBrace : Delimiter :=
  ⟨['$', '\x7b'], ['\x7d'], by decide, by decide⟩

/-- `@` on both sides of the expression. -/
def atSign : Delimiter :=
  ⟨['@'], ['@'], by decide, by decide⟩

end Delimiter

/-- Delimiters in the order in which they were declared, each once. -/
structure DelimiterSet where
  members : List Delimiter
  nodup : members.Nodup
deriving DecidableEq

namespace DelimiterSet

/-- No delimiter at all: nothing is ever replaced. -/
def empty : DelimiterSet := ⟨[], .nil⟩

/-- Adds `d` at the end unless it is there already. -/
def insert (set : DelimiterSet) (d : Delimiter) : DelimiterSet :=
  if h : d ∈ set.members then set
  else ⟨set.members ++ [d], by
    refine List.nodup_append.mpr ⟨set.nodup, by simp, ?_⟩
    intro a ha b hb hab
    exact h (List.mem_singleton.mp hb ▸ hab ▸ ha)⟩

/-- The delimiters of a list, each at its first place. -/
def ofList (delimiters : List Delimiter) : DelimiterSet :=
  delimiters.foldl insert empty

/-- Reads every written form; the first that is wrong decides the failure. -/
def parse (specs : List Text) : Except Failure DelimiterSet :=
  (specs.mapM Delimiter.parse).map ofList

/-- `best`, or `d` if the window starts with it and it opens with more characters. -/
def better (window : Text) (best : Option Delimiter) (d : Delimiter) : Option Delimiter :=
  if d.opening.isPrefixOf window then
    match best with
    | none => some d
    | some current => if current.opening.length < d.opening.length then some d else best
  else best

/-- The delimiter that `window` starts with. -/
def longestMatch (set : DelimiterSet) (window : Text) : Option Delimiter :=
  set.members.foldl (better window) none

/-- Whether an opening token stands anywhere in `text`. -/
def opensIn (set : DelimiterSet) (text : Text) : Bool :=
  set.members.any fun d => Text.occursIn d.opening text

/-- The length of the longest opening token; zero for the empty set. -/
def maxOpening (set : DelimiterSet) : Nat :=
  (set.members.map fun d => d.opening.length).foldl max 0

/-- The length of the longest closing token; zero for the empty set. -/
def maxClosing (set : DelimiterSet) : Nat :=
  (set.members.map fun d => d.closing.length).foldl max 0

/-- `$` with braces, and `@`. -/
def standard : DelimiterSet :=
  ⟨[.dollarBrace, .atSign], by decide⟩

end DelimiterSet

end Placeholder
