import Placeholder.Reading.TextReader
/-!
A reader that looks ahead a bounded way. Once `limit` characters were read since the mark, it says
that the input is at its end, so a scan can never read past what it may put back.
-/
namespace Placeholder

/-- A marked reader with the count of the characters read since the mark, and their limit. -/
structure Lookahead where
  reader : TextReader
  position : Nat
  limit : Nat

namespace Lookahead

/-- Marks the reader and looks at most `limit` characters ahead. -/
def ofReader (reader : TextReader) (limit : Nat) : Lookahead := ⟨reader.mark limit, 0, limit⟩

/-- The next character, or nothing at the end of the input or of the window. Each attempt before
the end of the window counts, whatever comes of it. -/
def read (l : Lookahead) : Except Failure (Option Char) × Lookahead :=
  if l.limit ≤ l.position then (.ok none, l)
  else
    let result := l.reader.read
    (result.1, { l with reader := result.2, position := l.position + 1 })

/-- Reads into the places of `buffer`, from its front. Answers the buffer afterwards and how many
characters were read, or the failure that ended it. -/
def readInto (l : Lookahead) : Text → (Text × Except Failure Nat) × Lookahead
  | [] => (([], .ok 0), l)
  | place :: rest =>
    match l.read with
    | (.error failure, l) => ((place :: rest, .error failure), l)
    | (.ok none, l) => ((place :: rest, .ok 0), l)
    | (.ok (some c), l) =>
      let later := l.readInto rest
      ((c :: later.1.1, later.1.2.map (· + 1)), later.2)

/-- Starts a new window of `limit` characters here. -/
def mark (l : Lookahead) (limit : Nat) : Lookahead := ⟨l.reader.mark limit, 0, limit⟩

/-- Goes back to the mark. -/
def reset (l : Lookahead) : Except Failure Unit × Lookahead :=
  let result := l.reader.reset
  (result.1, { l with reader := result.2, position := 0 })

/-- Reads until `window` holds `missing` more characters, or until there are none. -/
def fillBy (l : Lookahead) : Nat → Text → Except Failure Text × Lookahead
  | 0, window => (.ok window, l)
  | n + 1, window =>
    match l.read with
    | (.error failure, l) => (.error failure, l)
    | (.ok none, l) => (.ok window, l)
    | (.ok (some c), l) => l.fillBy n (window ++ [c])

/-- Reads until `window` holds `length` characters, or until there are none. -/
def fill (l : Lookahead) (window : Text) (length : Nat) : Except Failure Text × Lookahead :=
  l.fillBy (length - window.length) window

/-- Steps over `count` characters. -/
def skip (l : Lookahead) : Nat → Except Failure Unit × Lookahead
  | 0 => (.ok (), l)
  | n + 1 =>
    match l.read with
    | (.error failure, l) => (.error failure, l)
    | (.ok _, l) => l.skip n

/-- Goes back to the mark and steps over `count` characters. -/
def consume (l : Lookahead) (count : Nat) : Except Failure Unit × Lookahead :=
  match l.reset with
  | (.error failure, l) => (.error failure, l)
  | (.ok (), l) => l.skip count

end Lookahead

end Placeholder
