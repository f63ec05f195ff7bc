import Placeholder.Reading.Feed
/-!
Characters from a feed of bytes. A reader can be marked: the characters read since then are kept, up
to a limit, and `reset` puts them in front of the input again. A failed read loses nothing, so
reading can go on when the feed recovers.
-/
namespace Placeholder

/-- A place to come back to: how many more characters may be read, and those read since, the latest
first. -/
structure Mark where
  allowance : Nat
  taken : Text
deriving DecidableEq

/-- A reader of UTF-8. -/
structure TextReader where
  feed : Feed
  /-- Bytes delivered and not decoded yet. -/
  buffer : Bytes
  /-- How many bytes were decoded. -/
  offset : Nat
  /-- Characters put back by `reset` and not read again. -/
  replay : Text
  mark? : Option Mark

namespace TextReader

/-- A reader at the start of a feed, without a mark. -/
def ofFeed (feed : Feed) : TextReader := ⟨feed, [], 0, [], none⟩

/-- Whether at least `needed` bytes are there. -/
def holds (needed : Nat) (buffer : Bytes) : Bool :=
  needed ≤ (buffer.take needed).length

/-- Takes deliveries until the buffer holds `needed` bytes. Interrupted requests are repeated. -/
def fillFrom (needed : Nat) (ending : Ending) :
    List Delivery → Bytes → Except Failure Bool × List Delivery × Bytes
  | [], buffer =>
    if holds needed buffer then (.ok true, [], buffer)
    else
      match ending with
      | .closed => (.ok false, [], buffer)
      | .broken failure => (.error (.io failure), [], buffer)
  | delivery :: rest, buffer =>
    if holds needed buffer then (.ok true, delivery :: rest, buffer)
    else
      match delivery with
      | .bytes first more => fillFrom needed ending rest (buffer ++ first :: more)
      | .interrupted => fillFrom needed ending rest buffer
      | .failed failure => (.error (.io failure), rest, buffer)

/-- Makes the buffer hold `needed` bytes; answers whether the input has that many. -/
def fill (r : TextReader) (needed : Nat) : Except Failure Bool × TextReader :=
  let filled := fillFrom needed r.feed.ending r.feed.deliveries r.buffer
  (filled.1, { r with feed := { r.feed with deliveries := filled.2.1 }, buffer := filled.2.2 })

/-- The character whose `width` bytes are at the front of the buffer. -/
def decodeBuffered (r : TextReader) (width : Nat) : Except Failure (Option Char) × TextReader :=
  match Utf8.decode? (r.buffer.take width) with
  | none => (.error (.invalidUtf8 r.offset), r)
  | some c => (.ok (some c), { r with buffer := r.buffer.drop width, offset := r.offset + width })

/-- The character whose first byte is `lead`, at the front of the buffer. -/
def decodeLed (r : TextReader) (lead : UInt8) : Except Failure (Option Char) × TextReader :=
  if Utf8.width lead = 0 then (.error (.invalidUtf8 r.offset), r)
  else
    match r.fill (Utf8.width lead) with
    | (.error failure, r) => (.error failure, r)
    | (.ok false, r) => (.error (.invalidUtf8 r.offset), r)
    | (.ok true, r) => r.decodeBuffered (Utf8.width lead)

/-- The next character from the bytes, or nothing at the end of the input. -/
def decodeNext (r : TextReader) : Except Failure (Option Char) × TextReader :=
  match r.fill 1 with
  | (.error failure, r) => (.error failure, r)
  | (.ok false, r) => (.ok none, r)
  | (.ok true, r) =>
    match r.buffer with
    | [] => (.ok none, r)
    | lead :: _ => r.decodeLed lead

/-- Notes that `c` was read. A mark whose allowance is used up is lost. -/
def note (r : TextReader) (c : Char) : TextReader :=
  match r.mark? with
  | none => r
  | some mark =>
    match mark.allowance with
    | 0 => { r with mark? := none }
    | n + 1 => { r with mark? := some ⟨n, c :: mark.taken⟩ }

/-- The next character, or nothing at the end of the input. -/
def read (r : TextReader) : Except Failure (Option Char) × TextReader :=
  match r.replay with
  | c :: rest => (.ok (some c), note { r with replay := rest } c)
  | [] =>
    match r.decodeNext with
    | (.ok (some c), r) => (.ok (some c), r.note c)
    | other => other

/-- Remembers this place for as long as at most `limit` characters are read. -/
def mark (r : TextReader) (limit : Nat) : TextReader :=
  { r with mark? := some ⟨limit, []⟩ }

/-- Goes back to the mark, which stays where it is. -/
def reset (r : TextReader) : Except Failure Unit × TextReader :=
  match r.mark? with
  | none => (.error .invalidMark, r)
  | some mark =>
    (.ok (), { r with
      replay := mark.taken.reverse ++ r.replay
      mark? := some ⟨mark.allowance + mark.taken.length, []⟩ })

/-- No fewer characters than are still to come. -/
def size (r : TextReader) : Nat :=
  r.replay.length + r.buffer.length + r.feed.content.length

/-- Reads at most `count` characters, up to the end of the input or the first failure; they come out
in order. -/
def readOnto : Nat → Text → TextReader → (Text × Option Failure) × TextReader
  | 0, seen, r => ((seen.reverse, none), r)
  | n + 1, seen, r =>
    match r.read with
    | (.ok (some c), r) => readOnto n (c :: seen) r
    | (.ok none, r) => ((seen.reverse, none), r)
    | (.error failure, r) => ((seen.reverse, some failure), r)

/-- Reads to the end of the input or to the first failure. -/
def readAll (r : TextReader) : (Text × Option Failure) × TextReader :=
  readOnto (r.size + 1) [] r

end TextReader

end Placeholder
