import Placeholder.Text
/-!
The UTF-8 form of text. A sequence is read by its first byte, which gives the width, and by the
range its code point must fall in; overlong forms, surrogates and code points above U+10FFFF are
refused. `decodeLossy` reads any bytes at all and shows each maximal ill-formed part as U+FFFD.
-/
namespace Placeholder

abbrev Bytes := List UInt8

namespace Utf8

/-- How many bytes the sequence that starts with `first` has; zero if no sequence starts so. -/
def width (first : UInt8) : Nat :=
  let b := first.toNat
  if b < 0x80 then 1
  else if b < 0xC2 then 0
  else if b < 0xE0 then 2
  else if b < 0xF0 then 3
  else if b < 0xF5 then 4
  else 0

def continuation? (byte : UInt8) : Option Nat :=
  if 0x80 ≤ byte.toNat ∧ byte.toNat < 0xC0 then some (byte.toNat - 0x80) else none

/-- The character with code point `n`, if `n` is at least `least` and a scalar value. -/
def scalar? (least n : Nat) : Option Char :=
  if h : least ≤ n ∧ n.isValidChar then some (Char.ofNatAux n h.2) else none

def decode? : Bytes → Option Char
  | [a] => if a.toNat < 0x80 then scalar? 0 a.toNat else none
  | [a, b] => do
    let x ← continuation? b
    scalar? 0x80 ((a.toNat - 0xC0) * 64 + x)
  | [a, b, c] => do
    let x ← continuation? b
    let y ← continuation? c
    scalar? 0x800 (((a.toNat - 0xE0) * 64 + x) * 64 + y)
  | [a, b, c, d] => do
    let x ← continuation? b
    let y ← continuation? c
    let z ← continuation? d
    scalar? 0x10000 ((((a.toNat - 0xF0) * 64 + x) * 64 + y) * 64 + z)
  | _ => none

def encode (c : Char) : Bytes :=
  String.utf8EncodeChar c

def encodeText (text : Text) : Bytes :=
  text.flatMap encode

def size (text : Text) : Nat :=
  text.foldl (fun n c => n + c.utf8Size) 0

/-- The first character of `bytes` and how many bytes spell it. A sequence that is cut off by the end
of the bytes spells nothing. -/
def first? (bytes : Bytes) : Option (Char × Nat) :=
  match bytes with
  | [] => none
  | b :: _ =>
    let sequence := bytes.take (width b)
    if sequence.length = width b then (decode? sequence).map fun c => (c, width b)
    else none

/-- Whether `second` may follow `lead`: the range is narrower than that of a continuation byte
where an overlong form, a surrogate or a code point beyond the last would begin. -/
def mayFollow (lead second : UInt8) : Bool :=
  let b := second.toNat
  match lead.toNat with
  | 0xE0 => 0xA0 ≤ b && b < 0xC0
  | 0xED => 0x80 ≤ b && b < 0xA0
  | 0xF0 => 0x90 ≤ b && b < 0xC0
  | 0xF4 => 0x80 ≤ b && b < 0x90
  | _ => 0x80 ≤ b && b < 0xC0

/-- How many bytes at the front form the longest beginning of a sequence that cannot be completed;
at least one. -/
def illFormedLength : Bytes → Nat
  | [] => 1
  | [_] => 1
  | lead :: second :: rest =>
    if width lead < 2 || !mayFollow lead second then 1
    else 2 + ((rest.take (width lead - 2)).takeWhile fun b => (continuation? b).isSome).length

/-- All of `bytes` as text, with U+FFFD for each ill-formed part. The first argument bounds the
number of characters; the number of bytes is always enough. -/
def decodeLossyWithin : Nat → Bytes → Text
  | 0, _ => []
  | _, [] => []
  | n + 1, bytes =>
    match first? bytes with
    | some (c, used) => c :: decodeLossyWithin n (bytes.drop used)
    | none => '\uFFFD' :: decodeLossyWithin n (bytes.drop (illFormedLength bytes))

/-- All of `bytes` as text, with U+FFFD for each ill-formed part. -/
def decodeLossy (bytes : Bytes) : Text :=
  decodeLossyWithin bytes.length bytes

/-- Reads characters until the bytes end or are ill-formed; the characters come out in reverse. -/
def decodeOnto : Nat → Text → Bytes → Option Text
  | _, seen, [] => some seen
  | 0, _, _ :: _ => none
  | n + 1, seen, bytes =>
    match first? bytes with
    | some (c, used) => decodeOnto n (c :: seen) (bytes.drop used)
    | none => none

/-- The text that `bytes` spell, if they are well-formed throughout. -/
def decodeText? (bytes : Bytes) : Option Text :=
  (decodeOnto bytes.length [] bytes).map List.reverse

end Utf8

end Placeholder
