import Placeholder.Powers
import Placeholder.Text
/-!
Double-precision numbers as their sixty-four bits, with exact conversions in both directions. A
finite number is `m · 2^q`; a quotient of naturals is rounded to the nearest such number, a half to
the even one. The text of a number has the fewest digits that read back as the same number, and of
those the nearest.
-/
namespace Placeholder

/-- A double-precision number. -/
structure Binary64 where
  bits : UInt64
deriving DecidableEq, Repr

namespace Binary64

def biasedExponent (x : Binary64) : Nat :=
  x.bits.toNat / pow2 52 % pow2 11

def fraction (x : Binary64) : Nat :=
  x.bits.toNat % pow2 52

def isNegative (x : Binary64) : Bool :=
  pow2 63 ≤ x.bits.toNat

def isFinite (x : Binary64) : Bool :=
  x.biasedExponent != 2047

def isNaN (x : Binary64) : Bool :=
  x.biasedExponent = 2047 && x.fraction != 0

/-- The factor `m` of the magnitude `m · 2^q`. -/
def mantissa (x : Binary64) : Nat :=
  if x.biasedExponent = 0 then x.fraction else pow2 52 + x.fraction

/-- The exponent `q` of the magnitude `m · 2^q`, raised by 1074 so that it is never negative. -/
def shift (x : Binary64) : Nat :=
  x.biasedExponent - 1

def ofParts (negative : Bool) (magnitude : Nat) : Binary64 :=
  ⟨UInt64.ofNat ((if negative then pow2 63 else 0) + magnitude)⟩

def zero (negative : Bool) : Binary64 := ofParts negative 0

def infinity (negative : Bool) : Binary64 := ofParts negative (2047 * pow2 52)

/-- The NaN that is no signal. -/
def nan : Binary64 := ofParts false (2047 * pow2 52 + pow2 51)

/-- The numerator of the magnitude, over the denominator `2^1074`. -/
def scaled (x : Binary64) : Nat :=
  x.mantissa * pow2 x.shift

/-- `num / den` rounded to a whole number, a half to the even one. -/
def roundQuotient (num den : Nat) : Nat :=
  let floor := num / den
  let rest := 2 * (num % den)
  if den < rest || (rest = den && floor % 2 = 1) then floor + 1 else floor

/-- `num / den` rounded to the nearest number; infinite if it is beyond the largest one. -/
def ofQuotient (negative : Bool) (num den : Nat) : Binary64 :=
  if num = 0 then zero negative
  else
    -- The shift is right up to one, so that the mantissa before rounding has 53 or 54 bits.
    let wide := (num.log2 + 1074 - den.log2) - 53
    let whole := num * pow2 1074 / (den * pow2 wide)
    let shift := if pow2 53 ≤ whole then wide + 1 else wide
    let mantissa := roundQuotient (num * pow2 1074) (den * pow2 shift)
    -- A mantissa that rounds up to the next power of two carries into the exponent by itself.
    let magnitude := if mantissa < pow2 52 then mantissa else shift * pow2 52 + mantissa
    if 2047 * pow2 52 ≤ magnitude then infinity negative else ofParts negative magnitude

/-- `digits · 10^exponent` rounded to the nearest number. Exponents far outside the range of the
numbers are not multiplied out. -/
def ofDecimal (negative : Bool) (digits : Nat) (exponent : Int) : Binary64 :=
  if digits = 0 then zero negative
  else
    let reach := exponent + (digits.log2 / 3 : Nat)
    if reach < -400 then zero negative
    else if 400 < exponent then infinity negative
    else if 0 ≤ exponent then ofQuotient negative (digits * pow10 exponent.toNat) 1
    else ofQuotient negative digits (pow10 (-exponent).toNat)

def ofNat (n : Nat) : Binary64 := ofQuotient false n 1

def mulMagnitude (x y : Binary64) : Binary64 :=
  ofQuotient false (x.scaled * y.scaled) (pow2 1074 * pow2 1074)

def divMagnitude (x y : Binary64) : Binary64 :=
  ofQuotient false x.scaled y.scaled

def neg (x : Binary64) : Binary64 := ⟨x.bits ^^^ 0x8000000000000000⟩

/-- A decimal `digits · 10^exponent` close to a number. -/
structure Decimal where
  digits : Nat
  exponent : Int
deriving DecidableEq, Repr

/-- Four times the magnitude over `2^1074`, between the ends of the interval of reals that round to
it. The interval is narrower below a power of two. -/
structure Interval where
  low : Nat
  value : Nat
  high : Nat
  /-- Whether the ends themselves round to the number. -/
  closed : Bool

def interval (x : Binary64) : Interval where
  low :=
    if x.fraction = 0 && 1 < x.biasedExponent then (4 * x.mantissa - 1) * pow2 x.shift
    else (4 * x.mantissa - 2) * pow2 x.shift
  value := 4 * x.mantissa * pow2 x.shift
  high := (4 * x.mantissa + 2) * pow2 x.shift
  closed := x.mantissa % 2 = 0

/-- The number of decimal digits of `n`; one for zero. -/
def digitCount (n : Nat) : Nat := (Nat.toDigits 10 n).length

/-- The largest `e` with `10^e ≤ num / den`. -/
def decimalExponent (num den : Nat) : Int :=
  let guess : Int := (digitCount num : Int) - digitCount den
  let reached := if 0 ≤ guess then den * pow10 guess.toNat ≤ num
    else den ≤ num * pow10 (-guess).toNat
  if reached then guess else guess - 1

/-- The point of the grid of step `10^exponent` that lies in the interval and is nearest to the
value, if there is one. -/
def onGrid? (i : Interval) (exponent : Int) : Option Decimal :=
  let unit := 4 * pow2 1074
  let up := pow10 exponent.toNat
  let down := pow10 (-exponent).toNat
  let below := i.value * down / (unit * up)
  let inside (n : Nat) : Bool :=
    let point := n * up * unit
    if i.closed then i.low * down ≤ point && point ≤ i.high * down
    else i.low * down < point && point < i.high * down
  let toBelow := i.value * down - below * up * unit
  let toAbove := (below + 1) * up * unit - i.value * down
  let belowFirst := toBelow < toAbove || (toBelow = toAbove && below % 2 = 0)
  match inside below, inside (below + 1) with
  | true, true => some ⟨if belowFirst then below else below + 1, exponent⟩
  | true, false => some ⟨below, exponent⟩
  | false, true => some ⟨below + 1, exponent⟩
  | false, false => none

/-- The first hit on the grids of `count` or more digits; `top` is the exponent of the first digit. -/
def shortestFrom (i : Interval) (top : Int) : Nat → Nat → Decimal
  | 0, count => ⟨i.value * pow10 (count - 1 - top).toNat / (4 * pow2 1074), top + 1 - count⟩
  | fuel + 1, count =>
    match onGrid? i (top + 1 - count) with
    | some decimal => decimal
    | none => shortestFrom i top fuel (count + 1)

/-- The decimal with the fewest digits that rounds to the number, and the nearest of those.
Seventeen digits are always enough. -/
def shortest (x : Binary64) : Decimal :=
  let i := x.interval
  shortestFrom i (decimalExponent i.value (4 * pow2 1074)) 17 1

/-- How decimals are laid out: positional from `10^lowest` up to below `10^beyond`, with an exponent
otherwise. -/
structure Layout where
  lowest : Int
  beyond : Int
  /-- What ends a positional number that is whole. -/
  wholeEnd : Text
  /-- What stands before an exponent, without and with a minus sign. -/
  exponentMark : Text
  negativeMark : Text

/-- Puts the digits where the layout wants them; `top` is the exponent of the first one. -/
def Layout.place (layout : Layout) (digits : Text) (top : Int) : Text :=
  if layout.lowest ≤ top && top < layout.beyond then
    if top < 0 then ['0', '.'] ++ List.replicate (-top - 1).toNat '0' ++ digits
    else
      let whole := digits.take (top.toNat + 1)
      let part := digits.drop (top.toNat + 1)
      whole ++ List.replicate (top.toNat + 1 - digits.length) '0' ++
        (if part.isEmpty then layout.wholeEnd else '.' :: part)
  else
    let tail := digits.drop 1
    digits.take 1 ++ (if tail.isEmpty then [] else '.' :: tail) ++
      (if 0 ≤ top then layout.exponentMark else layout.negativeMark) ++ Nat.toDigits 10 top.natAbs

def Layout.write (layout : Layout) (x : Binary64) : Text :=
  let sign := if x.isNegative then ['-'] else []
  if x.mantissa = 0 then sign ++ ['0'] ++ layout.wholeEnd
  else
    let decimal := x.shortest
    let all := Nat.toDigits 10 decimal.digits
    let digits := (all.reverse.dropWhile (· = '0')).reverse
    sign ++ layout.place digits (decimal.exponent + all.length - 1)

/-- What a number that is not finite is called. -/
def nonFiniteName (x : Binary64) : Text :=
  if x.isNaN then "NaN".toList else if x.isNegative then "-inf".toList else "inf".toList

end Binary64

end Placeholder
