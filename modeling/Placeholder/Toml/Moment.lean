import Placeholder.Text.Digits
/-!
Dates and times of day, alone or together, with or without an offset from universal time. `read?`
takes the written forms, `write` gives the one form that they have in common: `T` between date and
time, `Z` for universal time, and no zeros at the end of a fraction.
-/
namespace Placeholder

/-- A day of the Gregorian calendar. -/
structure Date where
  year : Nat
  month : Nat
  day : Nat
deriving DecidableEq

/-- A time of day. The seconds may be left out; a fraction counts billionths. -/
structure TimeOfDay where
  hour : Nat
  minute : Nat
  second : Option Nat
  fraction : Option Nat
deriving DecidableEq

/-- How far local time is ahead of universal time. -/
inductive Offset where
  | universal
  | minutes (ahead : Int)
deriving DecidableEq

/-- A date, a time of day, or both. -/
inductive Moment where
  | day (date : Date)
  | clock (time : TimeOfDay)
  | here (date : Date) (time : TimeOfDay)
  | anywhere (date : Date) (time : TimeOfDay) (offset : Offset)
deriving DecidableEq

namespace Date

def isLeapYear (year : Nat) : Bool :=
  year % 4 = 0 && (year % 100 != 0 || year % 400 = 0)

def daysIn (year month : Nat) : Nat :=
  if month = 2 then if isLeapYear year then 29 else 28
  else if month = 4 || month = 6 || month = 9 || month = 11 then 30
  else 31

def isValid (date : Date) : Bool :=
  1 ≤ date.month && date.month ≤ 12 && 1 ≤ date.day && date.day ≤ daysIn date.year date.month

def read? : Text → Option (Date × Text)
  | y₁ :: y₂ :: y₃ :: y₄ :: '-' :: m₁ :: m₂ :: '-' :: d₁ :: d₂ :: rest => do
    let year ← Digits.number? 10 [y₁, y₂, y₃, y₄]
    let month ← Digits.number? 10 [m₁, m₂]
    let day ← Digits.number? 10 [d₁, d₂]
    let date : Date := ⟨year, month, day⟩
    if date.isValid then some (date, rest) else none
  | _ => none

def write (date : Date) : Text :=
  Digits.padded 4 date.year ++ '-' :: Digits.padded 2 date.month ++ '-' :: Digits.padded 2 date.day

end Date

namespace TimeOfDay

/-- Whether a clock can show it; a minute may have a leap second. -/
def isValid (time : TimeOfDay) : Bool :=
  time.hour ≤ 23 && time.minute ≤ 59 && time.second.all (· ≤ 60)

/-- Billionths from the digits of a fraction. Digits after the ninth do not count. -/
def billionths (digits : Text) : Option Nat :=
  Digits.number? 10 ((digits ++ List.replicate 9 '0').take 9)

def readSeconds? : Text → Option (Option Nat × Option Nat × Text)
  | ':' :: s₁ :: s₂ :: rest => do
    let second ← Digits.number? 10 [s₁, s₂]
    match rest with
    | '.' :: rest =>
      let digits := rest.takeWhile Char.isDigit
      if digits.isEmpty then none
      else return (some second, ← billionths digits, rest.dropWhile Char.isDigit)
    | rest => return (some second, none, rest)
  | rest => some (none, none, rest)

def read? : Text → Option (TimeOfDay × Text)
  | h₁ :: h₂ :: ':' :: m₁ :: m₂ :: rest => do
    let hour ← Digits.number? 10 [h₁, h₂]
    let minute ← Digits.number? 10 [m₁, m₂]
    let (second, fraction, rest) ← readSeconds? rest
    let time : TimeOfDay := ⟨hour, minute, second, fraction⟩
    if time.isValid then some (time, rest) else none
  | _ => none

/-- A fraction without the zeros at its end; one digit always stays. -/
def writeFraction (fraction : Nat) : Text :=
  let digits := ((Digits.padded 9 fraction).reverse.dropWhile (· = '0')).reverse
  if digits.isEmpty then ['0'] else digits

def write (time : TimeOfDay) : Text :=
  Digits.padded 2 time.hour ++ ':' :: Digits.padded 2 time.minute ++
    (match time.second with
      | some second => ':' :: Digits.padded 2 second
      | none => []) ++
    (match time.fraction with
      | some fraction => '.' :: writeFraction fraction
      | none => [])

end TimeOfDay

namespace Offset

def read? : Text → Option Offset
  | ['Z'] => some universal
  | ['z'] => some universal
  | [sign, h₁, h₂, ':', m₁, m₂] => do
    let hours ← Digits.number? 10 [h₁, h₂]
    let minutes ← Digits.number? 10 [m₁, m₂]
    if 23 < hours || 59 < minutes then none
    else if sign = '+' then some (.minutes (hours * 60 + minutes))
    else if sign = '-' then some (.minutes (-(hours * 60 + minutes)))
    else none
  | _ => none

def write : Offset → Text
  | universal => ['Z']
  | minutes ahead =>
    (if ahead < 0 then '-' else '+') :: Digits.padded 2 (ahead.natAbs / 60) ++
      ':' :: Digits.padded 2 (ahead.natAbs % 60)

end Offset

namespace Moment

def separates (c : Char) : Bool :=
  c = 'T' || c = 't' || c = ' '

def onDate? (date : Date) (text : Text) : Option Moment := do
  let (time, rest) ← TimeOfDay.read? text
  if rest.isEmpty then return .here date time
  else return .anywhere date time (← Offset.read? rest)

def read? (text : Text) : Option Moment :=
  match Date.read? text with
  | some (date, []) => some (.day date)
  | some (date, c :: rest) => if separates c then onDate? date rest else none
  | none =>
    match TimeOfDay.read? text with
    | some (time, []) => some (.clock time)
    | _ => none

def write : Moment → Text
  | day date => date.write
  | clock time => time.write
  | here date time => date.write ++ 'T' :: time.write
  | anywhere date time offset => date.write ++ 'T' :: time.write ++ offset.write

end Moment

end Placeholder
