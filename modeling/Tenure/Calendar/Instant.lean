import Tenure.Calendar.Date

/-!
# Points in time

A point in time is a number of seconds since the beginning of 1970 in universal time, some nanoseconds, and the
distance from universal time at which it is shown. Seconds are 64-bit words, and so is the count of seconds from which a
date is found: the count begins with March of the year -292277022400 and wraps around.
-/

set_option autoImplicit false

namespace Tenure.Calendar

open Text (octet isDigit)

/-- A point in time. -/
structure Instant where
  seconds : Int
  nanos : Nat
  /-- The distance from universal time, in seconds. -/
  offset : Int
deriving DecidableEq, Repr, Inhabited

namespace Instant

/-- The first second of the year 1, which stands for no time at all. -/
def zero : Instant := ⟨-62135596800, 0, 0⟩

/-- An integer as a 64-bit word holds it. -/
def wrapped (n : Int) : Int := n.bmod 0x10000000000000000

/-- The point in time of a number of seconds. -/
def ofSeconds (n : Int) : Instant := ⟨wrapped n, 0, 0⟩

/-- A number of whole seconds as a 64-bit word; what no word holds becomes the least word. -/
def wholeSeconds (negative : Bool) (whole : Nat) : Int :=
  let n : Int := if negative then -(whole : Int) else whole
  if -0x8000000000000000 ≤ n ∧ n < 0x8000000000000000 then n else -0x8000000000000000

/-- The nanoseconds of a fraction of a second: the product is rounded to a double and then cut. -/
def nanosOf (num den : Nat) : Nat :=
  match (Double.nearest? false (num * 1000000000) den).map Double.value with
  | some (.finite _ m e) =>
    let (up, down) := Double.powerOfTwo e
    m * up / down
  | _ => 0

/-- The point in time of a number of seconds with a fraction; what is not a number, or infinite, stands for no time. -/
def ofFloat (x : Float) : Instant :=
  match Double.value x with
  | .finite negative m e =>
    let (up, down) := Double.powerOfTwo e
    let seconds := wholeSeconds negative (m * up / down)
    let nanos := nanosOf (m * up % down) down
    if negative ∧ nanos ≠ 0 then ⟨seconds - 1, 1000000000 - nanos, 0⟩ else ⟨seconds, nanos, 0⟩
  | _ => zero

/-! ## Reading -/

/-- The hour of a clock, of one or two digits, and the rest. -/
def takeHour? (octets : List UInt8) : Option (Nat × List UInt8) :=
  match takeField? 2 octets with
  | some r => some r
  | none => takeField? 1 octets

/-- The nanoseconds of a fraction if one comes next, and the rest. Digits after the ninth do not count. -/
def takeFraction (octets : List UInt8) : Nat × List UInt8 :=
  match (takeOneOf? ['.', ','] octets).map fun rest => (rest.takeWhile isDigit, rest.dropWhile isDigit) with
  | some (digits, rest) =>
    if digits.isEmpty then (0, octets)
    else
      let kept := digits.take 9
      (((Decimal.digitsValue? 10 kept).getD 0) * Nat.pow 10 (9 - kept.length), rest)
  | none => (0, octets)

/-- The distance from universal time that takes up the rest: a `Z`, or hours and minutes. -/
def readOffset? (octets : List UInt8) : Option Int :=
  match octets with
  | [] => none
  | mark :: rest =>
    if mark = octet 'Z' then if rest.isEmpty then some 0 else none
    else do
      let _ ← takeOneOf? ['+', '-'] octets
      let (hours, rest) ← takeField? 2 rest
      let (minutes, rest) ← takeField? 2 (← takeOneOf? [':'] rest)
      if hours ≤ 24 ∧ minutes ≤ 60 ∧ rest.isEmpty then
        let distance : Int := ((hours * 60 + minutes) * 60 : Nat)
        some (if mark = octet '-' then -distance else distance)
      else none

/-- The point in time that a text writes: a date, a `T`, a time of day and a distance from universal time. -/
def read? (t : Text) : Option Instant := do
  let (date, rest) ← Date.take? t.octets
  let (hour, rest) ← takeHour? (← takeOneOf? ['T'] rest)
  let (minute, rest) ← takeField? 2 (← takeOneOf? [':'] rest)
  let (second, rest) ← takeField? 2 (← takeOneOf? [':'] rest)
  let (nanos, rest) := takeFraction rest
  let offset ← readOffset? rest
  if hour < 24 ∧ minute < 60 ∧ second < 60 then
    let clock : Int := (hour * 60 + minute) * 60 + second
    some ⟨date.number * 86400 + clock - offset, nanos, offset⟩
  else none

/-! ## Writing -/

/-- The second with which the count of seconds begins from which dates are found. -/
def firstSecond : Int := -9223372028741760000

/-- A number with at least so many digits. -/
def digits (n : Int) (width : Nat) : Text :=
  let places := (Text.ofNat n.natAbs).padLeft '0' width
  if n < 0 then "-" ++ places else places

/-- The fraction of a second without zeros at its end, nothing if there is none. -/
def fractionText (nanos : Nat) : Text :=
  if nanos = 0 then ∅
  else
    let places := ((Text.ofNat nanos).padLeft '0' 9).octets
    "." ++ ⟨(places.reverse.dropWhile (· = octet '0')).reverse⟩

/-- The distance from universal time, as a sign, hours and minutes. -/
def offsetText (offset : Int) : Text :=
  let minutes := offset.natAbs / 60
  (if offset < 0 ∧ minutes ≠ 0 then "-" else "+") ++ digits (minutes / 60 : Nat) 2 ++ digits (minutes % 60 : Nat) 2

/-- The text of a point in time; a distance from universal time stands in for the name of the zone. -/
def text (t : Instant) : Text :=
  let count := (t.seconds + t.offset - firstSecond) % 0x10000000000000000 + firstSecond
  let date := Date.ofNumber (count / 86400)
  let clock := count % 86400
  let zone := offsetText t.offset
  digits date.year 4 ++ "-" ++ digits date.month 2 ++ "-" ++ digits date.day 2 ++ " " ++
    digits (clock / 3600) 2 ++ ":" ++ digits (clock / 60 % 60) 2 ++ ":" ++ digits (clock % 60) 2 ++
    fractionText t.nanos ++ " " ++ zone ++ " " ++ (if t.offset = 0 then Text.ofString "UTC" else zone)

end Instant

end Tenure.Calendar
