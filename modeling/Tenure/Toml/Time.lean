import Tenure.Calendar.Date

/-!
# Dates and times in configuration texts

A date, a time of day, or both with an optional distance from universal time. Every field has its full number of
digits and a value that occurs on a calendar or a clock; seconds may be left out.
-/

set_option autoImplicit false

namespace Tenure.Toml

open Text (octet isDigit)
open Calendar (takeField? takeOneOf? Date)

/-- The fraction of a second if one comes next, and the rest. -/
def skipFraction (octets : List UInt8) : List UInt8 :=
  match octets with
  | point :: digit :: rest => if point = octet '.' ∧ isDigit digit then rest.dropWhile isDigit else octets
  | _ => octets

/-- The seconds of a time of day if they come next, and the rest. -/
def takeSeconds? (octets : List UInt8) : Option (List UInt8) :=
  match takeOneOf? [':'] octets with
  | none => some octets
  | some rest => do
    let (second, rest) ← takeField? 2 rest
    if second < 60 then some (skipFraction rest) else none

/-- A time of day, and the rest. -/
def takeClock? (octets : List UInt8) : Option (List UInt8) := do
  let (hour, rest) ← takeField? 2 octets
  let (minute, rest) ← takeField? 2 (← takeOneOf? [':'] rest)
  if hour < 24 ∧ minute < 60 then takeSeconds? rest else none

/-- A distance from universal time that takes up the rest, or nothing. -/
def isOffset (octets : List UInt8) : Bool :=
  octets.isEmpty || octets = Text.octets "Z" || octets = Text.octets "z" ||
    (match do
      let (hours, rest) ← takeField? 2 (← takeOneOf? ['+', '-'] octets)
      let (minutes, rest) ← takeField? 2 (← takeOneOf? [':'] rest)
      some (hours ≤ 24 && minutes ≤ 60 && rest.isEmpty) with
    | some fits => fits
    | none => false)

/-- Whether a token writes a date, a time of day, or both. -/
def isTime (token : List UInt8) : Bool :=
  match Date.take? token with
  | some (_, []) => true
  | some (_, rest) =>
    match (takeOneOf? ['T', 't', ' '] rest).bind takeClock? with
    | some rest => isOffset rest
    | none => false
  | none => takeClock? token = some []

end Tenure.Toml
