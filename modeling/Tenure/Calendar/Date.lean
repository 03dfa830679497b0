import Tenure.Decimal.Reader

/-!
# Dates

Days of the calendar that counts every fourth year as a leap year but for three centuries in four, continued to all
years before and after. A day is also given by its number, counted from the first day of 1970.
-/

set_option autoImplicit false

namespace Tenure.Calendar

open Text (octet isDigit)

/-- A number of exactly so many digits, and the rest. -/
def takeField? (count : Nat) (octets : List UInt8) : Option (Nat × List UInt8) := do
  let digits := octets.take count
  if digits.length = count ∧ digits.all isDigit then
    some (← Decimal.digitsValue? 10 digits, octets.drop count)
  else none

/-- One of some marks that has to come next, and the rest. -/
def takeOneOf? (marks : List Char) : List UInt8 → Option (List UInt8)
  | c :: rest => if marks.any fun m => octet m = c then some rest else none
  | [] => none

/-- Whether a year has a day more. -/
def isLeap (year : Nat) : Bool := year % 4 = 0 && (year % 100 ≠ 0 || year % 400 = 0)

/-- The number of days of a month. -/
def daysIn (year month : Nat) : Nat :=
  if month = 2 then (if isLeap year then 29 else 28)
  else if month = 4 ∨ month = 6 ∨ month = 9 ∨ month = 11 then 30
  else 31

/-- A day of a month of a year. -/
structure Date where
  year : Int
  month : Nat
  day : Nat
deriving DecidableEq, Repr, Inhabited

namespace Date

/-- Reads a date with all its digits; the rest comes with it. -/
def take? (octets : List UInt8) : Option (Date × List UInt8) := do
  let (year, rest) ← takeField? 4 octets
  let (month, rest) ← takeField? 2 (← takeOneOf? ['-'] rest)
  let (day, rest) ← takeField? 2 (← takeOneOf? ['-'] rest)
  if 1 ≤ month ∧ month ≤ 12 ∧ 1 ≤ day ∧ day ≤ daysIn year month then some (⟨year, month, day⟩, rest)
  else none

/-- How many days a year that begins in March has before one of its months, March being month 0. -/
def daysBefore (month : Nat) : Nat := (153 * month + 2) / 5

/-- The number of a date. Years are taken to begin in March, so that the leap day is their last one. -/
def number (d : Date) : Int :=
  let year := if d.month ≤ 2 then d.year - 1 else d.year
  let month := (d.month + 9) % 12
  365 * year + year / 4 - year / 100 + year / 400 + daysBefore month + d.day - 719469

/-- The date of a number: the day is looked for in the four hundred years around it, which have 146097 days. -/
def ofNumber (n : Int) : Date :=
  let cycle := (n + 719468) / 146097
  let day := ((n + 719468) % 146097).toNat
  let year := (day - day / 1460 + day / 36524 - day / 146096) / 365
  let dayOfYear := day - (365 * year + year / 4 - year / 100)
  let month := (5 * dayOfYear + 2) / 153
  let year := 400 * cycle + year
  ⟨if month < 10 then year else year + 1, (month + 2) % 12 + 1, dayOfYear - daysBefore month + 1⟩

end Date

end Tenure.Calendar
