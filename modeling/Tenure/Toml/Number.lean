import Tenure.Decimal.Reader

/-!
# Numbers in configuration texts

Digits may be grouped by single underscores between digits. A decimal number has no superfluous leading zero. An
integer fits 64 bits and may be written in base two, eight or sixteen without a sign; a floating point number has
digits on both sides of its point and is no larger than the largest double.
-/

set_option autoImplicit false

namespace Tenure.Toml

open Text (octet isDigit splitWhere)
open Decimal (takeSign digitsValue?)

/-- Digits without the underscores between groups; there has to be a digit on both sides of each. -/
def ungrouped? (digits : List UInt8) : Option (List UInt8) :=
  let groups := splitWhere (· = octet '_') digits
  if groups.any List.isEmpty then none else some groups.flatten

/-- Decimal digits without the underscores between groups. -/
def decimals? (digits : List UInt8) : Option (List UInt8) := do
  let digits ← ungrouped? digits
  if digits.all isDigit then some digits else none

/-- Decimal digits of a whole number, without a superfluous leading zero. -/
def wholeDigits? (digits : List UInt8) : Option (List UInt8) := do
  let digits ← decimals? digits
  if 1 < digits.length ∧ digits.head? = some (octet '0') then none else some digits

/-- The magnitude of digits after a mark for their base. -/
def marked? : List UInt8 → Option Nat
  | zero :: mark :: digits =>
    if zero ≠ octet '0' then none
    else if mark = octet 'x' then do digitsValue? 16 (← ungrouped? digits)
    else if mark = octet 'o' then do digitsValue? 8 (← ungrouped? digits)
    else if mark = octet 'b' then do digitsValue? 2 (← ungrouped? digits)
    else none
  | _ => none

/-- The integer if it fits 64 bits. -/
def fits? (n : Int) : Option Int := if -0x8000000000000000 ≤ n ∧ n < 0x8000000000000000 then some n else none

/-- The integer that a token writes. -/
def integer? (token : List UInt8) : Option Int :=
  match marked? token with
  | some n => fits? n
  | none => do
    let (negative, digits) := takeSign token
    let n ← digitsValue? 10 (← wholeDigits? digits)
    fits? (if negative then -(n : Int) else n)

/-- The digits of a token in front of its exponent, and the exponent if it has one. -/
def splitExponent? (token : List UInt8) : Option (List UInt8 × Option (List UInt8)) :=
  match splitWhere (fun c => c = octet 'e' || c = octet 'E') token with
  | [digits] => some (digits, none)
  | [digits, exponent] => some (digits, some exponent)
  | _ => none

/-- Whether digits in front of an exponent are in order, after their sign. -/
def isSignificand (digits : List UInt8) : Bool :=
  match splitWhere (· = octet '.') digits with
  | [whole] => (wholeDigits? whole).isSome
  | [whole, fraction] => (wholeDigits? whole).isSome && (decimals? fraction).isSome
  | _ => false

/-- Whether an exponent is in order. -/
def isExponent (exponent : List UInt8) : Bool := (decimals? (takeSign exponent).2).isSome

/-- The floating point number that a token writes. It has a point or an exponent, or it is a word. -/
def float? (token : List UInt8) : Option Float := do
  let (negative, rest) := takeSign token
  if rest = Text.octets "inf" then some (Double.infinity negative)
  else if rest = Text.octets "nan" then some Double.nan
  else
    let (digits, exponent) ← splitExponent? rest
    let sound := match exponent with
      | some exponent => isSignificand digits && isExponent exponent
      | none => isSignificand digits && digits.contains (octet '.')
    if sound then Decimal.readFloat? (Text.erase ⟨token⟩ '_') else none

end Tenure.Toml
