import Tenure.Decimal.Reader
import Tenure.Text.Quoted

/-!
# Numbers on the command line

A number is written with an optional sign, in base ten or after a mark of its base, and may group its digits with
underscores. The first thing wrong with it decides the complaint: an octet that is no digit, or too many digits for a
machine word.
-/

set_option autoImplicit false

namespace Tenure.Command

open Text (octet digitValue? lowerOctet)

/-- What is wrong with a number. -/
inductive NumberFault where
  | notNumber
  | outOfRange
deriving DecidableEq, Repr

/-- The magnitude that digits write after a magnitude before them. Underscores count for nothing. -/
def magnitudeFrom (base : Nat) (grouped : Bool) : Nat → List UInt8 → Except NumberFault Nat
  | n, [] => .ok n
  | n, c :: rest =>
    if grouped ∧ c = octet '_' then magnitudeFrom base grouped n rest
    else
      match digitValue? c with
      | none => .error .notNumber
      | some d =>
        if base ≤ d then .error .notNumber
        else if 0x10000000000000000 ≤ n * base + d then .error .outOfRange
        else magnitudeFrom base grouped (n * base + d) rest

/-- The integer of a sign and a magnitude, if it is a machine word. -/
def signedWord (negative : Bool) (n : Nat) : Except NumberFault Int :=
  if negative then (if n ≤ 0x8000000000000000 then .ok (-(n : Int)) else .error .outOfRange)
  else if n < 0x8000000000000000 then .ok n else .error .outOfRange

/-- The base that unsigned digits are written in, the digits without its mark, and whether there is a mark. -/
def splitBase (octets : List UInt8) : Nat × List UInt8 × Bool :=
  match octets with
  | zero :: mark :: digit :: rest =>
    if zero ≠ octet '0' then (10, octets, false)
    else if lowerOctet mark = octet 'b' then (2, digit :: rest, true)
    else if lowerOctet mark = octet 'o' then (8, digit :: rest, true)
    else if lowerOctet mark = octet 'x' then (16, digit :: rest, true)
    else (8, mark :: digit :: rest, false)
  | zero :: rest => if zero = octet '0' then (8, rest, false) else (10, octets, false)
  | [] => (10, [], false)

/-- Whether every underscore has a digit, or the mark of a base, before it and a digit after it. -/
def groupsSound : Bool → List UInt8 → Bool
  | _, [] => true
  | before, c :: rest =>
    if c = octet '_' then
      before && (match rest with
        | next :: _ => next ≠ octet '_'
        | [] => false) && groupsSound false rest
    else groupsSound true rest

/-- The machine word that a text writes in any base. -/
def readWord (t : Text) : Except NumberFault Int := do
  let (negative, octets) := Decimal.takeSign t.octets
  if octets.isEmpty then .error .notNumber
  else
    let (base, digits, marked) := splitBase octets
    let n ← match magnitudeFrom base true 0 digits with
      | .error .notNumber => .error .notNumber
      | .error .outOfRange => .error .outOfRange
      | .ok n => if groupsSound (marked || octets.head? = some (octet '0')) digits then .ok n else .error .notNumber
    signedWord negative n

/-- The machine word that a text writes in base ten. -/
def readDecimalWord (t : Text) : Except NumberFault Int := do
  let (negative, digits) := Decimal.takeSign t.octets
  if digits.isEmpty then .error .notNumber
  else signedWord negative (← magnitudeFrom 10 false 0 digits)

/-- The text of what is wrong with a number. -/
def NumberFault.message : NumberFault → Text
  | .notNumber => "parse error"
  | .outOfRange => "value out of range"

/-- The text of what is wrong with a number in base ten. -/
def NumberFault.decimalMessage (fault : NumberFault) (t : Text) : Text :=
  "strconv.Atoi: parsing " ++ t.quoted ++ ": " ++
    (match fault with
      | .notNumber => "invalid syntax"
      | .outOfRange => "value out of range")

end Tenure.Command
