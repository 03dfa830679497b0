import Tenure.Double.Basic
import Tenure.Text.Basic

/-!
# Reading numerals

Integer numerals with an optional sign and a base mark, and floating point numerals in decimal or hexadecimal
notation. A floating point numeral is rounded to the nearest double, and one past the largest double is not a
numeral.
-/

set_option autoImplicit false

namespace Tenure.Decimal

open Text (octet isDigit digitValue? lowerOctet)

/-- An optional sign, and the rest. -/
def takeSign : List UInt8 → Bool × List UInt8
  | c :: rest => if c = octet '-' then (true, rest) else if c = octet '+' then (false, rest) else (false, c :: rest)
  | [] => (false, [])

/-- The number written by digits of a base, if all octets are such digits. -/
def digitsValue? (base : Nat) (digits : List UInt8) : Option Nat :=
  digits.foldl (fun value b => do
    let v ← value
    let d ← digitValue? b
    if d < base then some (base * v + d) else none) (some 0)

/-- The magnitude of an unsigned integer numeral: `0b`, `0o` and `0x` mark the base, another leading zero marks
base eight. -/
def magnitude? : List UInt8 → Option Nat
  | [] => none
  | c :: rest =>
    if c = octet '0' then
      match rest with
      | mark :: digit :: more =>
        if lowerOctet mark = octet 'b' then digitsValue? 2 (digit :: more)
        else if lowerOctet mark = octet 'o' then digitsValue? 8 (digit :: more)
        else if lowerOctet mark = octet 'x' then digitsValue? 16 (digit :: more)
        else digitsValue? 8 rest
      | _ => digitsValue? 8 rest
    else digitsValue? 10 (c :: rest)

/-- The integer that a numeral writes, if it fits 64 bits. -/
def readInt? (t : Text) : Option Int := do
  let (negative, rest) := takeSign t.octets
  let n ← magnitude? rest
  if negative then
    if n ≤ 0x8000000000000000 then some (-(n : Int)) else none
  else if n < 0x8000000000000000 then some n else none

/-- The digits of a significand with at most one point: the number that they write without the point, how many there
are, how many from the first that is not zero on, and how many follow the point. -/
structure Significand where
  value : Nat
  digits : Nat
  significant : Nat
  fraction : Nat
  pointed : Bool

/-- Reads the digits and the point of a significand; stops at the first other octet. -/
def takeSignificand (base : Nat) (acc : Significand) : List UInt8 → Significand × List UInt8
  | [] => (acc, [])
  | c :: rest =>
    if c = octet '.' ∧ acc.pointed = false then
      takeSignificand base { acc with pointed := true } rest
    else
      match digitValue? c with
      | some d =>
        if d < base then
          takeSignificand base
            { acc with
              value := base * acc.value + d
              digits := acc.digits + 1
              significant := if acc.value = 0 ∧ d = 0 then 0 else acc.significant + 1
              fraction := if acc.pointed then acc.fraction + 1 else acc.fraction } rest
        else (acc, c :: rest)
      | none => (acc, c :: rest)

/-- The number of an exponent: digits after the number has reached ten thousand do not count. -/
def exponentValue (digits : List UInt8) : Nat :=
  digits.foldl (fun n b => if n < 10000 then 10 * n + (b.toNat - 48) else n) 0

/-- The exponent after its mark, which must take up the rest: a sign and at least one digit. -/
def readExponent? (octets : List UInt8) : Option Int :=
  let (negative, digits) := takeSign octets
  if digits.isEmpty ∨ !digits.all isDigit then none
  else
    let n : Int := exponentValue digits
    some (if negative then -n else n)

/-- The double nearest to the decimal digits of a significand, read as an integer, times `10 ^ e`. From the place of the
first digit it is plain which numerals are past all doubles and which are nearest to zero. -/
def Significand.scaleTen? (negative : Bool) (s : Significand) (e : Int) : Option Float :=
  let place := s.significant + e
  if s.value = 0 then some (Double.zero negative)
  else if 310 < place then none
  else if place < -330 then some (Double.zero negative)
  else Double.nearest? negative (s.value * Nat.pow 10 e.toNat) (Nat.pow 10 (-e).toNat)

/-- The double nearest to the hexadecimal digits of a significand, read as an integer, times `2 ^ e`. -/
def Significand.scaleTwo? (negative : Bool) (s : Significand) (e : Int) : Option Float :=
  let place := 4 * s.significant + e
  if s.value = 0 then some (Double.zero negative)
  else if 1100 < place then none
  else if place < -1100 then some (Double.zero negative)
  else Double.nearest? negative (s.value * Nat.pow 2 e.toNat) (Nat.pow 2 (-e).toNat)

/-- An empty significand. -/
def Significand.start : Significand := ⟨0, 0, 0, 0, false⟩

/-- A decimal floating point numeral after its sign. -/
def readDecimal? (negative : Bool) (octets : List UInt8) : Option Float := do
  let (s, rest) := takeSignificand 10 .start octets
  if s.digits = 0 then none
  else
    match rest with
    | [] => s.scaleTen? negative (-(s.fraction : Int))
    | c :: rest =>
      if lowerOctet c = octet 'e' then do
        let e ← readExponent? rest
        s.scaleTen? negative (e - s.fraction)
      else none

/-- A hexadecimal floating point numeral after its sign and base mark; the binary exponent is mandatory. -/
def readHexadecimal? (negative : Bool) (octets : List UInt8) : Option Float := do
  let (s, rest) := takeSignificand 16 .start octets
  if s.digits = 0 then none
  else
    match rest with
    | c :: rest =>
      if lowerOctet c = octet 'p' then do
        let e ← readExponent? rest
        s.scaleTwo? negative (e - 4 * s.fraction)
      else none
    | [] => none

/-- The double that a numeral writes: a decimal or hexadecimal numeral, an infinity, or not-a-number without a
sign. -/
def readFloat? (t : Text) : Option Float :=
  let (negative, rest) := takeSign t.octets
  let word := rest.map lowerOctet
  if word = Text.octets "inf" ∨ word = Text.octets "infinity" then some (Double.infinity negative)
  else if t.octets.map lowerOctet = Text.octets "nan" then some Double.nan
  else
    match rest with
    | z :: x :: c :: more =>
      if z = octet '0' ∧ lowerOctet x = octet 'x' then readHexadecimal? negative (c :: more)
      else readDecimal? negative rest
    | _ => readDecimal? negative rest

/-- The truth value that a numeral or word writes. -/
def readBool? (t : Text) : Option Bool :=
  if ["1", "t", "T", "TRUE", "true", "True"].any fun w => t = Text.ofString w then some true
  else if ["0", "f", "F", "FALSE", "false", "False"].any fun w => t = Text.ofString w then some false
  else none

end Tenure.Decimal
