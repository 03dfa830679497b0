/-!
# Binary floating point as exact numbers

A finite double is a significand times a power of two. This module takes doubles apart, rounds an exact
quotient to the nearest double with ties to the even significand, and computes the exact remainder of a
division. A `Format` names the precision and the least exponent, so that the narrower single format is
handled by the same rules.
-/

set_option autoImplicit false

namespace Tenure.Double

/-- A binary format: significands have fewer than `precision` bits, exponents start at `leastExponent`. -/
structure Format where
  precision : Nat
  leastExponent : Int
deriving DecidableEq, Repr

/-- The format of doubles. -/
def Format.double : Format := ⟨53, -1074⟩

/-- The format of singles. -/
def Format.single : Format := ⟨24, -149⟩

/-- The format of halves. -/
def Format.half : Format := ⟨11, -24⟩

/-- What a floating point number stands for. -/
inductive Value where
  | nan
  | infinite (negative : Bool)
  | finite (negative : Bool) (significand : Nat) (exponent : Int)
deriving DecidableEq, Repr

/-- The value of an encoding with the given number of exponent bits. -/
def Format.decode (f : Format) (exponentBits bits : Nat) : Value :=
  let fraction := bits % Nat.pow 2 (f.precision - 1)
  let exponent := bits / Nat.pow 2 (f.precision - 1) % Nat.pow 2 exponentBits
  let negative := bits / Nat.pow 2 (f.precision - 1 + exponentBits) = 1
  if exponent = Nat.pow 2 exponentBits - 1 then
    if fraction = 0 then .infinite negative else .nan
  else if exponent = 0 then .finite negative fraction f.leastExponent
  else .finite negative (fraction + Nat.pow 2 (f.precision - 1)) (f.leastExponent + exponent - 1)

/-- The value of a double. -/
def value (x : Float) : Value := Format.double.decode 11 x.toBits.toNat

/-- The value of a single. -/
def singleValue (x : Float32) : Value := Format.single.decode 8 x.toBits.toNat

/-- A power of two with an exponent that may be negative, as a quotient. -/
def powerOfTwo (e : Int) : Nat × Nat := (Nat.pow 2 e.toNat, Nat.pow 2 (-e).toNat)

/-- A quotient rounded to the nearest natural number, a half to the even one. -/
def roundQuotient (num den : Nat) : Nat :=
  let low := num / den
  let rest := 2 * (num % den)
  if rest < den then low
  else if den < rest then low + 1
  else low + low % 2

/-- The binary exponent at which a positive quotient is rounded: the least one that leaves the significand
inside the precision. -/
def roundingExponent (f : Format) (num den : Nat) : Int :=
  let guess : Int := (Nat.log2 num : Int) - (Nat.log2 den : Int) - (f.precision : Int)
  let (up, down) := powerOfTwo guess
  let exponent := if num * down / (den * up) < Nat.pow 2 f.precision then guess else guess + 1
  max exponent f.leastExponent

/-- The encoding, without sign, of the number of a format nearest to a quotient, ties to the even
significand; a quotient past the largest finite number gives the encoding of infinity or more. -/
def encodeNearest (f : Format) (num den : Nat) : Nat :=
  if num = 0 then 0
  else
    let exponent := roundingExponent f num den
    let (up, down) := powerOfTwo exponent
    let significand := roundQuotient (num * down) (den * up)
    (exponent - f.leastExponent).toNat * Nat.pow 2 (f.precision - 1) + significand

/-- The encoding of positive infinity. -/
def infinityBits : Nat := 0x7ff0000000000000

/-- The double nearest to a signed quotient, or nothing if it is past the largest finite double. -/
def nearest? (negative : Bool) (num den : Nat) : Option Float :=
  let bits := encodeNearest .double num den
  if bits < infinityBits then
    some (Float.ofBits (bits + if negative then 0x8000000000000000 else 0).toUInt64)
  else none

/-- Positive or negative infinity. -/
def infinity (negative : Bool) : Float :=
  Float.ofBits (infinityBits + if negative then 0x8000000000000000 else 0).toUInt64

/-- The quiet not-a-number value. -/
def nan : Float := Float.ofBits 0x7ff8000000000000

/-- The zero of a given sign. -/
def zero (negative : Bool) : Float := Float.ofBits (if negative then 0x8000000000000000 else 0)

/-- The double nearest to a value of some format. -/
def ofValue : Value → Float
  | .nan => nan
  | .infinite negative => infinity negative
  | .finite negative m e =>
    let (up, down) := powerOfTwo e
    match nearest? negative (m * up) down with
    | some x => x
    | none => infinity negative

/-- The encoding of a finite number in a format, if the format holds it exactly. -/
def Format.exact? (f : Format) (exponentBits : Nat) (negative : Bool) (m : Nat) (e : Int) : Option Nat :=
  let (up, down) := powerOfTwo e
  let bits := encodeNearest f (m * up) down
  match f.decode exponentBits bits with
  | .finite _ n g =>
    let (up', down') := powerOfTwo g
    if m * up * down' = n * up' * down then
      some (bits + if negative then Nat.pow 2 (f.precision - 1 + exponentBits) else 0)
    else none
  | _ => none

/-- The integer that a double holds, if it is finite and has no fraction. -/
def integer? (x : Float) : Option Int :=
  match value x with
  | .finite negative m e =>
    let (up, down) := powerOfTwo e
    if m * up % down = 0 then
      let n : Int := (m * up / down : Nat)
      some (if negative then -n else n)
    else none
  | _ => none

/-- The double nearest to an integer; every integer that is asked about here is far below the largest. -/
def ofInt (n : Int) : Float :=
  match nearest? (n < 0) n.natAbs 1 with
  | some x => x
  | none => infinity (n < 0)

/-- An integer rounded to the nearest one that a double can hold, ties to the even significand. -/
def roundInt (n : Int) : Int :=
  let exponent := roundingExponent .double n.natAbs 1
  if exponent ≤ 0 then n
  else
    let unit := Nat.pow 2 exponent.toNat
    let rounded : Int := (roundQuotient n.natAbs unit * unit : Nat)
    if n < 0 then -rounded else rounded

/-- The remainder of a division whose quotient is cut toward zero; it has the sign of the dividend. The
divisor is not zero. -/
def remainder (x y : Float) : Float :=
  match value x, value y with
  | .finite negative m e, .finite _ n g =>
    let least := min e g
    let a := m * Nat.pow 2 (e - least).toNat
    let b := n * Nat.pow 2 (g - least).toNat
    let (up, down) := powerOfTwo least
    match nearest? negative (a % b * up) down with
    | some r => r
    | none => nan
  | .finite _ _ _, .infinite _ => x
  | _, _ => nan

end Tenure.Double
