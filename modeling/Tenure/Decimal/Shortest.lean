import Tenure.Double.Basic

/-!
# The shortest decimal that reads back

Among the decimals that round to a given binary number, the ones with the fewest digits are preferred, and of
those the nearest to the number; a tie goes to the even last digit. All arithmetic is exact.
-/

set_option autoImplicit false

namespace Tenure.Decimal

open Tenure.Double (Format powerOfTwo)

/-- A positive decimal: an integer times a power of ten. -/
structure Digits where
  coefficient : Nat
  exponent : Int
deriving DecidableEq, Repr

/-- A power of ten with an exponent that may be negative, as a quotient. -/
def powerOfTen (e : Int) : Nat × Nat := (Nat.pow 10 e.toNat, Nat.pow 10 (-e).toNat)

/-- The reals that round to a number: between two quotients over one denominator, ends included or not. -/
structure Interval where
  low : Nat
  middle : Nat
  high : Nat
  denominator : Nat
  closed : Bool

/-- The interval of reals that round to `m * 2 ^ q`. Below a power of two the spacing is halved. -/
def roundingInterval (f : Format) (m : Nat) (q : Int) : Interval :=
  let (up, down) := powerOfTwo (q - 2)
  let below := if m = Nat.pow 2 (f.precision - 1) ∧ f.leastExponent < q then 1 else 2
  { low := (4 * m - below) * up, middle := 4 * m * up, high := (4 * m + 2) * up,
    denominator := down, closed := m % 2 = 0 }

/-- Whether a decimal lies in an interval. -/
def Interval.holds (i : Interval) (d : Digits) : Bool :=
  let (up, down) := powerOfTen d.exponent
  let point := d.coefficient * up * i.denominator
  let low := i.low * down
  let high := i.high * down
  if i.closed then low ≤ point && point ≤ high else low < point && point < high

/-- How many places left of the point the first digit of the middle of an interval has, less one. -/
def Interval.magnitude (i : Interval) : Int :=
  ((Nat.toDigits 10 (i.middle * Nat.pow 10 340 / i.denominator)).length : Int) - 341

/-- The better of the two decimals of `count` digits around the middle that read back, if one does. -/
def Interval.candidate? (i : Interval) (count : Nat) : Option Digits :=
  let exponent := i.magnitude - count + 1
  let (up, down) := powerOfTen exponent
  let num := i.middle * down
  let den := i.denominator * up
  let below : Digits := ⟨num / den, exponent⟩
  let above : Digits := ⟨num / den + 1, exponent⟩
  if i.holds below then
    if i.holds above then
      let nearest := Double.roundQuotient num den
      some ⟨nearest, exponent⟩
    else some below
  else if i.holds above then some above
  else none

/-- A decimal with the zeros at the end of its coefficient moved into the exponent. -/
def Digits.strip : Nat → Digits → Digits
  | 0, d => d
  | fuel + 1, d =>
    if d.coefficient ≠ 0 ∧ d.coefficient % 10 = 0 then
      Digits.strip fuel ⟨d.coefficient / 10, d.exponent + 1⟩
    else d

/-- The shortest decimal that rounds to `m * 2 ^ q`, where `m` is not zero. Seventeen digits always suffice
for doubles, and nine for singles. -/
def shortest (f : Format) (m : Nat) (q : Int) : Digits :=
  let i := roundingInterval f m q
  match (List.range 17).findSome? fun k => i.candidate? (k + 1) with
  | some d => d.strip 20
  | none => ⟨m, q⟩

end Tenure.Decimal
