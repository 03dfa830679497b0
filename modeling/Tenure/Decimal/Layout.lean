import Tenure.Decimal.Shortest
import Tenure.Text.Basic

/-!
# How floating point numbers are written

The general layout writes the shortest digits, positionally while the decimal exponent lies in a fixed window
and in scientific notation outside it. The fixed layout writes all integer digits and one decimal place and is
used for numbers without a fraction.
-/

set_option autoImplicit false

namespace Tenure.Decimal

/-- The decisions of a number layout. -/
structure Layout where
  /-- The least decimal exponent written positionally. -/
  leastPositional : Int
  /-- The greatest decimal exponent written positionally. -/
  greatestPositional : Int
  /-- The least number of digits of a written exponent. -/
  exponentWidth : Nat

/-- Numbers from `0.0001` up to but not including a million are positional; exponents have two digits. -/
def Layout.general : Layout := ⟨-4, 5, 2⟩

/-- A sign for negative numbers. -/
def sign (negative : Bool) : Text := if negative then "-" else ∅

/-- Digits with the point after the first `places` of them, filled up with zeros on either side. -/
def positional (digits : List UInt8) (places : Int) : Text :=
  if places ≤ 0 then
    "0." ++ (⟨List.replicate (-places).toNat (Text.octet '0') ++ digits⟩ : Text)
  else if (digits.length : Int) ≤ places then
    ⟨digits ++ List.replicate (places.toNat - digits.length) (Text.octet '0')⟩
  else
    (⟨digits.take places.toNat⟩ : Text) ++ "." ++ ⟨digits.drop places.toNat⟩

/-- Digits in scientific notation. -/
def scientific (layout : Layout) (digits : List UInt8) (exponent : Int) : Text :=
  let fraction : Text :=
    match digits.drop 1 with
    | [] => ∅
    | more => "." ++ ⟨more⟩
  let magnitude := (Text.ofNat exponent.natAbs).padLeft '0' layout.exponentWidth
  (⟨digits.take 1⟩ : Text) ++ fraction ++ "e" ++ (if exponent < 0 then "-" else "+") ++ magnitude

/-- A positive decimal in a layout. -/
def Layout.write (layout : Layout) (d : Digits) : Text :=
  let digits := (Text.ofNat d.coefficient).octets
  let exponent := d.exponent + digits.length - 1
  if exponent < layout.leastPositional ∨ layout.greatestPositional < exponent then
    scientific layout digits exponent
  else positional digits (exponent + 1)

/-- The general text of a decoded number of a format. -/
def generalOf (f : Double.Format) : Double.Value → Text
  | .nan => "NaN"
  | .infinite negative => if negative then "-Inf" else "+Inf"
  | .finite negative m q =>
    if m = 0 then sign negative ++ "0" else sign negative ++ Layout.general.write (shortest f m q)

/-- The general text of a double. -/
def general (x : Float) : Text := generalOf .double (Double.value x)

/-- The general text of a single. -/
def generalSingle (x : Float32) : Text := generalOf .single (Double.singleValue x)

/-- The text of a double for display: a number without a fraction keeps one decimal place. -/
def display (x : Float) : Text :=
  match Double.integer? x, Double.value x with
  | some n, .finite negative _ _ => sign negative ++ Text.ofNat n.natAbs ++ ".0"
  | _, _ => general x

end Tenure.Decimal
