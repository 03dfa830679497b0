import Tenure.Text.Basic

/-!
# Builtin functions

Every program runs inside a frame that holds the builtin functions. Their slots in it are fixed, so code refers to
them by position like to any other binding.
-/

set_option autoImplicit false

namespace Tenure

/-- The builtin functions, in the order of their slots in the outermost frame. -/
inductive Builtin where
  | abs
  | min
  | max
  | sqrt
deriving DecidableEq, Repr

namespace Builtin

/-- Every builtin, in slot order. -/
def all : List Builtin := [.abs, .min, .max, .sqrt]

/-- The name of a builtin. -/
def name : Builtin → String
  | .abs => "abs"
  | .min => "min"
  | .max => "max"
  | .sqrt => "sqrt"

/-- The number of arguments of a builtin. -/
def arity : Builtin → Int
  | .abs | .sqrt => 1
  | .min | .max => 2

/-- The names of the builtins, in slot order. -/
def names : List Text := all.map fun b => Text.ofString b.name

/-- The builtin of a slot. -/
def ofSlot? (id : Int) : Option Builtin := if 0 ≤ id then all[id.toNat]? else none

end Builtin

end Tenure
