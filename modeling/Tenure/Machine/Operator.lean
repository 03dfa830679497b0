import Tenure.Code.Builtin
import Tenure.Machine.State

/-!
# Operators and builtins

Operators on two integers use 32-bit arithmetic that wraps around; as soon as one operand is a floating point
number the operation is carried out in floating point. Numbers and characters are equal by value, all other values
by address, which for strings is equality of their texts.
-/

set_option autoImplicit false

namespace Tenure

open MachineM

/-- An integer as a 32-bit word; an integer outside the range gives the least word. -/
def wordOf (n : Int) : Int32 :=
  if -0x80000000 ≤ n ∧ n < 0x80000000 then Int32.ofInt n else Int32.minValue

/-- A binary operator on 32-bit integers. -/
def wordOperator (symbol : Text) (a b : Int32) : Except StepError Int32 :=
  if symbol = "+" then .ok (a + b)
  else if symbol = "-" then .ok (a - b)
  else if symbol = "*" then .ok (a * b)
  else if symbol = "/" then if b = 0 then .error .divisionByZero else .ok (a / b)
  else if symbol = "%" then if b = 0 then .error .divisionByZero else .ok (a % b)
  else if symbol = "&" then .ok (a &&& b)
  else if symbol = "|" then .ok (a ||| b)
  else if symbol = "^" then .ok (a ^^^ b)
  else if symbol = "<<" then .ok (a <<< (b &&& 31))
  else if symbol = ">>" then .ok (a >>> (b &&& 31))
  else .error (.unknownOperator symbol)

/-- A binary operator on floating point numbers. -/
def floatOperator (symbol : Text) (a b : Float) : Except StepError Float :=
  if symbol = "+" then .ok (a + b)
  else if symbol = "-" then .ok (a - b)
  else if symbol = "*" then .ok (a * b)
  else if symbol = "/" then if b == 0 then .error .divisionByZero else .ok (a / b)
  else if symbol = "%" then if b == 0 then .error .divisionByZero else .ok (Double.remainder a b)
  else .error (.unknownOperator symbol)

namespace Number

/-- Whether two numbers are equal in value. -/
def equal : Number → Number → Bool
  | .int a, .int b => a = b
  | a, b => a.toFloat == b.toFloat

/-- Whether one number is less than another. -/
def less : Number → Number → Bool
  | .int a, .int b => a < b
  | a, b => a.toFloat < b.toFloat

/-- Whether one number is at most another. -/
def atMost : Number → Number → Bool
  | .int a, .int b => a ≤ b
  | a, b => a.toFloat ≤ b.toFloat

/-- An arithmetic operator on numbers. -/
def operate (symbol : Text) : Number → Number → Except StepError Number
  | .int a, .int b => (wordOperator symbol (wordOf a) (wordOf b)).map fun r => .int r.toInt
  | a, b => (floatOperator symbol a.toFloat b.toFloat).map .float

/-- The number with its sign changed. -/
def negate : Number → Number
  | .int n => .int (-(wordOf n)).toInt
  | .float x => .float (-x)

/-- The absolute value of a number. -/
def magnitude : Number → Number
  | .int n => let w := wordOf n; .int (if w < 0 then -w else w).toInt
  | .float x => .float x.abs

/-- The square root of a number, as a floating point number. -/
def squareRoot (n : Number) : Number := .float n.toFloat.sqrt

end Number

namespace MachineM

/-- The truth value of a node that has to be one of the two. -/
def truthOf? (n : Node) : Option Bool :=
  match n.content with
  | .truth => some true
  | .falsity => some false
  | _ => none

/-- A new number node. -/
def newNumber (n : Number) : MachineM Address := onHeap (HeapM.number n)

/-- The result of a computation that may fail. -/
def ofResult {α : Type} : Except StepError α → MachineM α
  | .ok a => pure a
  | .error e => fail e

/-- Whether two values are equal. -/
def equal (x y : Address) : MachineM Bool := do
  if x = y then pure true
  else
    let nx ← nodeAt x
    let ny ← nodeAt y
    match nx.content, ny.content with
    | .number a, .number b => pure (a.equal b)
    | .char a, .char b => pure (a = b)
    | _, _ => pure false

/-- An operator on two truth values. -/
def onTruths (symbol : Text) (x y : Address) (f : Bool → Bool → Bool) : MachineM Address := do
  let nx ← nodeAt x
  let ny ← nodeAt y
  match truthOf? nx, truthOf? ny with
  | some a, some b => pure (Heap.ofBool (f a b))
  | _, _ => fail (.binaryOperands nx.kind symbol ny.kind)

/-- The comparison that an ordering symbol stands for, given the two orders. -/
def ordering? (symbol : Text) (less atMost moreThan atLeast : Bool) : Option Bool :=
  if symbol = "<" then some less
  else if symbol = "<=" then some atMost
  else if symbol = ">" then some moreThan
  else if symbol = ">=" then some atLeast
  else none

/-- An operator on two characters or two numbers. -/
def onValues (symbol : Text) (x y : Address) : MachineM Address := do
  let nx ← nodeAt x
  let ny ← nodeAt y
  match nx.content, ny.content with
  | .char a, .char b =>
    match ordering? symbol (a < b) (a ≤ b) (b < a) (b ≤ a) with
    | some r => pure (Heap.ofBool r)
    | none => fail (.binaryOperands .char symbol .char)
  | .number a, .number b =>
    match ordering? symbol (a.less b) (a.atMost b) (b.less a) (b.atMost a) with
    | some r => pure (Heap.ofBool r)
    | none => do newNumber (← ofResult (a.operate symbol b))
  | _, _ => fail (.binaryOperands nx.kind symbol ny.kind)

/-- A binary operator. The operators on bits are also operators on truth values, by the kind of the left
operand. -/
def binary (symbol : Text) (x y : Address) : MachineM Address := do
  if symbol = "==" then return Heap.ofBool (← equal x y)
  else if symbol = "!=" then return Heap.ofBool (!(← equal x y))
  else if symbol = "&&" then onTruths symbol x y (· && ·)
  else if symbol = "||" then onTruths symbol x y (· || ·)
  else if symbol = "&" ∨ symbol = "|" ∨ symbol = "^" then
    if (← kindAt x) = .number then onValues symbol x y
    else if symbol = "&" then onTruths symbol x y (· && ·)
    else if symbol = "|" then onTruths symbol x y (· || ·)
    else onTruths symbol x y (· != ·)
  else onValues symbol x y

/-- A unary operator. -/
def unary (symbol : Text) (x : Address) : MachineM Address := do
  if symbol = "-" then
    let n ← nodeAt x
    match n.content with
    | .number v => newNumber v.negate
    | _ => fail (.unaryOperand symbol n.kind)
  else if symbol = "!" then
    let n ← nodeAt x
    match n.content with
    | .truth => pure Heap.falsity
    | .falsity => pure Heap.truth
    | .number (.int v) => newNumber (.int (~~~(wordOf v)).toInt)
    | _ => fail (.unaryOperand symbol n.kind)
  else fail (.unknownOperator symbol)

end MachineM

namespace Builtin

/-- An argument that has to be a number. -/
def numberArgument (b : Builtin) (a : Address) : MachineM Number := do
  let n ← nodeAt a
  match n.content with
  | .number v => pure v
  | _ => fail (.builtinOperand (Text.ofString b.name) n.kind)

/-- Whichever of two arguments a test prefers. -/
def pick (b : Builtin) (x y : Address) (keepFirst : Number → Number → Bool) : MachineM Address := do
  let u ← b.numberArgument x
  let v ← b.numberArgument y
  pure (if keepFirst u v then x else y)

/-- Applies a builtin to its arguments. -/
def apply (b : Builtin) (arguments : List Address) : MachineM Address :=
  match b, arguments with
  | .abs, [x] => do newNumber (← b.numberArgument x).magnitude
  | .min, [x, y] => b.pick x y fun u v => u.atMost v
  | .max, [x, y] => b.pick x y fun u v => v.atMost u
  | .sqrt, [x] => do newNumber (← b.numberArgument x).squareRoot
  | _, _ => crash

end Builtin

end Tenure
