import Tenure.Typing.Ascription
import Tenure.Typing.Literal

/-!
# What a check can find

Each cause for complaint has a constructor, and one function gives the texts.
-/

set_option autoImplicit false

namespace Tenure

/-- A side of a binary operator. -/
inductive Side where
  | left
  | right
deriving DecidableEq, Repr

/-- Where a condition stands. -/
inductive ConditionPlace where
  | conditional
  | loop
deriving DecidableEq, Repr

/-- What a check complains about. -/
inductive CheckError where
  | duplicateFunction (name : Text)
  | noMain
  | missingAscription (owner : Text)
  | invalidAscription (owner : Text) (error : AscriptionError)
  | noBody (name : Text)
  | resultMismatch (name : Text) (got declared : Ty)
  | initialMismatch (got : Ty) (name : Text) (declared : Ty)
  | ascriptionNeeded (name : Text)
  | strayReturn
  | unknownLiteral (kind : Text)
  | literal (error : LiteralError)
  | unbound (name : Text)
  | numericOperand (side : Side) (op : Text) (got : Ty)
  | booleanOperand (side : Side) (op : Text) (got : Ty)
  | bitOperands (op : Text) (left right : Ty)
  | shiftOperands (op : Text) (left right : Ty)
  | unknownBinary (op : Text)
  | unknownComparison (op : Text)
  | unknownUnary (op : Text)
  | incomparable (left right : Ty)
  | unordered (t : Ty)
  | complementOperand (t : Ty)
  | negationOperand (t : Ty)
  | condition (place : ConditionPlace) (got : Ty)
  | branchMismatch (thenType elseType : Ty)
  | notFunction (t : Ty)
  | argumentCount (expected got : Nat)
  | argumentType (number : Nat) (expected got : Ty)
  | undeclaredTarget (name : Text)
  | immutableTarget (name : Text)
  | targetType (value : Ty) (name : Text) (declared : Ty)
  | notReference (t : Ty)
  | immutableReference
  | referenceType (value reference : Ty)
  | targetForm
  | mutableBorrow (name : Text)
  | malformed (tag : Text)
deriving DecidableEq, Repr

namespace CheckError

/-- The word for a side at the start of a sentence. -/
def sideText : Side → Text
  | .left => "Left"
  | .right => "Right"

/-- The word for the place of a condition at the start of a sentence. -/
def placeText : ConditionPlace → Text
  | .conditional => "If"
  | .loop => "Loop"

/-- The text of a complaint. -/
def message : CheckError → Text
  | .duplicateFunction name => "Function " ++ name ++ " is defined more than once"
  | .noMain => "No main function found"
  | .missingAscription owner => "Missing type annotation for " ++ owner
  | .invalidAscription owner e => "Invalid type for " ++ owner ++ ": " ++ e.message
  | .noBody name => "Function " ++ name ++ " has no body"
  | .resultMismatch name got declared =>
    "Function " ++ name ++ " returns " ++ got.text ++ ", but its declared return type is " ++ declared.text
  | .initialMismatch got name declared =>
    "Cannot assign value of type " ++ got.text ++ " to variable " ++ name ++ " of type " ++ declared.text
  | .ascriptionNeeded name => "Type annotations needed for " ++ name
  | .strayReturn => "return outside of a function"
  | .unknownLiteral kind => "Unknown literal type: " ++ kind.quoted
  | .literal e => e.message
  | .unbound name => "Unassigned name: " ++ name
  | .numericOperand side op got =>
    sideText side ++ " operand of " ++ op ++ " must be numeric, got " ++ got.text
  | .booleanOperand side op got =>
    sideText side ++ " operand of " ++ op ++ " must be boolean, got " ++ got.text
  | .bitOperands op left right =>
    "Operands of " ++ op ++ " must both be boolean or both be i32, got " ++ left.text ++ " and " ++ right.text
  | .shiftOperands op left right =>
    "Operands of " ++ op ++ " must be i32, got " ++ left.text ++ " and " ++ right.text
  | .unknownBinary op => "Unknown binary operator: " ++ op
  | .unknownComparison op => "Unknown comparison operator: " ++ op
  | .unknownUnary op => "Unknown unary operator: " ++ op
  | .incomparable left right =>
    "Cannot compare values of different types (" ++ left.text ++ " with " ++ right.text ++ ")"
  | .unordered t => "Cannot order values of type " ++ t.text
  | .complementOperand t => "Cannot apply ! to non-boolean type: " ++ t.text
  | .negationOperand t => "Cannot apply - to non-numeric type: " ++ t.text
  | .condition place got => placeText place ++ " condition must be boolean, got " ++ got.text
  | .branchMismatch thenType elseType =>
    "Mismatched types in if/else expression: " ++ thenType.text ++ " vs " ++ elseType.text
  | .notFunction t => "Cannot call non-function type: " ++ t.text
  | .argumentCount expected got =>
    "Function expected " ++ Text.ofNat expected ++ " arguments but got " ++ Text.ofNat got
  | .argumentType number expected got =>
    "Function argument " ++ Text.ofNat number ++ " expected " ++ expected.text ++ " but got " ++ got.text
  | .undeclaredTarget name => "Cannot assign to undeclared variable '" ++ name ++ "'"
  | .immutableTarget name => "Cannot assign to immutable variable '" ++ name ++ "'."
  | .targetType value name declared =>
    "Cannot assign value of type '" ++ value.text ++ "' to variable '" ++ name ++ "' of type '" ++
      declared.text ++ "'"
  | .notReference t => "Cannot dereference non-reference type: '" ++ t.text ++ "'"
  | .immutableReference => "Cannot assign through an immutable reference."
  | .referenceType value reference =>
    "Cannot assign value of type '" ++ value.text ++ "' to a reference of type '" ++ reference.text ++ "'"
  | .targetForm => "Left side of assignment must be a variable or a dereferenced reference"
  | .mutableBorrow name => "Cannot create mutable reference to immutable variable '" ++ name ++ "'"
  | .malformed tag => "Malformed " ++ tag ++ " node"

end CheckError

end Tenure
