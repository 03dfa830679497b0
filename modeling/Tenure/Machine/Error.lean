import Tenure.Heap.Basic

/-!
# Errors of a run

Why a single instruction fails, why a run ends, and the texts of both. An error of an instruction is shown with
the address and the text of that instruction.
-/

set_option autoImplicit false

namespace Tenure

/-- Why an instruction fails. -/
inductive StepError where
  | heap (e : HeapError)
  /-- The environment has no such frame. -/
  | unboundFrame (pos : Position)
  /-- The frame has no such slot. -/
  | unboundSlot (pos : Position)
  /-- The slot holds no value. -/
  | unassigned (pos : Position)
  | divisionByZero
  | notReference (kind : Kind)
  | immutableReference
  | builtinArity (name : Text) (expected got : Int)
  | functionArity (expected got : Int)
  | notCallable (kind : Kind)
  | unknownInstruction (op : Opcode)
  | unknownOperator (symbol : Text)
  | conditionKind (kind : Kind)
  | binaryOperands (left : Kind) (symbol : Text) (right : Kind)
  | unaryOperand (symbol : Text) (kind : Kind)
  | builtinOperand (name : Text) (kind : Kind)
  | stackUnderflow
  | noBlockFrame
  | resetOutsideCall
  | resetOn (kind : Kind)
deriving DecidableEq, Repr

/-- Why a run ends without a result. -/
inductive RunError where
  | counterOutOfRange (pc : Int)
  | stepLimit (limit : Nat)
  | canceled (pc : Int)
  | step (pc : Int) (instr : Instr) (error : StepError)
deriving DecidableEq, Repr

/-- The text of a heap error. -/
def HeapError.message : HeapError → Text
  | .exhausted => "heap memory exhausted"
  | .tooLarge => "limitation: nodes cannot be larger than 10 words"
  | .unrepresentable => "no heap representation for vm.Reference"
  | .unknownLiteral kind => "unknown instruction: literal kind " ++ Text.ofNat kind.toNat

/-- The text of an instruction's error. -/
def StepError.message : StepError → Text
  | .heap e => e.message
  | .unboundFrame pos => "access of unassigned name: unbound frame at " ++ pos.text
  | .unboundSlot pos => "access of unassigned name: unbound slot at " ++ pos.text
  | .unassigned pos => "access of unassigned name at " ++ pos.text
  | .divisionByZero => "Division by zero"
  | .notReference kind => "dereferencing a non-reference: " ++ kind.text
  | .immutableReference => "cannot assign through an immutable reference"
  | .builtinArity name expected got =>
    "arity mismatch: " ++ name ++ " expects " ++ Text.ofInt expected ++ " arguments, got " ++ Text.ofInt got
  | .functionArity expected got =>
    "arity mismatch: function expects " ++ Text.ofInt expected ++ " arguments, got " ++ Text.ofInt got
  | .notCallable kind => "calling a non-function: " ++ kind.text
  | .unknownInstruction op => "unknown instruction: " ++ op.name
  | .unknownOperator symbol => "unknown operator: " ++ symbol.quoted
  | .conditionKind kind => "operand type mismatch: condition is " ++ kind.text
  | .binaryOperands left symbol right =>
    "operand type mismatch: " ++ left.text ++ " " ++ symbol ++ " " ++ right.text
  | .unaryOperand symbol kind => "operand type mismatch: " ++ symbol ++ kind.text
  | .builtinOperand name kind =>
    "operand type mismatch: " ++ name ++ " expects a number, got " ++ kind.text
  | .stackUnderflow => "operand stack underflow"
  | .noBlockFrame => "EXIT_SCOPE without a block frame"
  | .resetOutsideCall => "RESET outside of a function call"
  | .resetOn kind => "RESET on " ++ kind.text

/-- The text of a run's error. -/
def RunError.message : RunError → Text
  | .counterOutOfRange pc => "program counter " ++ Text.ofInt pc ++ " out of range"
  | .stepLimit limit => "step limit exceeded: " ++ Text.ofNat limit
  | .canceled pc => "pc " ++ Text.ofInt pc ++ ": context canceled"
  | .step pc instr error =>
    "pc " ++ Text.ofInt pc ++ " (" ++ instr.text ++ "): " ++ error.message

end Tenure
