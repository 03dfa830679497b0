import Tenure.Text.Basic

/-!
# Operation codes

An opcode is an octet. Eighteen octets name an operation of the machine; every other octet is kept, shown by
its value and refused when it is executed or loaded.
-/

set_option autoImplicit false

namespace Tenure

/-- The operations of the machine. -/
inductive Operation where
  /-- Push a literal. -/
  | loadConstant
  /-- Push the value of a slot. -/
  | load
  /-- Store the top of the operands into a slot and keep it. -/
  | assign
  /-- Empty a slot. -/
  | drop
  /-- Push a reference to a slot. -/
  | reference
  /-- Replace a reference by the value of the slot it points at. -/
  | dereference
  /-- Store a value through a reference and keep it. -/
  | updateReference
  /-- Pop a condition and jump if it is false. -/
  | jumpUnless
  /-- Jump. -/
  | jump
  /-- Apply a unary operator. -/
  | unary
  /-- Apply a binary operator. -/
  | binary
  /-- Call a closure or a builtin. -/
  | call
  /-- Return from the innermost call. -/
  | reset
  /-- Push a closure. -/
  | loadFunction
  /-- Open a block. -/
  | enterScope
  /-- Close a block. -/
  | exitScope
  /-- Discard the top of the operands. -/
  | pop
  /-- Stop. -/
  | done
deriving DecidableEq, Repr

namespace Operation

/-- The octet of an operation. -/
def code : Operation → UInt8
  | .loadConstant => 0x01
  | .load => 0x02
  | .assign => 0x03
  | .drop => 0x04
  | .reference => 0x10
  | .dereference => 0x11
  | .updateReference => 0x12
  | .jumpUnless => 0x20
  | .jump => 0x21
  | .unary => 0x30
  | .binary => 0x31
  | .call => 0x40
  | .reset => 0x41
  | .loadFunction => 0x42
  | .enterScope => 0x50
  | .exitScope => 0x51
  | .pop => 0x52
  | .done => 0x53

/-- The mnemonic of an operation in listings. -/
def mnemonic : Operation → String
  | .loadConstant => "LDC"
  | .load => "LD"
  | .assign => "ASSIGN"
  | .drop => "DROP"
  | .reference => "REF"
  | .dereference => "DEREF"
  | .updateReference => "UPDATE_REF"
  | .jumpUnless => "JOF"
  | .jump => "GOTO"
  | .unary => "UNOP"
  | .binary => "BINOP"
  | .call => "CALL"
  | .reset => "RESET"
  | .loadFunction => "LDF"
  | .enterScope => "ENTER_SCOPE"
  | .exitScope => "EXIT_SCOPE"
  | .pop => "POP"
  | .done => "DONE"

/-- Every operation, in the order of the octets. -/
def all : List Operation :=
  [.loadConstant, .load, .assign, .drop, .reference, .dereference, .updateReference, .jumpUnless, .jump,
   .unary, .binary, .call, .reset, .loadFunction, .enterScope, .exitScope, .pop, .done]

/-- The operation that an octet names, if any. -/
def ofCode? (b : UInt8) : Option Operation := all.find? fun o => o.code = b

theorem ofCode?_code (o : Operation) : ofCode? o.code = some o := by
  cases o <;> rfl

/-- Whether an operation may continue at the address it carries. -/
def isJump (o : Operation) : Bool := o = .jumpUnless || o = .jump

/-- Whether an operation carries a code address: a jump target or the entry of a function. -/
def usesAddress (o : Operation) : Bool := o.isJump || o = .loadFunction

/-- Whether an operation carries a slot position. -/
def usesPosition : Operation → Bool
  | .load | .assign | .drop | .reference => true
  | _ => false

end Operation

/-- An opcode: any octet. -/
structure Opcode where
  code : UInt8
deriving DecidableEq, Repr, Inhabited

namespace Opcode

/-- The opcode of an operation. -/
def of (o : Operation) : Opcode := ⟨o.code⟩

/-- The operation that an opcode stands for, if any. -/
def operation? (op : Opcode) : Option Operation := Operation.ofCode? op.code

@[simp] theorem operation?_of (o : Operation) : (of o).operation? = some o := Operation.ofCode?_code o

/-- The mnemonic of an opcode; an unassigned octet is shown by its value. -/
def name (op : Opcode) : Text :=
  match op.operation? with
  | some o => Text.ofString o.mnemonic
  | none => "OP_" ++ Text.ofHexUpper op.code.toNat 2

/-- Whether the opcode stands for an operation. -/
def isValid (op : Opcode) : Bool := op.operation?.isSome

/-- Whether the opcode stands for an operation with a given property. -/
def has (op : Opcode) (property : Operation → Bool) : Bool := op.operation?.any property

end Opcode

end Tenure
