import Tenure.Code.Opcode
import Tenure.Text.Quoted
import Tenure.Decimal.Layout

/-!
# Instructions

An instruction is an opcode with all operands an operation could want; which of them matter depends on the
operation. Images keep every operand, so they are all part of the instruction.
-/

set_option autoImplicit false

namespace Tenure

/-- A slot of an environment: the frame, counted from the outermost, and the slot in that frame. -/
structure Position where
  frame : Int
  slot : Int
deriving DecidableEq, Repr, Inhabited

/-- A position as listings show it. -/
def Position.text (p : Position) : Text :=
  "(" ++ Text.ofInt p.frame ++ "," ++ Text.ofInt p.slot ++ ")"

/-- The most slots of a frame. -/
def maxFrameSlots : Nat := 9

/-- The most frames of an environment. -/
def maxFrames : Nat := 9

/-- A literal operand: a kind, and one field for each form of payload. -/
structure Literal where
  kind : UInt8 := 0
  int : Int := 0
  float : Float := 0
  bool : Bool := false
  str : Text := ∅
deriving DecidableEq, Repr, Inhabited

namespace Literal

/-- The kind of the unit literal. -/
def unitKind : UInt8 := 0

/-- The kind of truth values. -/
def boolKind : UInt8 := 1

/-- The kind of integers. -/
def intKind : UInt8 := 2

/-- The kind of floating point numbers. -/
def floatKind : UInt8 := 3

/-- The kind of characters. -/
def charKind : UInt8 := 4

/-- The kind of strings. -/
def stringKind : UInt8 := 5

/-- The unit literal. -/
def unit : Literal := { kind := unitKind }

/-- The literal of a truth value. -/
def ofBool (b : Bool) : Literal := { kind := boolKind, bool := b }

/-- The literal of an integer. -/
def ofInt (n : Int) : Literal := { kind := intKind, int := n }

/-- The literal of a floating point number. -/
def ofFloat (x : Float) : Literal := { kind := floatKind, float := x }

/-- The literal of a character, by its code. -/
def ofCode (code : Int) : Literal := { kind := charKind, int := code }

/-- The literal of a string. -/
def ofText (t : Text) : Literal := { kind := stringKind, str := t }

/-- A wide integer cut to the code of a character: the low 32 bits, signed. -/
def code (l : Literal) : Int := l.int.bmod 0x100000000

/-- A literal as listings show it. -/
def text (l : Literal) : Text :=
  if l.kind = unitKind then "()"
  else if l.kind = boolKind then Text.ofBool l.bool
  else if l.kind = intKind then Text.ofInt l.int
  else if l.kind = floatKind then Decimal.general l.float
  else if l.kind = charKind then Text.quotedCode l.code
  else if l.kind = stringKind then Text.quoted l.str
  else "?"

end Literal

/-- An instruction: an opcode and its operands. -/
structure Instr where
  op : Opcode
  val : Literal := {}
  pos : Position := ⟨0, 0⟩
  addr : Int := 0
  arity : Int := 0
  num : Int := 0
  sym : Text := ∅
  mutable : Bool := false
deriving DecidableEq, Repr, Inhabited

namespace Instr

/-- The instruction of an operation without operands. -/
def plain (o : Operation) : Instr := { op := .of o }

/-- Push a literal. -/
def loadConstant (l : Literal) : Instr := { op := .of .loadConstant, val := l }

/-- Push the value of a slot. -/
def load (p : Position) : Instr := { op := .of .load, pos := p }

/-- Store the top of the operands into a slot. -/
def assign (p : Position) : Instr := { op := .of .assign, pos := p }

/-- Empty a slot. -/
def drop (p : Position) : Instr := { op := .of .drop, pos := p }

/-- Push a reference to a slot. -/
def reference (p : Position) (mutable : Bool) : Instr :=
  { op := .of .reference, pos := p, mutable := mutable }

/-- Jump unless the popped condition holds. -/
def jumpUnless (target : Int) : Instr := { op := .of .jumpUnless, addr := target }

/-- Jump. -/
def jump (target : Int) : Instr := { op := .of .jump, addr := target }

/-- Apply a unary operator. -/
def unary (symbol : Text) : Instr := { op := .of .unary, sym := symbol }

/-- Apply a binary operator. -/
def binary (symbol : Text) : Instr := { op := .of .binary, sym := symbol }

/-- Call with a number of arguments. -/
def call (arity : Int) : Instr := { op := .of .call, arity := arity }

/-- Push a closure over the current environment. -/
def loadFunction (arity entry : Int) : Instr :=
  { op := .of .loadFunction, arity := arity, addr := entry }

/-- Open a block with a number of slots. -/
def enterScope (slots : Int) : Instr := { op := .of .enterScope, num := slots }

/-- The operands of an instruction as listings show them. -/
def operands (i : Instr) : Text :=
  match i.op.operation? with
  | some .loadConstant => " " ++ i.val.text
  | some .load | some .assign | some .drop => " " ++ i.pos.text
  | some .reference => " " ++ i.pos.text ++ (if i.mutable then " mut" else "")
  | some .jumpUnless | some .jump => " " ++ Text.ofInt i.addr
  | some .unary | some .binary => " " ++ i.sym
  | some .call => " " ++ Text.ofInt i.arity
  | some .loadFunction => " " ++ Text.ofInt i.arity ++ " " ++ Text.ofInt i.addr
  | some .enterScope => " " ++ Text.ofInt i.num
  | _ => ∅

/-- An instruction as listings show it. -/
def text (i : Instr) : Text := i.op.name ++ i.operands

end Instr

/-- A program: its instructions, in order. -/
abbrev Program := List Instr

end Tenure
