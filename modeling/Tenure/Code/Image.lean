import Tenure.Cbor.Field
import Tenure.Code.Listing

/-!
# Program images

An image is the binary form of a program: a magic word, a version and the instructions. Operands that are zero,
empty or false are left out. Loading an image checks every instruction against the size of the program and the
size of heap nodes.
-/

set_option autoImplicit false

namespace Tenure

/-- Why an instruction cannot be part of a program. -/
inductive InstrError where
  | unknown (op : Opcode)
  | target (op : Opcode) (addr : Int) (size : Nat)
  | position (op : Opcode) (pos : Position)
  | slots (num : Int)
  | arity (count : Int)
deriving DecidableEq, Repr

/-- The text of an instruction's defect. -/
def InstrError.message : InstrError → Text
  | .unknown op => "unknown instruction: " ++ op.name
  | .target op addr size =>
    "malformed instruction: " ++ op.name ++ " target " ++ Text.ofInt addr ++ " outside program of " ++
      Text.ofNat size ++ " instructions"
  | .position op pos => "malformed instruction: " ++ op.name ++ " position " ++ pos.text
  | .slots num => "malformed instruction: ENTER_SCOPE " ++ Text.ofInt num
  | .arity count => "malformed instruction: CALL " ++ Text.ofInt count

/-- Checks that the operands of an instruction stay inside a program of a size and inside heap nodes. -/
def Instr.validate (i : Instr) (size : Nat) : Except InstrError Unit :=
  match i.op.operation? with
  | none => .error (.unknown i.op)
  | some o =>
    if o.usesAddress ∧ (i.addr < 0 ∨ (size : Int) < i.addr) then .error (.target i.op i.addr size)
    else if o.usesPosition ∧
        (i.pos.frame < 0 ∨ maxFrames ≤ i.pos.frame ∨ i.pos.slot < 0 ∨ maxFrameSlots ≤ i.pos.slot) then
      .error (.position i.op i.pos)
    else if o = .enterScope ∧ (i.num < 0 ∨ maxFrameSlots < i.num) then .error (.slots i.num)
    else if o = .call ∧ (i.arity < 0 ∨ maxFrameSlots < i.arity) then .error (.arity i.arity)
    else .ok ()

/-- Why an image cannot be loaded. -/
inductive ImageError where
  /-- The octets are not the form of an image. -/
  | format
  | magic (got : Text)
  | version (got : Int)
  | instr (index : Nat) (error : InstrError)
deriving DecidableEq, Repr

/-- The text of a failure to load an image. What is wrong with the form is not told apart. -/
def ImageError.message : ImageError → Text
  | .format => "vm: unmarshal program: "
  | .magic got => "invalid magic number: expected RVBC: got " ++ got.quoted
  | .version got =>
    "program version mismatch: expected " ++ Text.ofNat Program.version ++ ", got " ++ Text.ofInt got
  | .instr index error => "vm: instruction " ++ Text.ofNat index ++ ": " ++ error.message

namespace Image

open Cbor

/-- The word that opens every image. -/
def magic : Text := "RVBC"

/-- A numbered field, left out if it has its zero value. -/
def optional (n : Nat) (isZero : Bool) (item : Item) : List (Item × Item) :=
  if isZero then [] else [(.uint n, item)]

/-- The binary form of a literal. A negative zero counts as zero. -/
def ofLiteral (l : Literal) : Item :=
  .map ([(.uint 1, .uint l.kind.toNat)] ++ optional 2 (l.int = 0) (.ofInt l.int) ++
    optional 3 (l.float == 0) (.float l.float) ++ optional 4 (!l.bool) (.bool l.bool) ++
    optional 5 l.str.isEmpty (.text l.str))

/-- The binary form of a position. -/
def ofPosition (p : Position) : Item :=
  .map [(.uint 1, .ofInt p.frame), (.uint 2, .ofInt p.slot)]

/-- The binary form of an instruction. -/
def ofInstr (i : Instr) : Item :=
  .map ([(.uint 1, .uint i.op.code.toNat), (.uint 2, ofLiteral i.val), (.uint 3, ofPosition i.pos)] ++
    optional 4 (i.addr = 0) (.ofInt i.addr) ++ optional 5 (i.arity = 0) (.ofInt i.arity) ++
    optional 6 (i.num = 0) (.ofInt i.num) ++ optional 7 i.sym.isEmpty (.text i.sym) ++
    optional 8 (!i.mutable) (.bool i.mutable))

/-- The binary form of a program. -/
def ofProgram (p : Program) : Item :=
  .map [(.uint 1, .text magic), (.uint 2, .uint Program.version), (.uint 3, .array (p.map ofInstr))]

/-- The octets of a program's image. -/
def encode (p : Program) : List UInt8 := (ofProgram p).encode

/-- An octet. -/
def octet? (item : Item) : Option UInt8 := (item.int? 0 255).map fun n => n.toNat.toUInt8

/-- A 64-bit integer. -/
def word? (item : Item) : Option Int := item.int? (-0x8000000000000000) 0x7fffffffffffffff

/-- Reads a literal. -/
def toLiteral? (item : Item) : Option Literal := do
  let r ← Record.ofItem? item
  some {
    kind := ← r.read 1 0 octet?
    int := ← r.read 2 0 word?
    float := ← r.read 3 0 Item.float?
    bool := ← r.read 4 false Item.bool?
    str := ← r.read 5 ∅ Item.text? }

/-- Reads a position. -/
def toPosition? (item : Item) : Option Position := do
  let r ← Record.ofItem? item
  some ⟨← r.read 1 0 word?, ← r.read 2 0 word?⟩

/-- Reads an instruction. -/
def toInstr? (item : Item) : Option Instr := do
  let r ← Record.ofItem? item
  some {
    op := ⟨← r.read 1 0 octet?⟩
    val := ← r.read 2 {} toLiteral?
    pos := ← r.read 3 ⟨0, 0⟩ toPosition?
    addr := ← r.read 4 0 word?
    arity := ← r.read 5 0 word?
    num := ← r.read 6 0 word?
    sym := ← r.read 7 ∅ Item.text?
    mutable := ← r.read 8 false Item.bool? }

/-- Reads a list of instructions. -/
def toInstrs? (item : Item) : Option Program := do (← item.items?).mapM toInstr?

/-- What an image holds before it is checked. -/
structure Raw where
  magic : Text
  version : Int
  program : Program

/-- Reads an image without checking it. -/
def toRaw? (item : Item) : Option Raw := do
  let r ← Record.ofItem? item
  some {
    magic := ← r.read 1 ∅ Item.text?
    version := ← r.read 2 0 (Item.int? 0 65535)
    program := ← r.read 3 [] toInstrs? }

/-- Checks the instructions of a program in order. -/
def check (size : Nat) : Nat → Program → Except ImageError Unit
  | _, [] => .ok ()
  | index, i :: rest =>
    match i.validate size with
    | .error e => .error (.instr index e)
    | .ok () => check size (index + 1) rest

/-- Loads a program from the octets of an image. -/
def decode (octets : List UInt8) : Except ImageError Program :=
  match (Cbor.decode? octets).bind toRaw? with
  | none => .error .format
  | some raw =>
    if raw.magic ≠ magic then .error (.magic raw.magic)
    else if raw.version ≠ (Program.version : Int) then .error (.version raw.version)
    else
      match check raw.program.length 0 raw.program with
      | .error e => .error e
      | .ok () => .ok raw.program

end Image

end Tenure
