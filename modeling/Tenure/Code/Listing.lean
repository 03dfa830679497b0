import Tenure.Code.Instr

/-!
# Listings

A listing shows a program line by line. A line that a closure enters carries a function label, any other line
that a jump targets a plain label.
-/

set_option autoImplicit false

namespace Tenure.Program

/-- The version of the instruction set, shown in listings and stored in images. -/
def version : Nat := 1

/-- Whether some jump of a program targets an address. -/
def jumpsTo (p : Program) (address : Int) : Bool :=
  p.any fun i => i.op.has Operation.isJump && i.addr = address

/-- Whether some closure of a program starts at an address. -/
def entersAt (p : Program) (address : Int) : Bool :=
  p.any fun i => i.op.operation? = some .loadFunction && i.addr = address

/-- The label line in front of an instruction, if it has one. -/
def label (p : Program) (address : Nat) : Text :=
  if entersAt p address then "fn_" ++ Text.ofNat address ++ ":\n"
  else if jumpsTo p address then "L" ++ Text.ofNat address ++ ":\n"
  else ∅

/-- One instruction of a listing, with its label line. -/
def line (p : Program) (address : Nat) (i : Instr) : Text :=
  label p address ++ "  " ++ (Text.ofNat address).padLeft '0' 4 ++ "  " ++ i.text ++ "\n"

/-- The listing of a program under an optional name. -/
def listing (p : Program) (name : Text) : Text :=
  let title : Text := if name.isEmpty then ∅ else "; === " ++ name ++ " ===\n"
  title ++ "; Rivet Bytecode v" ++ Text.ofNat version ++ "\n" ++
    "; Instructions: " ++ Text.ofNat p.length ++ "\n\n" ++
    Text.concat (p.zipIdx.map fun (i, address) => line p address i)

end Tenure.Program
