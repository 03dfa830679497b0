import Tenure.Machine.Step

/-!
# Running a program

`Machine.create` sets up a heap and the outermost frame of builtins. `Machine.advance` executes one instruction,
and `Machine.run` repeats it until the program stops. A run is bounded by a number of steps to look at, which is
not the step limit of the program: a run that has not ended by then says so.
-/

set_option autoImplicit false

namespace Tenure

/-- Why a machine cannot be set up. -/
inductive CreateError where
  | heap (fault : Heap.SizeFault)
  | prelude (stop : Stop StepError)
deriving DecidableEq, Repr

/-- The limits of a run. -/
structure Limits where
  /-- The largest number of instructions to execute; zero stands for no limit. -/
  steps : Nat := 0
  /-- Whether whoever asked for the run has given up on it. -/
  canceled : Bool := false
deriving DecidableEq, Repr, Inhabited

/-- How a run ends. -/
inductive Outcome where
  | value (v : Host)
  | failed (e : RunError)
  /-- The machine reached for something that is not there. -/
  | crashed
  /-- The run had not ended when it was last looked at. -/
  | unfinished
deriving Repr

namespace MachineM

/-- Allocates the builtins into the slots of a frame. -/
def fillPrelude (frame : Address) : HeapM Unit :=
  (List.range Builtin.all.length).forM fun i => do
    let b ← HeapM.builtin i
    HeapM.setChild frame i (some b)

/-- Makes the environment whose only frame holds the builtins the current one. -/
def loadPrelude : MachineM Unit := do
  let empty ← onHeap (HeapM.environment 0)
  setEnv empty
  let frame ← onHeap (HeapM.frame Builtin.all.length)
  let env ← onHeap (HeapM.pinning [some frame] do
    fillPrelude frame
    HeapM.extend (some frame) (some empty))
  setEnv env

end MachineM

namespace Machine

/-- A machine for a program with a heap of a size in words. -/
def create (digest : Text → UInt64) (program : Program) (words : Int) : Except CreateError Machine :=
  match Heap.create digest words with
  | .error fault => .error (.heap fault)
  | .ok heap =>
    match MachineM.loadPrelude { code := program.toArray, heap := heap } with
    | (.ok (), m) => .ok m
    | (.error stop, _) => .error (.prelude stop)

/-- What one instruction leads to: the run goes on, or it ends. -/
inductive Progress where
  | running (m : Machine)
  | ended (outcome : Outcome) (m : Machine)

/-- How often a run asks whether it is still wanted, in steps. -/
def cancelInterval : Nat := 1024

/-- The instruction at the program counter. -/
def fetch? (m : Machine) : Option Instr :=
  if 0 ≤ m.pc then m.code[m.pc.toNat]? else none

/-- The result of a program that has stopped: its topmost operand, or the undefined value. -/
def result (m : Machine) : Outcome :=
  match m.operands.top? with
  | none => .value .undefined
  | some a =>
    match m.heap.toHost? (some a) with
    | some v => .value v
    | none => .crashed

/-- Executes an instruction and says whether the run goes on. -/
def executed (i : Instr) (m : Machine) : Progress :=
  match MachineM.execute i m with
  | (.ok (), m) => .running m
  | (.error (.failed e), m) => .ended (.failed (.step (m.pc - 1) i e)) m
  | (.error .crashed, m) => .ended .crashed m

/-- Fetches one instruction, counts it, checks the limits and executes it. -/
def advance (limits : Limits) (m : Machine) : Progress :=
  match m.fetch? with
  | none => .ended (.failed (.counterOutOfRange m.pc)) m
  | some i =>
    let m := { m with pc := m.pc + 1, steps := m.steps + 1 }
    if 0 < limits.steps ∧ limits.steps < m.steps then .ended (.failed (.stepLimit limits.steps)) m
    else if limits.canceled ∧ m.steps % cancelInterval = 0 then .ended (.failed (.canceled (m.pc - 1))) m
    else if i.op.operation? = some .done then .ended m.result m
    else executed i m

/-- Runs at most a number of instructions. -/
def run (limits : Limits) : Nat → Machine → Outcome × Machine
  | 0, m => (.unfinished, m)
  | fuel + 1, m =>
    match advance limits m with
    | .running m => run limits fuel m
    | .ended outcome m => (outcome, m)

/-- More instructions than any run lasts. -/
def patience : Nat := 0x4000000000000000

end Machine

/-- The text of a failure to set up a machine. -/
def CreateError.message : CreateError → Text
  | .heap fault => fault.message
  | .prelude (.failed e) => "load prelude: " ++ e.message
  | .prelude .crashed => "load prelude"

end Tenure
