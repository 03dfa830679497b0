import Tenure.Heap.Host
import Tenure.Machine.Error

/-!
# The machine

The machine executes a program against a heap. Its registers are the program counter, the operands, the current
environment and the frames of open blocks and calls. Every value it holds is an address, so a collection can trace
all of them.

The operands keep what was popped: a return cuts them back to the height saved by the call, and that height may
lie above the current one.
-/

set_option autoImplicit false

namespace Tenure

/-- The operands: the cells written so far, of which the lowest `height` are in use. -/
structure Operands where
  cells : Array Address := #[]
  height : Nat := 0
deriving Repr, Inhabited

namespace Operands

/-- The addresses in use, lowest first. -/
def toList (s : Operands) : List Address := s.cells.toList.take s.height

/-- The operands with one more on top. -/
def push (s : Operands) (a : Address) : Operands :=
  match s with
  | ⟨cells, height⟩ =>
    if height < cells.size then ⟨cells.setIfInBounds height a, height + 1⟩
    else ⟨cells.push a, height + 1⟩

/-- The topmost operand. -/
def top? (s : Operands) : Option Address :=
  match s.height with
  | 0 => none
  | n + 1 => s.cells[n]?

/-- The operands without the topmost one. -/
def dropTop (s : Operands) : Operands := { s with height := s.height - 1 }

/-- The operand at an index counted from below, if it is in use. -/
def get? (s : Operands) (i : Nat) : Option Address := if i < s.height then s.cells[i]? else none

/-- The operands from an index up. -/
def above (s : Operands) (i : Nat) : List Address := s.toList.drop i

/-- Whether that many cells have ever been written. -/
def reaches (s : Operands) (height : Int) : Bool := 0 ≤ height && height ≤ s.cells.size

/-- The operands at another height. -/
def atHeight (s : Operands) (height : Nat) : Operands :=
  match s with
  | ⟨cells, _⟩ => ⟨cells, height⟩

end Operands

/-- The machine. -/
structure Machine where
  code : Array Instr
  heap : Heap
  pc : Int := 0
  operands : Operands := {}
  env : Address := 0
  /-- The open blocks and calls, innermost first. -/
  frames : List Address := []
  steps : Nat := 0
deriving Inhabited

namespace Machine

/-- The addresses that the registers hold. -/
def roots (m : Machine) : List Link :=
  (m.operands.toList ++ m.env :: m.frames.reverse).map some

end Machine

/-- Machine operations: they change the machine and stop with an error or by a crash. -/
abbrev MachineM := ExceptT (Stop StepError) (StateM Machine)

namespace MachineM

/-- Stops with an error. -/
def fail {α : Type} (e : StepError) : MachineM α := throw (.failed e)

/-- Stops because something is not there. -/
def crash {α : Type} : MachineM α := throw .crashed

/-- The value of an option that has to be there. -/
def need {α : Type} : Option α → MachineM α
  | some a => pure a
  | none => crash

/-- A stop of a heap operation as a stop of the machine. -/
def liftStop : Stop HeapError → Stop StepError
  | .failed e => .failed (.heap e)
  | .crashed => .crashed

/-- Runs a heap operation with the registers as roots. -/
def onHeap {α : Type} (act : HeapM α) : MachineM α := fun m =>
  match m with
  | ⟨code, heap, pc, operands, env, frames, steps⟩ =>
    let roots : Roots := Thunk.mk fun _ =>
      (operands.toList ++ env :: frames.reverse).map some
    match act roots heap with
    | (.ok a, heap) => (.ok a, ⟨code, heap, pc, operands, env, frames, steps⟩)
    | (.error e, heap) => (.error (liftStop e), ⟨code, heap, pc, operands, env, frames, steps⟩)

/-- The node at an address that has to be in the arena. -/
def nodeAt (a : Address) : MachineM Node := do need ((← get).heap.node? a)

/-- The kind of the node at an address. -/
def kindAt (a : Address) : MachineM Kind := do return (← nodeAt a).kind

/-- Pushes an operand. -/
def push (a : Address) : MachineM Unit :=
  modify fun m => { m with operands := m.operands.push a }

/-- The topmost operand. -/
def peek : MachineM Address := do
  match (← get).operands.top? with
  | some a => pure a
  | none => fail .stackUnderflow

/-- Takes the topmost operand. -/
def pop : MachineM Address := do
  let a ← peek
  modify fun m => { m with operands := m.operands.dropTop }
  pure a

/-- Continues at an address of the program. -/
def goTo (target : Int) : MachineM Unit := modify fun m => { m with pc := target }

/-- Makes an environment the current one. -/
def setEnv (env : Address) : MachineM Unit := modify fun m => { m with env := env }

/-- Opens a block or a call. -/
def pushFrame (a : Address) : MachineM Unit := modify fun m => { m with frames := a :: m.frames }

/-- Checks that an environment has the slot that a position names. -/
def checkSlot (env : Address) (pos : Position) : MachineM Unit := do
  let e ← nodeAt env
  if pos.frame < 0 ∨ e.slots ≤ pos.frame then fail (.unboundFrame pos)
  else
    let f ← nodeAt (← need (← need (e.child? pos.frame)))
    if pos.slot < 0 ∨ f.slots ≤ pos.slot then fail (.unboundSlot pos)

/-- The value of a slot that has to be assigned. -/
def load (env : Address) (pos : Position) : MachineM Address := do
  checkSlot env pos
  let v ← need (← onHeap (HeapM.lookup (some env) pos))
  if v = Heap.unassigned then fail (.unassigned pos) else pure v

end MachineM

end Tenure
