import Tenure.Machine.Operator

/-!
# Executing one instruction

`MachineM.execute` is the effect of every instruction except the one that stops the machine. A call puts its
arguments into a frame of their own; a return inside blocks closes them one by one and runs again until the call
is reached.
-/

set_option autoImplicit false

namespace Tenure

namespace HeapM

/-- A frame that holds the arguments of a call. -/
def argumentFrame (arguments : List Address) : HeapM Address :=
  allocate ((Node.fresh .frame arguments.length).withChildren (arguments.map some))

end HeapM

namespace MachineM

/-- Calls a builtin whose callee stands at a height of the operands. -/
def callBuiltin (id arity : Int) (base : Nat) (arguments : List Address) : MachineM Unit := do
  let b ← need (Builtin.ofSlot? id)
  if b.arity ≠ arity then fail (.builtinArity (Text.ofString b.name) b.arity arity)
  else
    let r ← b.apply arguments
    modify fun m => { m with operands := m.operands.atHeight base }
    push r

/-- Calls a closure whose callee stands at a height of the operands. -/
def callClosure (entry : Int) (env : Link) (base : Nat) (arguments : List Address) : MachineM Unit := do
  let frame ← onHeap (HeapM.argumentFrame arguments)
  let m ← get
  let current := m.env
  let back := m.pc
  let saved ← onHeap (HeapM.pinning [some frame] (HeapM.callframe (some current) back base))
  pushFrame saved
  let inner ← onHeap (HeapM.extend (some frame) env)
  modify fun m =>
    { m with operands := m.operands.atHeight base, env := inner, pc := entry }

/-- Calls the callee found below its arguments. No stack holds a negative number of arguments, nor the largest
integer's number of them. -/
def call (arity : Int) : MachineM Unit := do
  let s := (← get).operands
  if arity < 0 ∨ arity = 0x7fffffffffffffff then crash
  else if (s.height : Int) < arity + 1 then fail .stackUnderflow
  else
    let base := s.height - arity.toNat - 1
    let callee ← need (s.get? base)
    let arguments := s.above (base + 1)
    let n ← nodeAt callee
    match n.content with
    | .builtin id => callBuiltin id arity base arguments
    | .closure expected entry =>
      if expected ≠ arity then fail (.functionArity expected arity)
      else callClosure entry n.firstChild base arguments
    | _ => fail (.notCallable n.kind)

/-- Closes the innermost block and stays at the return, or returns from the innermost call with the topmost
operand, or the undefined value if there is none. -/
def reset : MachineM Unit := do
  match (← get).frames with
  | [] => fail .resetOutsideCall
  | top :: rest =>
    modify fun m => { m with frames := rest }
    let n ← nodeAt top
    match n.content with
    | .blockframe => modify fun m => { m with pc := m.pc - 1 }
    | .callframe back height =>
      let result := (← get).operands.top?.getD Heap.undefined
      if (← get).operands.reaches height then
        let env ← need n.firstChild
        modify fun m =>
          { m with operands := (m.operands.atHeight height.toNat).push result, pc := back, env := env }
      else crash
    | kind => fail (.resetOn kind.kind)

/-- Opens a block with a number of slots. -/
def enterScope (slots : Int) : MachineM Unit := do
  let env := (← get).env
  pushFrame (← onHeap (HeapM.blockframe (some env)))
  let frame ← onHeap (HeapM.frame slots)
  setEnv (← onHeap (HeapM.extend (some frame) (some env)))

/-- Closes the innermost block. -/
def exitScope : MachineM Unit := do
  match (← get).frames with
  | [] => fail .noBlockFrame
  | top :: rest =>
    let n ← nodeAt top
    if n.kind = .blockframe then
      modify fun m => { m with frames := rest }
      setEnv (← need n.firstChild)
    else fail .noBlockFrame

/-- Empties the slot that a position names. -/
def drop (pos : Position) : MachineM Unit := do
  let env := (← get).env
  checkSlot env pos
  onHeap (HeapM.store (some env) pos (some Heap.unassigned))

/-- Stores the topmost operand into the slot that a position names. -/
def assign (pos : Position) : MachineM Unit := do
  let env := (← get).env
  checkSlot env pos
  let v ← peek
  onHeap (HeapM.store (some env) pos (some v))

/-- Pushes a reference to the slot that a position names. -/
def reference (pos : Position) (mutable : Bool) : MachineM Unit := do
  let env := (← get).env
  checkSlot env pos
  push (← onHeap (HeapM.reference pos mutable (some env)))

/-- Replaces a reference by the value it points at. -/
def dereference : MachineM Unit := do
  let r ← pop
  let n ← nodeAt r
  match n.content with
  | .reference pos _ => do push (← load (← need n.firstChild) pos)
  | _ => fail (.notReference n.kind)

/-- Stores a value through a reference and keeps the value. -/
def updateReference : MachineM Unit := do
  let v ← pop
  let r ← pop
  let n ← nodeAt r
  match n.content with
  | .reference pos mutable =>
    if mutable then
      let env ← need n.firstChild
      checkSlot env pos
      onHeap (HeapM.store (some env) pos (some v))
      push v
    else fail .immutableReference
  | _ => fail (.notReference n.kind)

/-- Takes a condition and jumps if it is false. -/
def jumpUnless (target : Int) : MachineM Unit := do
  let c ← pop
  if c = Heap.falsity then goTo target
  else if c = Heap.truth then pure ()
  else fail (.conditionKind (← kindAt c))

/-- The effect of an operation of an instruction. -/
def executeOperation (o : Operation) (i : Instr) : MachineM Unit :=
  match o with
  | .loadConstant => do push (← onHeap (HeapM.ofLiteral i.val))
  | .load => do push (← load (← get).env i.pos)
  | .assign => assign i.pos
  | .drop => drop i.pos
  | .reference => reference i.pos i.mutable
  | .dereference => dereference
  | .updateReference => updateReference
  | .jumpUnless => jumpUnless i.addr
  | .jump => goTo i.addr
  | .unary => do push (← unary i.sym (← pop))
  | .binary => do
    let y ← pop
    let x ← pop
    push (← binary i.sym x y)
  | .call => call i.arity
  | .reset => reset
  | .loadFunction => do
    let env := (← get).env
    push (← onHeap (HeapM.closure i.arity i.addr (some env)))
  | .enterScope => enterScope i.num
  | .exitScope => exitScope
  | .pop => do let _ ← pop
  | .done => fail (.unknownInstruction i.op)

/-- The effect of an instruction other than the one that stops the machine. -/
def execute (i : Instr) : MachineM Unit :=
  match i.op.operation? with
  | some o => executeOperation o i
  | none => fail (.unknownInstruction i.op)

end MachineM

end Tenure
