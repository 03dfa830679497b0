import Mathlib.Data.Set.Card
import Tenure.Proofs.Compile.Layout
import Tenure.Proofs.Semantics.Operators

/-!
# The endless machine

A machine with the instructions of the real one and a heap that never runs out and is never collected: nodes are only
added, so an address stands for one node forever. It is the common ground between evaluation, which knows no heap, and
the real machine, whose collector moves things around: the real machine does what the endless one does as long as the
nodes that are still live fit into its heap.

`Endless.step` is partial. It says nothing about instructions that reach for an operand, a frame or a slot that is not
there; code that was generated from a tree never does.
-/

set_option autoImplicit false

namespace Tenure

/-- A node of the endless heap: its content and the nodes it refers to. -/
structure Obj where
  content : Content
  links : List Address
deriving DecidableEq

/-- The link at an index. -/
def Obj.link? (o : Obj) (i : Int) : Option Address := if 0 ≤ i then o.links[i.toNat]? else none

theorem Obj.of_link? {o : Obj} {i : Int} {a : Address} (h : o.link? i = some a) :
    (0 ≤ i ∧ i < o.links.length) ∧ a ∈ o.links := by
  unfold link? at h
  split at h
  next hi =>
    have := (List.getElem?_eq_some_iff.mp h).1
    exact ⟨⟨hi, by omega⟩, List.mem_of_getElem? h⟩
  · cases h

/-- The nodes that can be reached from the values that exist once and from given roots. -/
inductive Reach (objs : List Obj) (roots : List Address) : Address → Prop where
  | permanent {a : Address} (h : a < Heap.bottom) : Reach objs roots a
  | root {a : Address} (h : a ∈ roots) : Reach objs roots a
  | link {a b : Address} {o : Obj} (ha : Reach objs roots a) (ho : objs[a]? = some o) (hb : b ∈ o.links) :
    Reach objs roots b

/-- How many nodes can be reached. -/
noncomputable def live (objs : List Obj) (roots : List Address) : Nat := {a | Reach objs roots a}.ncard

/-- The state of the endless machine. -/
structure Endless where
  objs : List Obj
  pc : Nat := 0
  /-- The operands, topmost first. -/
  operands : List Address := []
  env : Address
  /-- The open blocks and calls, innermost first. -/
  frames : List Address := []

namespace Endless

/-- The addresses that the registers hold. -/
def roots (s : Endless) : List Address := s.operands ++ s.env :: s.frames

/-- How many nodes the registers keep alive. -/
noncomputable def live (s : Endless) : Nat := Tenure.live s.objs s.roots

end Endless

/-- What an instruction does: how many nodes have to be there for it, and the state after it or its error. -/
structure Effect where
  demand : Nat
  outcome : Except StepError Endless

namespace Effect

/-- An effect that makes no nodes. -/
def ok (s : Endless) : Effect := ⟨0, .ok s⟩

/-- An effect that makes nodes, all of which are live after it. -/
noncomputable def made (s : Endless) : Effect := ⟨s.live, .ok s⟩

/-- An error. -/
def fail (e : StepError) : Effect := ⟨0, .error e⟩

end Effect

namespace Endless

/-- The state after the current instruction. -/
def next (s : Endless) : Endless := { s with pc := s.pc + 1 }

/-- The state with one more operand. -/
def push (s : Endless) (a : Address) : Endless := { s with operands := a :: s.operands }

/-- The state with a new node on top of the operands. -/
def create (s : Endless) (o : Obj) : Endless :=
  { s with objs := s.objs ++ [o], operands := s.objs.length :: s.operands }

/-- A node as operators see it. -/
def operand? (s : Endless) (a : Address) : Option Operand := (s.objs[a]?).map fun o => .ofContent o.content

/-- The frame that a position of an environment names. -/
def frameAt? (s : Endless) (env : Address) (pos : Position) : Option Address := do (← s.objs[env]?).link? pos.frame

/-- The value of a slot, which may be the mark of an unassigned one. -/
def cell? (s : Endless) (env : Address) (pos : Position) : Option Address := do
  (← s.objs[← s.frameAt? env pos]?).link? pos.slot

/-- The state after a slot got a value. -/
def setCell? (s : Endless) (env : Address) (pos : Position) (v : Address) : Option Endless := do
  let f ← s.frameAt? env pos
  let o ← s.objs[f]?
  if 0 ≤ pos.slot ∧ pos.slot < o.links.length then
    some { s with objs := s.objs.set f { o with links := o.links.set pos.slot.toNat v } }
  else none

/-- The number of slots of every frame of the current environment. -/
def shape? (s : Endless) : Option (List Nat) := do
  (← s.objs[s.env]?).links.mapM fun f => (s.objs[f]?).map fun o => o.links.length

/-- The node of a text, if it was ever made. -/
def findText? (s : Endless) (t : Text) : Option Address := s.objs.findIdx? fun o => o.content = .string t

/-- Pushes the node of a text. A node that is no longer live has to be made again by a heap that collects. -/
noncomputable def text (s : Endless) (t : Text) : Effect :=
  match s.findText? t with
  | some a => .made (s.push a)
  | none => .made (s.create ⟨.string t, []⟩)

/-- Pushes a literal. -/
noncomputable def literal (s : Endless) (l : Literal) : Option Effect :=
  if l.kind = Literal.unitKind then some (.ok (s.push Heap.undefined))
  else if l.kind = Literal.boolKind then some (.ok (s.push (Heap.ofBool l.bool)))
  else if l.kind = Literal.intKind then some (.made (s.create ⟨.number (.ofInt l.int), []⟩))
  else if l.kind = Literal.floatKind then some (.made (s.create ⟨.number (.float l.float), []⟩))
  else if l.kind = Literal.charKind then some (.made (s.create ⟨.char l.code, []⟩))
  else if l.kind = Literal.stringKind then some (s.text l.str)
  else none

/-- Pushes the value of a slot. -/
def load (s : Endless) (env : Address) (pos : Position) : Option Effect := do
  let a ← s.cell? env pos
  some (if a = Heap.unassigned then .fail (.unassigned pos) else .ok (s.push a))

/-- Pushes the outcome of an operator. -/
noncomputable def result (s : Endless) : Except StepError (Bool ⊕ Number) → Effect
  | .ok (.inl b) => .ok (s.push (Heap.ofBool b))
  | .ok (.inr n) => .made (s.create ⟨.number n, []⟩)
  | .error e => .fail e

/-- Opens a block with a number of slots. -/
noncomputable def enterScope (s : Endless) (slots : Int) : Option Effect := do
  let outer ← s.objs[s.env]?
  let n := s.objs.length
  if 0 ≤ slots ∧ slots ≤ maxFrameSlots ∧ outer.links.length + 1 ≤ maxFrames then
    some ⟨s.live + 3, .ok { s with
      objs := s.objs ++ [⟨.blockframe, [s.env]⟩, ⟨.frame, List.replicate slots.toNat Heap.unassigned⟩,
        ⟨.environment, outer.links ++ [n + 1]⟩]
      env := n + 2
      frames := n :: s.frames }⟩
  else none

/-- Closes the innermost block. -/
def exitScope (s : Endless) : Option Effect :=
  match s.frames with
  | [] => none
  | top :: rest => do
    let o ← s.objs[top]?
    match o with
    | ⟨.blockframe, [env]⟩ => some (.ok { s with env := env, frames := rest })
    | _ => none

/-- Calls a builtin on arguments, below which the operands are the given ones. The arguments are live until the result
is there. -/
noncomputable def callBuiltin (s : Endless) (b : Builtin) (arguments operands : List Address) : Option Effect := do
  let xs ← arguments.mapM s.operand?
  match Operand.builtin b xs with
  | .ok (.inl first) => do
    let a ← arguments[if first then 0 else 1]?
    some (.ok { s with operands := a :: operands })
  | .ok (.inr n) => some ⟨s.live + 1, .ok ({ s with operands := operands }.create ⟨.number n, []⟩)⟩
  | .error e => some (.fail e)

/-- Calls a closure on arguments, below which the operands are the given ones. The state is the one after the call
instruction. -/
noncomputable def callClosure (s : Endless) (entry : Int) (env : Address) (arguments operands : List Address) : Option Effect := do
  let outer ← s.objs[env]?
  let n := s.objs.length
  if 0 ≤ entry ∧ arguments.length ≤ maxFrameSlots ∧ outer.links.length + 1 ≤ maxFrames then
    some ⟨s.live + 3, .ok {
      objs := s.objs ++ [⟨.frame, arguments⟩, ⟨.callframe s.pc operands.length, [s.env]⟩,
        ⟨.environment, outer.links ++ [n]⟩]
      pc := entry.toNat
      operands := operands
      env := n + 2
      frames := (n + 1) :: s.frames }⟩
  else none

/-- Calls the callee found below its arguments. -/
noncomputable def call (s : Endless) (arity : Int) : Option Effect :=
  if arity < 0 ∨ arity = 0x7fffffffffffffff then none
  else do
    let callee ← s.operands[arity.toNat]?
    let arguments := (s.operands.take arity.toNat).reverse
    let operands := s.operands.drop (arity.toNat + 1)
    let o ← s.objs[callee]?
    match o.content with
    | .builtin id => do
      let b ← Builtin.ofSlot? id
      if b.arity ≠ arity then some (.fail (.builtinArity (Text.ofString b.name) b.arity arity))
      else s.callBuiltin b arguments operands
    | .closure expected entry => do
      if expected ≠ arity then some (.fail (.functionArity expected arity))
      else s.callClosure entry (← o.links[0]?) arguments operands
    | c => some (.fail (.notCallable c.kind))

/-- Closes the innermost block and stays at the return, or returns from the innermost call with the topmost
operand. -/
def reset (s : Endless) : Option Effect :=
  match s.frames with
  | [] => none
  | top :: rest => do
    let o ← s.objs[top]?
    match o with
    | ⟨.blockframe, _⟩ => some (.ok { s with frames := rest })
    | ⟨.callframe back height, [env]⟩ => do
      let a ← s.operands.head?
      if 0 ≤ back ∧ 0 ≤ height ∧ height ≤ s.operands.length then
        some (.ok { s with
          pc := back.toNat
          operands := a :: s.operands.drop (s.operands.length - height.toNat)
          env := env
          frames := rest })
      else none
    | _ => none

/-- Replaces a reference by the value it points at. -/
def dereference (s : Endless) : Option Effect :=
  match s.operands with
  | [] => none
  | r :: rest => do
    let o ← s.objs[r]?
    match o.content with
    | .reference pos _ => load { s with operands := rest } (← o.links[0]?) pos
    | c => some (.fail (.notReference c.kind))

/-- Stores a value through a reference and keeps the value. -/
def updateReference (s : Endless) : Option Effect :=
  match s.operands with
  | v :: r :: rest => do
    let o ← s.objs[r]?
    match o.content with
    | .reference pos mutable =>
      if mutable then do
        some (.ok (← setCell? { s with operands := v :: rest } (← o.links[0]?) pos v))
      else some (.fail .immutableReference)
    | c => some (.fail (.notReference c.kind))
  | _ => none

/-- Takes a condition and jumps if it is false. -/
def jumpUnless (s : Endless) (target : Nat) : Option Effect :=
  match s.operands with
  | [] => none
  | c :: rest =>
    if c = Heap.falsity then some (.ok { s with operands := rest, pc := target })
    else if c = Heap.truth then some (.ok (next { s with operands := rest }))
    else do some (.fail (.conditionKind (← s.objs[c]?).content.kind))

/-- The effect of an operation of an instruction. -/
noncomputable def stepOperation (s : Endless) (o : Operation) (i : Instr) : Option Effect :=
  match o with
  | .loadConstant => s.next.literal i.val
  | .load => s.next.load s.env i.pos
  | .assign => do some (.ok (← s.next.setCell? s.env i.pos (← s.operands.head?)))
  | .drop => do some (.ok (← s.next.setCell? s.env i.pos Heap.unassigned))
  | .reference => do
    let _ ← s.cell? s.env i.pos
    some (.made (s.next.create ⟨.reference i.pos i.mutable, [s.env]⟩))
  | .dereference => s.next.dereference
  | .updateReference => s.next.updateReference
  | .jumpUnless => if 0 ≤ i.addr then s.jumpUnless i.addr.toNat else none
  | .jump => if 0 ≤ i.addr then some (.ok { s with pc := i.addr.toNat }) else none
  | .unary =>
    match s.operands with
    | [] => none
    | x :: rest => do some ({ s.next with operands := rest }.result (Operand.unary i.sym (← s.operand? x)))
  | .binary =>
    match s.operands with
    | y :: x :: rest => do
      some ({ s.next with operands := rest }.result
        (Operand.binary i.sym (x = y) (← s.operand? x) (← s.operand? y)))
    | _ => none
  | .call => s.next.call i.arity
  | .reset => s.reset
  | .loadFunction => some (.made (s.next.create ⟨.closure i.arity i.addr, [s.env]⟩))
  | .enterScope => s.next.enterScope i.num
  | .exitScope => s.next.exitScope
  | .pop =>
    match s.operands with
    | [] => none
    | _ :: rest => some (.ok { s.next with operands := rest })
  | .done => none

/-- The effect of an instruction. -/
noncomputable def step (s : Endless) (i : Instr) : Option Effect := do s.stepOperation (← i.op.operation?) i

/-- The nodes that exist before a program runs: the values that exist once, an empty environment, the frame of the
builtins with its slots, and the environment of that frame. -/
def prelude : List Obj :=
  [⟨.falsity, []⟩, ⟨.truth, []⟩, ⟨.null, []⟩, ⟨.unassigned, []⟩, ⟨.undefined, []⟩, ⟨.environment, []⟩,
    ⟨.frame, [7, 8, 9, 10]⟩, ⟨.builtin 0, []⟩, ⟨.builtin 1, []⟩, ⟨.builtin 2, []⟩, ⟨.builtin 3, []⟩,
    ⟨.environment, [6]⟩]

/-- The state before a program runs. -/
def initial : Endless := { objs := prelude, env := 11 }

end Endless

end Tenure
