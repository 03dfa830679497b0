import Mathlib.Data.Vector.Basic
import Tenure.Proofs.Semantics.Operators
import Tenure.Proofs.Semantics.Term

/-!
# Evaluating terms

The reference evaluator of resolved terms. Variables live in cells, cells in frames: one frame each for the builtins,
for a crate, for the arguments of a call and for a block. Cells start out empty, except for arguments, and are never
emptied again. Operands, callee and arguments are evaluated from left to right, both operands of a lazy operator
included, and a return leaves the call around it.

Numbers, closures and references are stamped when they are made. Two of them with one stamp are the very same value,
and a value is equal to itself even where its number is not, as with a number that stands for no number.

Evaluation takes fuel, which only calls and the rounds of loops use up; an evaluation that runs out of it says so.
-/

set_option autoImplicit false

namespace Tenure

/-- A cell: a frame and a slot in it. -/
structure Cell where
  frame : Nat
  slot : Nat
deriving DecidableEq

/-- A value. -/
inductive Value where
  | unit
  | bool (b : Bool)
  | number (stamp : Nat) (n : Number)
  | char (code : Int)
  | text (t : Text)
  | builtin (b : Builtin)
  /-- A function over the frames around it. -/
  | closure (stamp arity : Nat) (body : Term 1) (env : List Nat)
  /-- A cell, with the position under which it was borrowed. -/
  | reference (stamp : Nat) (mutable : Bool) (cell : Cell) (pos : Position)

namespace Value

/-- The kind of a value. -/
def kind : Value → Kind
  | .unit => .undefined
  | .bool true => .truth
  | .bool false => .falsity
  | .number _ _ => .number
  | .char _ => .char
  | .text _ => .string
  | .builtin _ => .builtin
  | .closure _ _ _ _ => .closure
  | .reference _ _ _ _ => .reference

/-- A value as operators see it. -/
def operand : Value → Operand
  | .bool b => .truth b
  | .number _ n => .number n
  | .char c => .char c
  | v => .other v.kind

/-- Whether two values are the very same. -/
def same : Value → Value → Bool
  | .unit, .unit => true
  | .bool a, .bool b => a = b
  | .number s _, .number t _ => s = t
  | .char a, .char b => a = b
  | .text a, .text b => a = b
  | .builtin a, .builtin b => a = b
  | .closure s _ _ _, .closure t _ _ _ => s = t
  | .reference s _ _ _, .reference t _ _ _ => s = t
  | _, _ => false

/-- The host form of a value that is not a reference. -/
def host? : Value → Option Host
  | .unit => some .undefined
  | .bool b => some (.bool b)
  | .number _ n => some (Host.ofNumber n)
  | .char code => some (.str (Text.ofCode code))
  | .text t => some (.str t)
  | .builtin _ => some (.str "<builtin>")
  | .closure _ _ _ _ => some (.str "<closure>")
  | .reference _ _ _ _ => none

end Value

/-- The cells of all frames made so far, and the number of stamps used. -/
structure Store where
  frames : List (List (Option Value)) := []
  stamps : Nat := 0

/-- Why an evaluation ends early. -/
inductive Break where
  | returned (v : Value)
  | failed (e : StepError)
  | timeout

/-- An evaluation: it changes the store and may end early. -/
abbrev Eval := EStateM Break Store

/-- The values that a term of some width leaves. -/
abbrev Values (n : Nat) := List.Vector Value n

namespace Eval

theorem get_bind_apply {β : Type} (f : Store → Eval β) (σ : Store) : (get >>= f) σ = f σ σ := rfl

/-- Ends with an error. -/
def fail {α : Type} (e : StepError) : Eval α := throw (.failed e)

/-- A stamp that no value has yet. -/
def stamp : Eval Nat := modifyGet fun s => (s.stamps, { s with stamps := s.stamps + 1 })

/-- A new number. -/
def number (n : Number) : Eval Value := return .number (← stamp) n

/-- A truth value or a new number. -/
def outcome : Except StepError (Bool ⊕ Number) → Eval Value
  | .ok (.inl b) => return .bool b
  | .ok (.inr n) => number n
  | .error e => fail e

/-- The value of a literal. -/
def literal (l : Literal) : Eval Value :=
  if l.kind = Literal.unitKind then return .unit
  else if l.kind = Literal.boolKind then return .bool l.bool
  else if l.kind = Literal.intKind then number (.ofInt l.int)
  else if l.kind = Literal.floatKind then number (.float l.float)
  else if l.kind = Literal.charKind then return .char l.code
  else return .text l.str

/-- A new frame. -/
def frame (cells : List (Option Value)) : Eval Nat :=
  modifyGet fun s => (s.frames.length, { s with frames := s.frames ++ [cells] })

/-- The cell at a position of an environment. -/
def cell (env : List Nat) (frame slot : Nat) : Eval Cell :=
  match env[frame]? with
  | some f => return ⟨f, slot⟩
  | none => fail (.unboundFrame (Environment.positionOf frame slot))

/-- The value of a cell, which has to have one. The position is that of the access. -/
def read (c : Cell) (pos : Position) : Eval Value := do
  match ((← get).frames[c.frame]?.bind fun cells => cells[c.slot]?) with
  | some (some v) => return v
  | some none => fail (.unassigned pos)
  | none => fail (.unboundSlot pos)

/-- Gives a cell a value. -/
def write (c : Cell) (v : Value) : Eval Unit :=
  modify fun s => { s with frames := s.frames.modify c.frame fun cells => cells.set c.slot (some v) }

/-- The value of a body, however it is left. -/
def catchReturn (body : Eval (Values 1)) : Eval Value := fun s =>
  match body s with
  | .ok v s => .ok v.head s
  | .error (.returned v) s => .ok v s
  | .error e s => .error e s

end Eval

namespace Term

open Eval

/-- Calls a function on arguments, given how to evaluate its body. -/
def apply (lower : Term 1 → List Nat → Eval (Values 1)) (callee : Value) (arguments : List Value) : Eval Value :=
  match callee with
  | .builtin b =>
    if b.arity ≠ arguments.length then fail (.builtinArity (Text.ofString b.name) b.arity arguments.length)
    else
      match Operand.builtin b (arguments.map Value.operand) with
      | .ok (.inl first) => return arguments.getD (if first then 0 else 1) .unit
      | .ok (.inr n) => number n
      | .error e => fail e
  | .closure _ arity body env =>
    if arity ≠ arguments.length then fail (.functionArity arity arguments.length)
    else do
      let f ← frame (arguments.map some)
      catchReturn (lower body (env ++ [f]))
  | v => fail (.notCallable v.kind)

/-- Evaluates a term in an environment, given how to evaluate the bodies of calls and the further rounds of loops. -/
def evalWith (lower : Term 1 → List Nat → Eval (Values 1)) : {n : Nat} → Term n → List Nat → Eval (Values n)
  | _, .nothing, _ => return .nil
  | _, .seq first rest, env => do
    let _ ← first.evalWith lower env
    rest.evalWith lower env
  | _, .also first rest, env => do
    let v ← first.evalWith lower env
    return .cons v.head (← rest.evalWith lower env)
  | _, .constant l, _ => return .cons (← literal l) .nil
  | _, .load frame slot, env => do
    let c ← cell env frame slot
    return .cons (← read c (Environment.positionOf frame slot)) .nil
  | _, .store frame slot value, env => do
    let v ← value.evalWith lower env
    let c ← cell env frame slot
    write c v.head
    return .nil
  | _, .discard value, env => do
    let _ ← value.evalWith lower env
    return .nil
  | _, .unary symbol operand, env => do
    let x ← operand.evalWith lower env
    return .cons (← outcome (Operand.unary symbol x.head.operand)) .nil
  | _, .binary symbol left right, env => do
    let x ← left.evalWith lower env
    let y ← right.evalWith lower env
    return .cons (← outcome (Operand.binary symbol (x.head.same y.head) x.head.operand y.head.operand)) .nil
  | _, .conditional condition thenBranch elseBranch, env => do
    let c ← condition.evalWith lower env
    match c.head with
    | .bool true => thenBranch.evalWith lower env
    | .bool false => elseBranch.evalWith lower env
    | v => fail (.conditionKind v.kind)
  | _, .loop condition body, env => do
    let c ← condition.evalWith lower env
    match c.head with
    | .bool true => do
      let _ ← body.evalWith lower env
      lower (.loop condition body) env
    | .bool false => return .cons .unit .nil
    | v => fail (.conditionKind v.kind)
  | _, .call callee arguments, env => do
    let f ← callee.evalWith lower env
    let vs ← arguments.evalWith lower env
    return .cons (← apply lower f.head vs.toList) .nil
  | _, .returning value, env => do
    let v ← value.evalWith lower env
    throw (.returned v.head)
  | _, .borrow frame slot mutable, env => do
    let c ← cell env frame slot
    return .cons (.reference (← stamp) mutable c (Environment.positionOf frame slot)) .nil
  | _, .dereference reference, env => do
    let r ← reference.evalWith lower env
    match r.head with
    | .reference _ _ c pos => return .cons (← read c pos) .nil
    | v => fail (.notReference v.kind)
  | _, .update reference value, env => do
    let r ← reference.evalWith lower env
    let v ← value.evalWith lower env
    match r.head with
    | .reference _ true c _ => do
      write c v.head
      return v
    | .reference _ false _ _ => fail .immutableReference
    | v => fail (.notReference v.kind)
  | _, .scope slots body, env => do
    let f ← frame (List.replicate slots none)
    body.evalWith lower (env ++ [f])
  | _, .closure arity body, env => return .cons (.closure (← stamp) arity body env) .nil

/-- Evaluates a term of one value with some fuel. -/
def eval : Nat → Term 1 → List Nat → Eval (Values 1)
  | 0 => evalWith fun _ _ => throw .timeout
  | fuel + 1 => evalWith (eval fuel)

end Term

/-- The store that holds only the builtins, in frame 0. -/
def Store.initial : Store := { frames := [Builtin.all.map fun b => some (.builtin b)] }

/-- The value of a program that an evaluation with some fuel finds. -/
def Tree.evaluate? (fuel : Nat) (t : Tree) : Option Value := do
  let term ← t.term?
  match term.eval fuel [0] Store.initial with
  | .ok v _ => some v.head
  | .error _ _ => none

end Tenure
