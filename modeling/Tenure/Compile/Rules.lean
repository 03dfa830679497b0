import Tenure.Check.Rules
import Tenure.Compile.Error
import Tenure.Stop

/-!
# Generating code

One rule for each form of node gives the code that leaves its value on the operand stack. A rule takes the address at
which its code will start, so the targets of jumps are known from the lengths of the parts. Ownership and borrows are
followed along: a moved value cannot be used again, and what a scope still owns and nobody borrows is dropped at its
end. The rules are written over the code of the nodes below, `visit`; `Compile.toDepth` closes the recursion.
-/

set_option autoImplicit false

namespace Tenure

/-- What happens to the value of an expression. -/
inductive Use where
  /-- It is only read. -/
  | read
  /-- It changes its owner. -/
  | move
deriving DecidableEq, Repr

/-- What is known at a place of the program while code is generated. -/
structure CompileState where
  env : Environment := {}
  /-- Whether a return stands before this place on the straight path to it. -/
  diverged : Bool := false
  /-- The binding that the value of the last expression refers to, if that is known. -/
  lent : Option Nat := none
deriving DecidableEq, Repr

/-- An instruction with the environment in which it was emitted. -/
structure Emission where
  instr : Instr
  env : Environment
deriving DecidableEq, Repr

/-- Emitted code, in order. -/
abbrev Emissions := List Emission

/-- The program that emitted code makes up. -/
def Emissions.program (code : Emissions) : Program := code.map Emission.instr

/-- A step of code generation. -/
abbrev Compile := StateT CompileState (Except (Stop CompileError))

instance : MonadLift Inspect Compile where
  monadLift
    | .ok a => pure a
    | .error .node => throw .crashed

namespace Compile

/-- Generates the code of a tree at an address, for a use of its value. -/
abbrev Visit := Nat → Tree → Use → Compile Emissions

/-- Stops with an error. -/
def fail {α : Type} (e : CompileError) : Compile α := throw (.failed e)

/-- Stops at a construct that has no code. -/
def unsupported {α : Type} (what : Unsupported) : Compile α := fail (.unsupported what)

/-- Changes the environment. -/
def onEnv (f : Environment → Environment) : Compile Unit := modify fun s => { s with env := f s.env }

/-- Sets the binding that the last value refers to. -/
def setLent (id : Option Nat) : Compile Unit := modify fun s => { s with lent := id }

/-- Sets whether a return stands before this place. -/
def setDiverged (b : Bool) : Compile Unit := modify fun s => { s with diverged := b }

/-- The instruction that pushes the unit value. -/
def pushUnit : Instr := .loadConstant .unit

/-- Emits instructions in the current environment. -/
def emit (code : Program) : Compile Emissions := do
  let env := (← get).env
  return code.map fun i => ⟨i, env⟩

/-- Opens a frame; frames and environments are limited in size. -/
def extend (names : List Text) (owner : FrameOwner) : Compile Unit := do
  if maxFrameSlots < names.length then unsupported (.bindings owner names.length)
  else if maxFrames < (← get).env.depth + 1 then unsupported (.nesting owner)
  else onEnv fun env => env.extend names

/-- The innermost visible binding of a name. -/
def resolve (name : Text) : Compile (Position × Variable) := do
  match (← get).env.find? name with
  | some found => return found
  | none => fail (.unknownVariable name)

/-- Code that drops the bindings of a frame that own their values and are not borrowed. -/
def dropSlots (frame : Nat) : Frame → Nat → Program
  | [], _ => []
  | v :: rest, slot =>
    if v.owns ∧ v.borrow = .none ∧ v.hidden = false then
      .drop (Environment.positionOf frame slot) :: dropSlots frame rest (slot + 1)
    else dropSlots frame rest (slot + 1)

/-- Code that drops what the innermost frame still owns. -/
def drops (env : Environment) : Program :=
  match env.innermost? with
  | none => []
  | some f => dropSlots (env.depth - 1) f 0

/-! ## Items -/

/-- The names of trees. -/
def names : List Tree → Inspect (List Text)
  | [] => .ok []
  | t :: rest => do
    let name ← t.name
    return name :: (← names rest)

/-- A function item: a closure, a jump over the body, the body, and the assignment of the closure to the function's
slot. The body runs whenever the function is called, so it leaves ownership and borrows around it as they were. -/
def function (visit : Visit) (start : Nat) (t : Tree) : Compile Emissions := do
  let name ← t.name
  match ← t.child .block with
  | none => unsupported (.noBody name)
  | some body =>
    let parameters ← names (← t.parametersOf)
    let outer ← get
    extend parameters (.function name)
    setDiverged false
    let value ← visit (start + 2) body .move
    let leave ← emit (drops (← get).env ++ [.plain .reset])
    let code := value ++ leave
    modify fun s =>
      { env := (s.env.shrink.restoreOwnership outer.env).restoreBorrows outer.env
        diverged := outer.diverged
        lent := none }
    match (← get).env.find? name with
    | none => fail (.functionSlot name)
    | some (pos, _) =>
      return (← emit [.loadFunction parameters.length (start + 2 : Nat), .jump (start + 2 + code.length : Nat)]) ++
        code ++ (← emit [.assign pos, .plain .pop])

/-- Function items, one after the other. -/
def functions (visit : Visit) : Nat → List Tree → Compile Emissions
  | _, [] => pure []
  | start, t :: rest => do
    let code ← function visit start t
    return code ++ (← functions visit (start + code.length) rest)

/-- A crate: one frame for all functions, then a call of `main`. -/
def crate (visit : Visit) (start : Nat) (t : Tree) : Compile Emissions := do
  let items ← t.childrenOf .function
  let slots ← names items
  let opening ← emit [.enterScope slots.length]
  extend slots .crate
  let code ← functions visit (start + 1) items
  match (← get).env.find? "main" with
  | none => fail .noMain
  | some (pos, _) =>
    return opening ++ code ++ (← emit [.load pos, .call 0, .plain .exitScope])

/-! ## Statements and blocks -/

/-- A let statement. The binding comes into scope after its initializer. -/
def letStatement (visit : Visit) (start : Nat) (t : Tree) : Compile Emissions := do
  let name ← t.name
  let env := (← get).env
  match (env.innermost?.getD []).hidden? name 0 with
  | none => fail (.letSlot name)
  | some (slot, v) =>
    match ← t.initializer with
    | none =>
      onEnv fun env => env.update v.id fun v => { v with owns := false, hidden := false }
      return []
    | some e =>
      let code ← visit start e .move
      let lent := (← get).lent
      onEnv fun env => env.update v.id fun v => { v with lends := lent, owns := true, hidden := false }
      return code ++ (← emit [.assign (Environment.positionOf (env.depth - 1) slot), .plain .pop])

/-- An expression for its effect. A reference that is thrown away no longer borrows. -/
def effect (visit : Visit) (start : Nat) (e : Tree) : Compile Emissions := do
  let before := (← get).env
  let code ← visit start e .move
  match (← get).lent with
  | none => pure ()
  | some id =>
    match before.get? id with
    | none => pure ()
    | some saved => onEnv fun env => env.update id fun v => { v with borrow := saved.borrow, shares := saved.shares }
  setLent none
  return code ++ (← emit [.plain .pop])

/-- A statement: its code leaves the operands as they were. -/
def statement (visit : Visit) (start : Nat) (t : Tree) : Compile Emissions := do
  match ← t.form with
  | .letStatement => letStatement visit start t
  | .expressionStatement => if t.last.isPresent then effect visit start t.last else return []
  | _ => effect visit start t

/-- Statements, one after the other. -/
def statements (visit : Visit) : Nat → List Tree → Compile Emissions
  | _, [] => pure []
  | start, t :: rest => do
    let code ← statement visit start t
    return code ++ (← statements visit (start + code.length) rest)

/-- The names that a block declares, each with whether it is that of a let statement. -/
def declarations : List Tree → Inspect (List (Text × Bool))
  | [] => .ok []
  | t :: rest => do
    match ← t.form with
    | .letStatement => do
      let name ← t.name
      return (name, true) :: (← declarations rest)
    | .function => do
      let name ← t.name
      return (name, false) :: (← declarations rest)
    | _ => declarations rest

/-- The value of a block is that of its last child, unless that is a statement or an item. -/
def tail? (t : Tree) : Option Tree :=
  match t.children.getLast? with
  | none => none
  | some last =>
    match Form.ofTag last.tag with
    | .letStatement | .expressionStatement | .function => none
    | _ => some last

/-- The state after a block: borrows inside it end with it, except for a borrow that leaves it as its value. -/
def leaveBlock (outer : Environment) (lent : Option Nat) : Compile Unit := do
  let inner := (← get).env
  let restored := inner.restoreBorrows outer
  let kept := match lent with
    | none => restored
    | some id =>
      match inner.get? id with
      | none => restored
      | some v => restored.update id fun w => { w with borrow := v.borrow, shares := v.shares }
  modify fun s => { s with env := kept.shrink, lent := lent }

/-- A block: a frame for its bindings, its functions, its statements and its value. -/
def block (visit : Visit) (start : Nat) (t : Tree) : Compile Emissions := do
  let declared ← declarations t.children
  let outer := (← get).env
  let opening ← emit [.enterScope declared.length]
  extend (declared.map Prod.fst) .block
  onEnv fun env => env.onInnermost fun f => f.hide (declared.map Prod.snd)
  let items ← functions visit (start + 1) (← t.childrenOf .function)
  let tail := tail? t
  let others ← Tree.select (· ≠ .function) (if tail.isSome then t.children.dropLast else t.children)
  let body ← statements visit (start + 1 + items.length) others
  let (value, lent) ← match tail with
    | none => do pure (← emit [pushUnit], none)
    | some e => do
      let value ← visit (start + 1 + items.length + body.length) e .move
      pure (value, (← get).lent)
  let closing ← emit (drops (← get).env ++ [.plain .exitScope])
  leaveBlock outer lent
  return opening ++ items ++ body ++ value ++ closing

/-! ## Expressions -/

/-- A literal. -/
def literal (t : Tree) : Compile Emissions := do
  match Literal.read (← Literal.source t) with
  | .ok l => emit [.loadConstant l]
  | .error e => fail (.literal e)

/-- A variable. A binding that gave up its value cannot be used, and a move gives it up. -/
def path (name : Text) (use : Use) : Compile Emissions := do
  let (pos, v) ← resolve name
  if v.owns then
    if use = .move then onEnv fun env => env.update v.id fun v => { v with owns := false }
    setLent v.lends
    emit [.load pos]
  else fail (.moved name)

/-- An operation on two operands. -/
def binary (visit : Visit) (start : Nat) (t : Tree) : Compile Emissions := do
  match ← t.operands with
  | [a, b] =>
    let left ← visit start a .read
    let right ← visit (start + left.length) b .read
    return left ++ right ++ (← emit [.binary (← t.operator)])
  | _ => unsupported (.malformed t.tag)

/-- An operation on one operand. -/
def unary (visit : Visit) (start : Nat) (t : Tree) : Compile Emissions := do
  match ← t.operands with
  | [a] => return (← visit start a .read) ++ (← emit [.unary (← t.operator)])
  | _ => unsupported (.malformed t.tag)

/-- What is known of a binding after a conditional, from what is known after either branch: the stronger borrow, and
ownership only if every branch that can be completed left it. -/
def joined (thenDiverged elseDiverged : Bool) (afterThen afterElse : Variable) : Variable :=
  { afterElse with
    borrow := afterElse.borrow.stronger afterThen.borrow
    shares := max afterElse.shares afterThen.shares
    owns :=
      if thenDiverged && !elseDiverged then afterElse.owns
      else if elseDiverged && !thenDiverged then afterThen.owns
      else afterElse.owns && afterThen.owns }

/-- A conditional. Both branches start from the same ownership and borrows. -/
def conditional (visit : Visit) (start : Nat) (t : Tree) : Compile Emissions := do
  match ← t.operands with
  | condition :: thenBranch :: rest =>
    let test ← visit start condition .read
    let before ← get
    setDiverged false
    let thenStart := start + test.length + 1
    let thenCode ← visit thenStart thenBranch .move
    let afterThen ← get
    modify fun s =>
      { s with
        env := (s.env.restoreOwnership before.env).restoreBorrows before.env
        diverged := false }
    let elseStart := thenStart + thenCode.length + 1
    let elseCode ← match rest with
      | [] => emit [pushUnit]
      | e :: _ => visit elseStart e .move
    let elseDiverged := (← get).diverged
    modify fun s =>
      { s with
        env := s.env.combine afterThen.env (joined afterThen.diverged elseDiverged)
        diverged := before.diverged || (afterThen.diverged && elseDiverged) }
    return test ++ (← emit [.jumpUnless (elseStart : Nat)]) ++ thenCode ++
      (← emit [.jump (elseStart + elseCode.length : Nat)]) ++ elseCode
  | _ => unsupported (.malformed t.tag)

/-- The bindings that owned their values at the entry of a loop and no longer do. -/
def movedSince (entry now : Environment) : List Variable :=
  entry.bindings.filter fun v =>
    v.owns && (match now.get? v.id with
      | some w => !w.owns
      | none => false)

/-- A loop. What its body moves out of a binding from outside would be missing in the next round. -/
def loop (visit : Visit) (start : Nat) (t : Tree) : Compile Emissions := do
  match ← t.operands with
  | [condition, body] =>
    let entry ← get
    setDiverged false
    let test ← visit start condition .read
    let code ← visit (start + test.length + 1) body .read
    onEnv fun env => env.restoreBorrows entry.env
    let exit := start + test.length + code.length + 3
    let now ← get
    if !now.diverged then
      match movedSince entry.env now.env with
      | v :: others => fail (.movedInLoop ⟨v.name, others.map Variable.name⟩)
      | [] => pure ()
    setDiverged entry.diverged
    return test ++ (← emit [.jumpUnless (exit : Nat)]) ++ code ++
      (← emit [.plain .pop, .jump (start : Nat), pushUnit])
  | _ => unsupported (.malformed t.tag)

/-- Arguments, one after the other. -/
def arguments (visit : Visit) : Nat → List Tree → Compile Emissions
  | _, [] => pure []
  | start, t :: rest => do
    let code ← visit start t .move
    return code ++ (← arguments visit (start + code.length) rest)

/-- A call. -/
def call (visit : Visit) (start : Nat) (t : Tree) : Compile Emissions := do
  match ← t.operands with
  | [] => unsupported (.malformed t.tag)
  | callee :: rest =>
    let function ← visit start callee .read
    let code ← arguments visit (start + function.length) rest
    return function ++ code ++ (← emit [.call rest.length])

/-- A return. -/
def returning (visit : Visit) (start : Nat) (t : Tree) : Compile Emissions := do
  let value ← if t.last.isPresent then visit start t.last .move else emit [pushUnit]
  setDiverged true
  return value ++ (← emit [.plain .reset])

/-- An assignment to a variable, which owns its value afterwards, or through a reference. -/
def assignment (visit : Visit) (start : Nat) (t : Tree) : Compile Emissions := do
  match ← t.operands with
  | [target, value] =>
    let target := target.unwrapped
    match ← target.form with
    | .path | .identifier =>
      let (pos, v) ← resolve (← target.name)
      let code ← visit start value .move
      let lent := (← get).lent
      onEnv fun env => env.update v.id fun v => { v with owns := true, lends := lent }
      return code ++ (← emit [.assign pos, .plain .pop, pushUnit])
    | .dereference =>
      let reference ← visit start target.last .read
      let code ← visit (start + reference.length) value .move
      return reference ++ code ++ (← emit [.plain .updateReference, .plain .pop, pushUnit])
    | _ => unsupported (.target target.tag)
  | _ => unsupported (.malformed t.tag)

/-- An assignment that combines the old value with another. -/
def compoundAssignment (visit : Visit) (start : Nat) (t : Tree) : Compile Emissions := do
  let op ← t.operator
  match ← t.operands with
  | [target, value] =>
    if op.size < 2 then unsupported (.malformed t.tag)
    let operator : Text := ⟨op.octets.dropLast⟩
    let target := target.unwrapped
    match ← target.form with
    | .path | .identifier =>
      let name ← target.name
      let (pos, _) ← resolve name
      let old ← path name .read
      let code ← visit (start + old.length) value .read
      return old ++ code ++ (← emit [.binary operator, .assign pos, .plain .pop, pushUnit])
    | .dereference =>
      let reference ← visit start target.last .read
      let again ← visit (start + reference.length) target.last .read
      let code ← visit (start + reference.length + again.length + 1) value .read
      return reference ++ again ++ (← emit [.plain .dereference]) ++ code ++
        (← emit [.binary operator, .plain .updateReference, .plain .pop, pushUnit])
    | _ => unsupported (.target target.tag)
  | _ => unsupported (.malformed t.tag)

/-- A borrow of a variable: for change only if it is not borrowed at all, shared only if it is not borrowed for
change. -/
def borrow (t : Tree) : Compile Emissions := do
  let operand := t.last.unwrapped
  match Form.ofTag operand.tag with
  | .path | .identifier =>
    let name ← operand.name
    let (pos, v) ← resolve name
    if !v.owns then fail (.moved name)
    let mutable ← t.isMutable
    if mutable then
      if v.borrow ≠ .none then fail (.mutableConflict name v.borrow)
      onEnv fun env => env.update v.id fun v => { v with borrow := .mutable }
    else
      if v.borrow = .mutable then fail (.sharedConflict name)
      onEnv fun env => env.update v.id fun v => { v with borrow := .immutable, shares := v.shares + 1 }
    setLent (some v.id)
    emit [.reference pos mutable]
  | _ => unsupported .borrowedValue

/-- A dereference. -/
def dereference (visit : Visit) (start : Nat) (t : Tree) : Compile Emissions := do
  if t.last.isPresent then return (← visit start t.last .read) ++ (← emit [.plain .dereference])
  else unsupported (.malformed t.tag)

/-- An expression in parentheses; empty ones stand for the unit value. -/
def group (visit : Visit) (start : Nat) (t : Tree) (use : Use) : Compile Emissions := do
  if t.children.isEmpty then
    setLent none
    emit [pushUnit]
  else visit start t.last use

/-- A node without a rule of its own stands for its only child. -/
def wrapper (visit : Visit) (start : Nat) (t : Tree) (use : Use) : Compile Emissions :=
  match t.children with
  | [e] => visit start e use
  | _ => unsupported (.form t.tag)

/-- The rule for a node of a form. -/
def rule (visit : Visit) (start : Nat) (f : Form) (t : Tree) (use : Use) : Compile Emissions :=
  match f with
  | .literal => literal t
  | .path | .identifier => do path (← t.name) use
  | .block => block visit start t
  | .grouped => group visit start t use
  | .arithmetic | .comparison | .lazyBoolean => binary visit start t
  | .negation => unary visit start t
  | .conditional => conditional visit start t
  | .loop => loop visit start t
  | .call => call visit start t
  | .returning => returning visit start t
  | .assignment => assignment visit start t
  | .compoundAssignment => compoundAssignment visit start t
  | .borrow => borrow t
  | .dereference => dereference visit start t
  | .letStatement | .expressionStatement => do return (← statement visit start t) ++ (← emit [pushUnit])
  | .crate | .function | .parameters | .parameter | .ascription | .terminal | .other =>
    wrapper visit start t use

/-- Whether a value of a form can be a reference whose binding is known. -/
def keepsLoan : Form → Bool
  | .path | .identifier | .block | .grouped | .borrow => true
  | .crate | .function | .parameters | .parameter | .ascription | .terminal | .other => true
  | _ => false

/-- The code of a tree down to a depth. -/
def toDepth : Nat → Visit
  | 0, _, _, _ => throw .crashed
  | _ + 1, _, .absent, _ => throw .crashed
  | depth + 1, start, .node tag children val type, use => do
    let form := Form.ofTag tag
    let code ← rule (toDepth depth) start form (.node tag children val type) use
    if !keepsLoan form then setLent none
    return code

/-- The code of a crate whose check found nothing. -/
def program (t : Tree) : Compile Emissions := do
  onEnv fun env => env.extend Builtin.names
  let code ← crate (toDepth t.height) 0 t
  return code ++ (← emit [.plain .done])

end Compile

/-- Checks a program and generates its code, each instruction with the environment in which it was emitted. -/
def Tree.emissions (t : Tree) : Except (Stop CompileError) Emissions :=
  if !t.isPresent then .error (.failed (.unsupported .emptyTree))
  else
    match t.complaints with
    | .error .node => .error .crashed
    | .ok (e :: es) => .error (.failed (.rejected (e :: es)))
    | .ok [] =>
      if Form.ofTag t.tag = .crate then ((Compile.program t).run {}).map Prod.fst
      else .error (.failed (.unsupported (.root t.tag)))

/-- Checks a program and generates its code. -/
def Tree.compile (t : Tree) : Except (Stop CompileError) Program := t.emissions.map Emissions.program

end Tenure
