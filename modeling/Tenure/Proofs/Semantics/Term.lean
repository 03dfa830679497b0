import Tenure.Compile.Rules

/-!
# Resolved terms

A resolved term is a program in which every name has been replaced by the slot it stands for. A term of width `n`
leaves `n` values: statements have width 0, expressions width 1, and the arguments of a call as many as there are.
`Tree.term?` resolves a tree. A name stands for the innermost binding that is already declared, and within a frame for
the latest of them: a let statement declares its slot once its initializer has been resolved, and the functions of a
block are resolved before all of its statements.
-/

set_option autoImplicit false

namespace Tenure

/-- A program with all names resolved that leaves a number of values. Frames are counted from the outermost. -/
inductive Term : Nat → Type where
  | nothing : Term 0
  /-- One term for its effect, then another. -/
  | seq {n : Nat} (first : Term 0) (rest : Term n) : Term n
  /-- The value of an expression, then the values of further ones. -/
  | also {n : Nat} (first : Term 1) (rest : Term n) : Term (n + 1)
  | constant (l : Literal) : Term 1
  | load (frame slot : Nat) : Term 1
  | store (frame slot : Nat) (value : Term 1) : Term 0
  /-- An expression whose value is thrown away. -/
  | discard (value : Term 1) : Term 0
  | unary (symbol : Text) (operand : Term 1) : Term 1
  | binary (symbol : Text) (left right : Term 1) : Term 1
  | conditional (condition thenBranch elseBranch : Term 1) : Term 1
  | loop (condition body : Term 1) : Term 1
  | call {n : Nat} (callee : Term 1) (arguments : Term n) : Term 1
  | returning (value : Term 1) : Term 1
  | borrow (frame slot : Nat) (mutable : Bool) : Term 1
  | dereference (reference : Term 1) : Term 1
  /-- A store through a reference; its value is the stored one. -/
  | update (reference value : Term 1) : Term 1
  /-- A term inside a new frame of empty slots. -/
  | scope (slots : Nat) (body : Term 1) : Term 1
  /-- A function with a number of parameters, which are the slots of the frame of its body. -/
  | closure (arity : Nat) (body : Term 1) : Term 1

/-- A slot while names are resolved: its name, and whether it has been declared yet. -/
structure Slot where
  name : Text
  declared : Bool
deriving DecidableEq

/-- The slots of the frames around a place, outermost first. -/
abbrev Places := List (List Slot)

namespace Places

/-- The last declared slot of a name in a frame. -/
def lastDeclared? (name : Text) : List Slot → Option Nat
  | [] => none
  | s :: rest =>
    match lastDeclared? name rest with
    | some i => some (i + 1)
    | none => if s.name = name ∧ s.declared = true then some 0 else none

/-- The first slot of a name in a frame that is not declared yet. -/
def firstUndeclared? (name : Text) : List Slot → Option Nat
  | [] => none
  | s :: rest =>
    if s.name = name ∧ s.declared = false then some 0 else (firstUndeclared? name rest).map (· + 1)

/-- The frame and the slot that a name stands for. -/
def find? (name : Text) : Places → Option (Nat × Nat)
  | [] => none
  | f :: rest =>
    match find? name rest with
    | some (i, j) => some (i + 1, j)
    | none => (lastDeclared? name f).map fun j => (0, j)

/-- The innermost frame. -/
def innermost (p : Places) : List Slot := p.getLast?.getD []

/-- Declares a slot of the innermost frame. -/
def declare (p : Places) (slot : Nat) : Places :=
  p.dropLast ++ [p.innermost.modify slot fun s => { s with declared := true }]

end Places

/-- A step of resolving names. -/
abbrev Resolve := StateT Places Option

instance : MonadLift Inspect Resolve where
  monadLift
    | .ok a => pure a
    | .error .node => failure

namespace Resolve

/-- The term of a tree. -/
abbrev Visit := Tree → Resolve (Term 1)

/-- The term of the unit value. -/
def unit : Term 1 := .constant .unit

/-- The frame and the slot that a name stands for here. -/
def position (name : Text) : Resolve (Nat × Nat) := do
  match (← get).find? name with
  | some place => return place
  | none => failure

/-- Opens a frame of declared slots. -/
def openFrame (names : List Text) : Resolve Unit := modify fun p => p ++ [names.map fun name => ⟨name, true⟩]

/-- Closes the innermost frame. -/
def closeFrame : Resolve Unit := modify List.dropLast

/-! ## Items -/

/-- A function item: its closure is stored into the slot of its name. -/
def function (visit : Visit) (t : Tree) : Resolve (Term 0) := do
  let name ← t.name
  match ← t.child .block with
  | none => failure
  | some body =>
    let parameters ← Compile.names (← t.parametersOf)
    openFrame parameters
    let value ← visit body
    closeFrame
    let (frame, slot) ← position name
    return .store frame slot (.closure parameters.length value)

/-- Function items, one after the other. -/
def functions (visit : Visit) : List Tree → Resolve (Term 0)
  | [] => pure .nothing
  | t :: rest => do
    let first ← function visit t
    return .seq first (← functions visit rest)

/-- A crate: its functions in a frame of their own, then a call of `main`. -/
def crate (visit : Visit) (t : Tree) : Resolve (Term 1) := do
  let items ← t.childrenOf .function
  let names ← Compile.names items
  openFrame names
  let closures ← functions visit items
  let (frame, slot) ← position "main"
  return .scope names.length (.seq closures (.call (.load frame slot) .nothing))

/-! ## Statements and blocks -/

/-- A let statement: the slot is declared after the initializer. -/
def letStatement (visit : Visit) (t : Tree) : Resolve (Term 0) := do
  let name ← t.name
  let p ← get
  match Places.firstUndeclared? name p.innermost with
  | none => failure
  | some slot =>
    match ← t.initializer with
    | none =>
      modify fun p => p.declare slot
      return .nothing
    | some e =>
      let value ← visit e
      modify fun p => p.declare slot
      return .store (p.length - 1) slot value

/-- A statement. -/
def statement (visit : Visit) (t : Tree) : Resolve (Term 0) := do
  match ← t.form with
  | .letStatement => letStatement visit t
  | .expressionStatement => if t.last.isPresent then return .discard (← visit t.last) else return .nothing
  | _ => return .discard (← visit t)

/-- Statements, one after the other. -/
def statements (visit : Visit) : List Tree → Resolve (Term 0)
  | [] => pure .nothing
  | t :: rest => do
    let first ← statement visit t
    return .seq first (← statements visit rest)

/-- A block: a frame whose functions are declared from the start and whose let statements declare their slots one by
one. Its value is that of its last child, if that is an expression. -/
def block (visit : Visit) (t : Tree) : Resolve (Term 1) := do
  let declared ← Compile.declarations t.children
  modify fun p => p ++ [declared.map fun d => ⟨d.1, !d.2⟩]
  let items ← functions visit (← t.childrenOf .function)
  let tail := Compile.tail? t
  let others ← Tree.select (· ≠ .function) (if tail.isSome then t.children.dropLast else t.children)
  let body ← statements visit others
  let value ← match tail with
    | none => pure unit
    | some e => visit e
  closeFrame
  return .scope declared.length (.seq items (.seq body value))

/-! ## Expressions -/

/-- A literal. -/
def literal (t : Tree) : Resolve (Term 1) := do
  match Literal.read (← Literal.source t) with
  | .ok l => return .constant l
  | .error _ => failure

/-- A variable. -/
def path (name : Text) : Resolve (Term 1) := do
  let (frame, slot) ← position name
  return .load frame slot

/-- An operation on two operands. -/
def binary (visit : Visit) (t : Tree) : Resolve (Term 1) := do
  match ← t.operands with
  | [a, b] =>
    let left ← visit a
    let right ← visit b
    return .binary (← t.operator) left right
  | _ => failure

/-- An operation on one operand. -/
def unary (visit : Visit) (t : Tree) : Resolve (Term 1) := do
  match ← t.operands with
  | [a] =>
    let operand ← visit a
    return .unary (← t.operator) operand
  | _ => failure

/-- A conditional; without a second branch its value is unit when the condition does not hold. -/
def conditional (visit : Visit) (t : Tree) : Resolve (Term 1) := do
  match ← t.operands with
  | condition :: thenBranch :: rest =>
    let test ← visit condition
    let thenTerm ← visit thenBranch
    let elseTerm ← match rest with
      | [] => pure unit
      | e :: _ => visit e
    return .conditional test thenTerm elseTerm
  | _ => failure

/-- A loop. -/
def loop (visit : Visit) (t : Tree) : Resolve (Term 1) := do
  match ← t.operands with
  | [condition, body] =>
    let test ← visit condition
    return .loop test (← visit body)
  | _ => failure

/-- Arguments, one after the other. -/
def arguments (visit : Visit) : (ts : List Tree) → Resolve (Term ts.length)
  | [] => pure .nothing
  | t :: rest => do
    let first ← visit t
    return .also first (← arguments visit rest)

/-- A call. -/
def call (visit : Visit) (t : Tree) : Resolve (Term 1) := do
  match ← t.operands with
  | [] => failure
  | callee :: rest =>
    let function ← visit callee
    return .call function (← arguments visit rest)

/-- A return. -/
def returning (visit : Visit) (t : Tree) : Resolve (Term 1) := do
  return .returning (← if t.last.isPresent then visit t.last else pure unit)

/-- An assignment to a variable or through a reference; its value is unit. -/
def assignment (visit : Visit) (t : Tree) : Resolve (Term 1) := do
  match ← t.operands with
  | [target, value] =>
    let target := target.unwrapped
    match ← target.form with
    | .path | .identifier =>
      let (frame, slot) ← position (← target.name)
      return .seq (.store frame slot (← visit value)) unit
    | .dereference =>
      let reference ← visit target.last
      return .seq (.discard (.update reference (← visit value))) unit
    | _ => failure
  | _ => failure

/-- The assignment `t op= v` stands for `t = t op v`. -/
def compoundAssignment (visit : Visit) (t : Tree) : Resolve (Term 1) := do
  let op ← t.operator
  match ← t.operands with
  | [target, value] =>
    let operator : Text := ⟨op.octets.dropLast⟩
    let target := target.unwrapped
    match ← target.form with
    | .path | .identifier =>
      let (frame, slot) ← position (← target.name)
      return .seq (.store frame slot (.binary operator (.load frame slot) (← visit value))) unit
    | .dereference =>
      let reference ← visit target.last
      let again ← visit target.last
      return .seq (.discard (.update reference (.binary operator (.dereference again) (← visit value)))) unit
    | _ => failure
  | _ => failure

/-- A borrow of a variable. -/
def borrow (t : Tree) : Resolve (Term 1) := do
  let operand := t.last.unwrapped
  match Form.ofTag operand.tag with
  | .path | .identifier =>
    let (frame, slot) ← position (← operand.name)
    return .borrow frame slot (← t.isMutable)
  | _ => failure

/-- A dereference. -/
def dereference (visit : Visit) (t : Tree) : Resolve (Term 1) := do
  return .dereference (← visit t.last)

/-- An expression in parentheses; empty ones stand for the unit value. -/
def group (visit : Visit) (t : Tree) : Resolve (Term 1) :=
  if t.children.isEmpty then pure unit else visit t.last

/-- A node without a rule of its own stands for its only child. -/
def wrapper (visit : Visit) (t : Tree) : Resolve (Term 1) :=
  match t.children with
  | [e] => visit e
  | _ => failure

/-- The rule for a node of a form. -/
def rule (visit : Visit) (f : Form) (t : Tree) : Resolve (Term 1) :=
  match f with
  | .literal => literal t
  | .path | .identifier => do path (← t.name)
  | .block => block visit t
  | .grouped => group visit t
  | .arithmetic | .comparison | .lazyBoolean => binary visit t
  | .negation => unary visit t
  | .conditional => conditional visit t
  | .loop => loop visit t
  | .call => call visit t
  | .returning => returning visit t
  | .assignment => assignment visit t
  | .compoundAssignment => compoundAssignment visit t
  | .borrow => borrow t
  | .dereference => dereference visit t
  | .letStatement | .expressionStatement => do return .seq (← statement visit t) unit
  | .crate | .function | .parameters | .parameter | .ascription | .terminal | .other => wrapper visit t

/-- The term of a tree down to a depth. -/
def toDepth : Nat → Visit
  | 0, _ => failure
  | _ + 1, .absent => failure
  | depth + 1, .node tag children val type => rule (toDepth depth) (Form.ofTag tag) (.node tag children val type)

/-- The term of a crate inside the frame of the builtins. -/
def program (t : Tree) : Resolve (Term 1) := do
  openFrame Builtin.names
  crate (toDepth t.height) t

end Resolve

/-- The resolved term of a crate, if all its names can be resolved. -/
def Tree.term? (t : Tree) : Option (Term 1) := ((Resolve.program t).run []).map Prod.fst

end Tenure
