import Tenure.Check.Basic
import Tenure.Code.Builtin

/-!
# The rules of checking

One rule for each form of node gives its type and complains about what does not fit. The rules are written over the
check of the nodes below, `visit`; `Check.node` closes the recursion. A node of an unknown form is a wrapper and has
the type of its last child, and a node that is not there has the unit type.
-/

set_option autoImplicit false

namespace Tenure

namespace Check

/-- Checks trees in order and gives the type of the last. -/
def inOrder (visit : Tree → Check Ty) : List Tree → Ty → Check Ty
  | [], last => pure last
  | t :: rest, _ => do inOrder visit rest (← visit t)

/-! ## Items -/

/-- Declares parameters. -/
def declareParameters : List (Tree × Ty) → Check Unit
  | [] => pure ()
  | (p, type) :: rest => do
    define (← p.name) type (← p.isMutable)
    declareParameters rest

/-- Declares functions in the innermost scope. -/
def declareFunctions : List Tree → Check (List Signature)
  | [] => pure []
  | t :: rest => do
    let s ← signature t
    define (← t.name) s.type false
    return s :: (← declareFunctions rest)

/-- A function item: its body, a block, has to have the result type of its signature. -/
def function (visit : Tree → Check Ty) (t : Tree) (s : Signature) : Check Unit := do
  let name ← t.name
  match ← t.child .block with
  | none => report (.noBody name)
  | some body =>
    onScopes Scopes.enter
    declareParameters ((← t.parametersOf).zip s.parameters)
    modify fun c => { c with functions := ⟨name, s.result⟩ :: c.functions }
    let got ← visit body
    modify fun c => { c with functions := c.functions.drop 1, scopes := c.scopes.exit }
    require (name = "main" || got = s.result) (.resultMismatch name got s.result)

/-- The type of the last of the children of a block, whose functions are known with the given signatures. -/
def blockItems (visit : Tree → Check Ty) : List Tree → List Signature → Ty → Check Ty
  | [], _, last => pure last
  | t :: rest, signatures, _ => do
    if (← t.form) = .function then
      function visit t (signatures.headD ⟨[], .unit⟩)
      blockItems visit rest (signatures.drop 1) .unit
    else
      blockItems visit rest signatures (← visit t)

/-- A block: its functions are declared first, and its type is that of its last child. -/
def block (visit : Tree → Check Ty) (t : Tree) : Check Ty :=
  inScope do
    let signatures ← declareFunctions (← t.childrenOf .function)
    blockItems visit t.children signatures .unit

/-- A function that is declared where it stands. -/
def functionItem (visit : Tree → Check Ty) (t : Tree) : Check Ty := do
  let s ← signature t
  define (← t.name) s.type false
  function visit t s
  return .unit

/-- The functions of a crate with the signatures under which they are known, after those known before. Of
functions with one name the first counts. -/
def declareGlobals : List Tree → List (Text × Signature) → Check (List (Text × Signature))
  | [], known => pure known
  | t :: rest, known => do
    let name ← t.name
    if known.any fun entry => entry.1 = name then
      report (.duplicateFunction name)
      declareGlobals rest known
    else
      let s ← signature t
      onScopes fun scopes => scopes.defineGlobal name s.type
      declareGlobals rest (known ++ [(name, s)])

/-- The signature under which a function of a crate is known. -/
def knownAs (known : List (Text × Signature)) (name : Text) : Signature :=
  match known.find? fun entry => entry.1 = name with
  | some entry => entry.2
  | none => ⟨[], .unit⟩

/-- The first function of a name, and the other functions. -/
def splitNamed (name : Text) : List Tree → Inspect (Option Tree × List Tree)
  | [] => .ok (none, [])
  | t :: rest => do
    if (← t.name) = name then return (some t, rest)
    else
      let (found, others) ← splitNamed name rest
      return (found, t :: others)

/-- Checks functions of a crate. -/
def crateFunctions (visit : Tree → Check Ty) (known : List (Text × Signature)) : List Tree → Check Unit
  | [] => pure ()
  | t :: rest => do
    function visit t (knownAs known (← t.name))
    crateFunctions visit known rest

/-- A crate: all functions are declared first, and the first one named `main`, which has to be there, is checked
after everything else. -/
def crate (visit : Tree → Check Ty) (t : Tree) : Check Ty := do
  let functions ← t.childrenOf .function
  let known ← declareGlobals functions []
  let (main, others) ← splitNamed "main" functions
  crateFunctions visit known others
  let _ ← inOrder visit (← Tree.select (· ≠ .function) t.children) .unit
  match main with
  | none => report .noMain
  | some m => function visit m (knownAs known "main")
  return .unit

/-! ## Statements -/

/-- A let statement. Without an initializer the name is declared without a value. -/
def letStatement (visit : Tree → Check Ty) (t : Tree) : Check Ty := do
  let name ← t.name
  let mutable ← t.isMutable
  let declared ← match ← t.child .ascription with
    | none => pure none
    | some written => do pure (some (← ascription name (some written)))
  match ← t.initializer with
  | some e =>
    let got ← visit e
    match declared with
    | none => define name got mutable
    | some type =>
      require (type = got) (.initialMismatch got name type)
      define name type mutable
  | none =>
    require declared.isSome (.ascriptionNeeded name)
    let loops := (← get).loops
    onScopes fun s => s.defineDeferred name (declared.getD .unit) mutable loops
  return .unit

/-- An expression as a statement has the unit type, except that a return keeps its type. -/
def expressionStatement (visit : Tree → Check Ty) (t : Tree) : Check Ty := do
  let e := t.last
  let type ← visit e
  return if Form.ofTag e.tag = .returning then type else .unit

/-- A return, whose value has to have the result type of the function around it. -/
def returning (visit : Tree → Check Ty) (t : Tree) : Check Ty := do
  let type ← visit t.last
  match (← get).functions with
  | [] => report .strayReturn
  | f :: _ => require (f.name = "main" || type = f.result) (.resultMismatch f.name type f.result)
  return type

/-! ## Expressions -/

/-- A literal. -/
def literal (t : Tree) : Check Ty := do
  let source ← Literal.source t
  let kind := Literal.kindOf source
  match Literal.typeOfKind? kind with
  | none =>
    report (.unknownLiteral kind)
    return .unit
  | some type =>
    match Literal.read source with
    | .ok _ => return type
    | .error e =>
      report (.literal e)
      return type

/-- A variable. -/
def path (t : Tree) : Check Ty := do
  let name ← t.name
  match (← get).scopes.lookup? name with
  | some type => return type
  | none =>
    report (.unbound name)
    return .unit

/-- The type of a binary operation on operands of given types. -/
def binary (left right : Ty) (op : Text) : Check Ty := do
  if op = "+" ∨ op = "-" ∨ op = "*" ∨ op = "/" ∨ op = "%" then
    require left.isNumeric (.numericOperand .left op left)
    require right.isNumeric (.numericOperand .right op right)
    return left.wider right
  else if op = "&&" ∨ op = "||" then
    require left.isBool (.booleanOperand .left op left)
    require right.isBool (.booleanOperand .right op right)
    return .bool
  else if op = "&" ∨ op = "|" ∨ op = "^" then
    if left = .bool ∧ right = .bool then return .bool
    else if left = .i32 ∧ right = .i32 then return .i32
    else
      report (.bitOperands op left right)
      return left
  else if op = "<<" ∨ op = ">>" then
    require (left = .i32 && right = .i32) (.shiftOperands op left right)
    return .i32
  else
    report (.unknownBinary op)
    return .unit

/-- An operation on two operands. -/
def operation (visit : Tree → Check Ty) (t : Tree) : Check Ty := do
  match ← t.operands with
  | [a, b] =>
    let left ← visit a
    let right ← visit b
    binary left right (← t.operator)
  | _ => malformed t

/-- The complaint about comparing values of two types for order, if there is one. -/
def orderComplaint? (left right : Ty) : Option CheckError :=
  if left.isNumeric && right.isNumeric then none
  else if left = .char ∧ right = .char then none
  else if left ≠ right then some (.incomparable left right)
  else some (.unordered left)

/-- A comparison. -/
def comparison (visit : Tree → Check Ty) (t : Tree) : Check Ty := do
  match ← t.operands with
  | [a, b] =>
    let left ← visit a
    let right ← visit b
    let op ← t.operator
    if op = "==" ∨ op = "!=" then
      require ((left.isNumeric && right.isNumeric) || left = right) (.incomparable left right)
    else if op = "<" ∨ op = "<=" ∨ op = ">" ∨ op = ">=" then
      match orderComplaint? left right with
      | none => pure ()
      | some e => report e
    else report (.unknownComparison op)
    return .bool
  | _ => malformed t

/-- A unary operation. -/
def negation (visit : Tree → Check Ty) (t : Tree) : Check Ty := do
  let type ← visit t.last
  let op ← t.operator
  if op = "!" then require (type.isBool || type = .i32) (.complementOperand type)
  else if op = "-" then require type.isNumeric (.negationOperand type)
  else report (.unknownUnary op)
  return type

/-- Either branch may give a waiting binding its first value: the second branch starts from where the first did. -/
def branches (visit : Tree → Check Ty) (thenBranch : Tree) (elseBranch : Option Tree) : Check Ty := do
  let before := (← get).scopes.awaiting
  let thenType ← visit thenBranch
  let after := (← get).scopes.awaiting
  let settled := before.filter fun n => !after.contains n
  onScopes fun s => { s with awaiting := settled ++ s.awaiting }
  match elseBranch with
  | none => pure ()
  | some e =>
    let elseType ← visit e
    require (thenType = elseType) (.branchMismatch thenType elseType)
  onScopes fun s => { s with awaiting := s.awaiting.filter fun n => !settled.contains n }
  return thenType

/-- A conditional; its type is that of its first branch. -/
def conditional (visit : Tree → Check Ty) (t : Tree) : Check Ty := do
  match ← t.operands with
  | condition :: thenBranch :: rest =>
    let type ← visit condition
    require type.isBool (.condition .conditional type)
    branches visit thenBranch rest.head?
  | _ => malformed t

/-- A loop. -/
def loop (visit : Tree → Check Ty) (t : Tree) : Check Ty := do
  match ← t.operands with
  | [condition, body] =>
    let type ← visit condition
    require type.isBool (.condition .loop type)
    modify fun c => { c with loops := c.loops + 1 }
    let _ ← visit body
    modify fun c => { c with loops := c.loops - 1 }
    return .unit
  | _ => malformed t

/-- Compares arguments with parameters, numbered from a number on. -/
def compareArguments : List Ty → List Ty → Nat → Check Unit
  | p :: ps, a :: as, number => do
    require (p = a) (.argumentType number p a)
    compareArguments ps as (number + 1)
  | _, _, _ => pure ()

/-- The types of trees. -/
def all (visit : Tree → Check Ty) : List Tree → Check (List Ty)
  | [] => pure []
  | t :: rest => do
    let type ← visit t
    return type :: (← all visit rest)

/-- A call. -/
def call (visit : Tree → Check Ty) (t : Tree) : Check Ty := do
  match ← t.operands with
  | [] => malformed t
  | callee :: arguments =>
    let type ← visit callee
    let got ← all visit arguments
    match type with
    | .function parameters result =>
      if got.length = parameters.length then compareArguments parameters got 1
      else report (.argumentCount parameters.length got.length)
      return result
    | _ =>
      report (.notFunction type)
      return .unit

/-- A store of a value of a given type into a target. Only a plain assignment can be the first of a name. -/
def store (visit : Tree → Check Ty) (target : Tree) (value : Ty) (plain : Bool) : Check Unit := do
  match ← target.form with
  | .path | .identifier =>
    let name ← target.name
    match (← get).scopes.lookup? name with
    | none => report (.undeclaredTarget name)
    | some declared =>
      let c ← get
      if plain && c.scopes.canSettle name c.loops then onScopes fun s => s.settle name
      else require (c.scopes.isMutable name) (.immutableTarget name)
      require (declared = value) (.targetType value name declared)
  | .dereference =>
    let type ← visit target.last
    match type with
    | .reference goal mutable =>
      require mutable .immutableReference
      require (goal = value) (.referenceType value type)
    | _ => report (.notReference type)
  | _ => report .targetForm

/-- An assignment; its value is checked before its target. -/
def assignment (visit : Tree → Check Ty) (t : Tree) : Check Ty := do
  match ← t.operands with
  | [target, value] =>
    let type ← visit value
    store visit target.unwrapped type true
    return .unit
  | _ => malformed t

/-- The operator of a compound assignment without its equals sign. -/
def compoundOperator? (op : Text) : Option Text :=
  if op.size < 2 then none
  else if op.endsWith "=" then some (op.trimTail "=") else none

/-- An assignment that combines the old value with another. -/
def compoundAssignment (visit : Tree → Check Ty) (t : Tree) : Check Ty := do
  match ← t.operands, compoundOperator? (← t.operator) with
  | [target, value], some op =>
    let target := target.unwrapped
    let left ← visit target
    let right ← visit value
    store visit target (← binary left right op) false
    return .unit
  | _, _ => malformed t

/-- A borrow. A variable that may not change cannot be borrowed for change. -/
def borrow (visit : Tree → Check Ty) (t : Tree) : Check Ty := do
  let operand := t.last
  if operand.isPresent then
    let mutable ← t.isMutable
    let type ← visit operand
    if mutable then
      let target := operand.unwrapped
      let form ← target.form
      if form = .path ∨ form = .identifier then
        let name ← target.name
        let scopes := (← get).scopes
        require ((scopes.lookup? name).isNone || scopes.isMutable name) (.mutableBorrow name)
    return .reference type mutable
  else malformed t

/-- A dereference. -/
def dereference (visit : Tree → Check Ty) (t : Tree) : Check Ty := do
  let type ← visit t.last
  match type with
  | .reference target _ => return target
  | _ =>
    report (.notReference type)
    return .unit

/-- The rule for a node of a form. -/
def rule (visit : Tree → Check Ty) (f : Form) (t : Tree) : Check Ty :=
  match f with
  | .crate => crate visit t
  | .function => functionItem visit t
  | .block => block visit t
  | .letStatement => letStatement visit t
  | .expressionStatement => expressionStatement visit t
  | .literal => literal t
  | .path | .identifier => path t
  | .returning => returning visit t
  | .arithmetic | .lazyBoolean => operation visit t
  | .comparison => comparison visit t
  | .negation => negation visit t
  | .grouped => visit t.last
  | .conditional => conditional visit t
  | .loop => loop visit t
  | .call => call visit t
  | .assignment => assignment visit t
  | .compoundAssignment => compoundAssignment visit t
  | .borrow => borrow visit t
  | .dereference => dereference visit t
  | .ascription | .terminal | .parameters | .parameter => pure .unit
  | .other => inOrder visit t.children .unit

/-- Checks a tree down to a depth, below which there are no nodes left. -/
def toDepth : Nat → Tree → Check Ty
  | 0, _ => pure .unit
  | _ + 1, .absent => pure .unit
  | depth + 1, .node tag children val type =>
    rule (toDepth depth) (Form.ofTag tag) (.node tag children val type)

/-- The type of a tree; complaints are added to the state. -/
def node (t : Tree) : Check Ty := toDepth t.height t

end Check

/-- The type of a builtin. -/
def Builtin.type : Builtin → Ty
  | .abs => .function [.i32] .i32
  | .min | .max => .function [.i32, .i32] .i32
  | .sqrt => .function [.f32] .f32

namespace Checker

/-- The state in which only the builtins are known. -/
def initial : Checker :=
  { scopes := Builtin.all.foldl (fun s b => s.defineGlobal (Text.ofString b.name) b.type) {} }

/-- Checks a tree in a state; the outcome is its type. -/
def checkNode (c : Checker) (t : Tree) : Inspect Ty × Checker := (Check.node t).run c

/-- Checks a whole program from the initial state; the outcome is the list of complaints. -/
def checkProgram (t : Tree) : Inspect (List CheckError) × Checker :=
  match initial.checkNode t with
  | (.ok _, c) => (.ok c.errors, c)
  | (.error e, c) => (.error e, c)

end Checker

/-- All complaints about a program. -/
def Tree.complaints (t : Tree) : Inspect (List CheckError) := (Checker.checkProgram t).1

end Tenure
