import Tenure.Text.Quoted
import Tenure.Tree.Payload

/-!
# Trees

A program is a tagged tree: every node has a tag, children, an optional payload and an optional literal kind.
A child may be absent. Inspecting an absent node is not an answer but a fault, which the functions here report
as `Missing`; on trees without absent nodes none of them does.
-/

set_option autoImplicit false

namespace Tenure

/-- A tree, or the place of a node that is not there. -/
inductive Tree where
  | absent
  | node (tag : Text) (children : List Tree) (val : Payload) (type : Text)
deriving Repr, Inhabited

/-- The forms of nodes that have a meaning of their own. -/
inductive Form where
  | crate
  | function
  | parameters
  | parameter
  | ascription
  | block
  | letStatement
  | expressionStatement
  | literal
  | path
  | arithmetic
  | comparison
  | lazyBoolean
  | compoundAssignment
  | negation
  | grouped
  | conditional
  | loop
  | call
  | returning
  | assignment
  | borrow
  | dereference
  | identifier
  | terminal
  /-- Any other tag: a wrapper around its children. -/
  | other
deriving DecidableEq, Repr, Inhabited

namespace Form

/-- The tags of the forms. -/
def tags : List (Form × String) :=
  [(.crate, "Crate"), (.function, "Function_"), (.parameters, "FunctionParameters"),
   (.parameter, "FunctionParam"), (.ascription, "Type_"), (.block, "BlockExpression"),
   (.letStatement, "LetStatement"), (.expressionStatement, "ExpressionStatement"),
   (.literal, "LiteralExpression"), (.path, "PathExpression_"),
   (.arithmetic, "ArithmeticOrLogicalExpression"), (.comparison, "ComparisonExpression"),
   (.lazyBoolean, "LazyBooleanExpression"), (.compoundAssignment, "CompoundAssignmentExpression"),
   (.negation, "NegationExpression"), (.grouped, "GroupedExpression"), (.conditional, "IfExpression"),
   (.loop, "PredicateLoopExpression"), (.call, "CallExpression"), (.returning, "ReturnExpression"),
   (.assignment, "AssignmentExpression"), (.borrow, "BorrowExpression"),
   (.dereference, "DereferenceExpression"), (.identifier, "Identifier"), (.terminal, "Terminal")]

/-- The form that a tag names. -/
def ofTag (tag : Text) : Form :=
  match tags.find? fun entry => Text.ofString entry.2 = tag with
  | some entry => entry.1
  | none => .other

/-- The tag of a form. -/
def tag (f : Form) : Text :=
  match tags.find? fun entry => entry.1 = f with
  | some entry => Text.ofString entry.2
  | none => ∅

end Form

/-- The fault of inspecting a node that is not there. -/
inductive Missing where
  | node
deriving DecidableEq, Repr

/-- A result of inspecting a tree. -/
abbrev Inspect := Except Missing

namespace Tree

/-- The tag of a node. -/
def tag : Tree → Text
  | .absent => ∅
  | .node tag _ _ _ => tag

/-- The children of a node. -/
def children : Tree → List Tree
  | .absent => []
  | .node _ children _ _ => children

/-- The payload of a node. -/
def val : Tree → Payload
  | .absent => .none
  | .node _ _ val _ => val

/-- The literal kind of a node. -/
def type : Tree → Text
  | .absent => ∅
  | .node _ _ _ type => type

/-- Whether there is a node. -/
def isPresent : Tree → Bool
  | .absent => false
  | .node _ _ _ _ => true

/-- The form of a node. -/
def form : Tree → Inspect Form
  | .absent => .error .node
  | .node tag _ _ _ => .ok (Form.ofTag tag)

/-- The text of the payload of a node. -/
def text (t : Tree) : Text := t.val.toText

/-- The first tree of a list whose form passes a test. -/
def firstWith (p : Form → Bool) : List Tree → Inspect (Option Tree)
  | [] => .ok none
  | t :: rest => do if p (← t.form) then return some t else firstWith p rest

/-- The trees of a list that pass a test of their form. -/
def select (p : Form → Bool) : List Tree → Inspect (List Tree)
  | [] => .ok []
  | t :: rest => do
    let keep := p (← t.form)
    let others ← select p rest
    return if keep then t :: others else others

/-- The first child of a form. -/
def child (f : Form) (t : Tree) : Inspect (Option Tree) := firstWith (· = f) t.children

/-- All children of a form. -/
def childrenOf (f : Form) (t : Tree) : Inspect (List Tree) := select (· = f) t.children

/-- All children with a tag. -/
def childrenTagged (tag : Text) (t : Tree) : List Tree := t.children.filter fun c => c.tag = tag

/-- The initializer of a let statement: its first child that is no name, no terminal and no ascription. -/
def initializer (t : Tree) : Inspect (Option Tree) :=
  firstWith (fun f => f ≠ .identifier ∧ f ≠ .terminal ∧ f ≠ .ascription) t.children

/-- The parameters of a function item. -/
def parametersOf (t : Tree) : Inspect (List Tree) := do
  match ← t.child .parameters with
  | some list => list.childrenOf .parameter
  | none => return []

/-- The last child; absent if there are no children. -/
def last (t : Tree) : Tree := t.children.getLast?.getD .absent

/-- The identifier that a node introduces or refers to: its payload, or that of its identifier child. -/
def name (t : Tree) : Inspect Text := do
  if t.val.isSome then return t.text
  else
    match ← t.child .identifier with
    | some i => return i.text
    | none => return ∅

/-- Whether a terminal of a list says that something may be changed. -/
def saysMutable : List Tree → Inspect Bool
  | [] => .ok false
  | t :: rest => do
    if (← t.form) = .terminal ∧ t.text = "mut" then return true else saysMutable rest

/-- Whether a declaration or a borrow allows change. -/
def isMutable (t : Tree) : Inspect Bool := saysMutable t.children

/-- The symbol of an operator node: its payload, or that of its first terminal. -/
def operator (t : Tree) : Inspect Text := do
  if t.val.isSome then return t.text
  else
    match ← t.child .terminal with
    | some s => return s.text
    | none => return ∅

/-- The children that are not terminals. -/
def operands (t : Tree) : Inspect (List Tree) := select (· ≠ .terminal) t.children

mutual

/-- How deep a tree is: nothing for an absent node, one more than its deepest child for a node. -/
def height : Tree → Nat
  | .absent => 0
  | .node _ children _ _ => heights children + 1

/-- The greatest height in a list. -/
def heights : List Tree → Nat
  | [] => 0
  | t :: rest => max t.height (heights rest)

end

/-- The payload of a node as diagnostics show it. -/
def shownPayload (val : Payload) : Text := if val.isSome then " " ++ val.toText.quoted else ∅

/-- The literal kind of a node as diagnostics show it. -/
def shownType (type : Text) : Text := if type.isEmpty then ∅ else " :" ++ type

mutual

/-- A tree as diagnostics show it. -/
def shown : Tree → Text
  | .absent => "nil"
  | .node tag children val type =>
    "(" ++ tag ++ shownPayload val ++ shownType type ++ shownAll children ++ ")"

/-- Trees as diagnostics show them, each after a space. -/
def shownAll : List Tree → Text
  | [] => ∅
  | t :: rest => " " ++ t.shown ++ shownAll rest

end

/-- A tree without the parentheses around it: the last child of a group, as often as needed. -/
def ungroup : Nat → Tree → Tree
  | 0, t => t
  | fuel + 1, t =>
    match t with
    | .absent => .absent
    | .node tag children _ _ =>
      if Form.ofTag tag = .grouped ∧ !children.isEmpty then ungroup fuel t.last else t

/-- A tree without redundant parentheses. -/
def unwrapped (t : Tree) : Tree := ungroup t.height t

mutual

/-- A tree in which every node is there. -/
def Complete : Tree → Prop
  | .absent => False
  | .node _ children _ _ => AllComplete children

/-- Trees in which every node is there. -/
def AllComplete : List Tree → Prop
  | [] => True
  | t :: rest => t.Complete ∧ AllComplete rest

end

end Tree

end Tenure
