import Tenure.Tree.Basic

/-!
# Building trees

One function for each construct of the language, in the normalized shape that front ends write.
-/

set_option autoImplicit false

namespace Tenure.Tree

/-- A node of a form. -/
def ofForm (f : Form) (children : List Tree) : Tree := .node f.tag children .none ∅

/-- A node of a form with a payload. -/
def withText (f : Form) (t : Text) (children : List Tree) : Tree := .node f.tag children (.text t) ∅

/-- A crate of items. -/
def crate (items : List Tree) : Tree := ofForm .crate items

/-- An identifier. -/
def ident (name : Text) : Tree := withText .identifier name []

/-- The terminal that allows change. -/
def mutable : Tree := withText .terminal "mut" []

/-- A type ascription. -/
def ascription (type : Text) : Tree := withText .ascription type []

/-- A parameter of a function. -/
structure Parameter where
  name : Text
  type : Text
  mutable : Bool := false

/-- The node of a parameter. -/
def parameter (p : Parameter) : Tree :=
  ofForm .parameter
    ([ident p.name] ++ (if p.mutable then [mutable] else []) ++ [ascription p.type])

/-- A function item; an empty result type stands for none. -/
def function (name : Text) (parameters : List Parameter) (result : Text) (body : Tree) : Tree :=
  ofForm .function
    ([ident name] ++
      (if parameters.isEmpty then [] else [ofForm .parameters (parameters.map parameter)]) ++
      (if result.isEmpty then [] else [ascription result]) ++ [body])

/-- A block. -/
def block (children : List Tree) : Tree := ofForm .block children

/-- A let statement; an empty type and an absent initializer are left out. -/
def letStatement (name : Text) (changes : Bool) (type : Text) (initializer : Tree) : Tree :=
  ofForm .letStatement
    ([ident name] ++ (if changes then [mutable] else []) ++
      (if type.isEmpty then [] else [ascription type]) ++
      (if initializer.isPresent then [initializer] else []))

/-- An expression as a statement. -/
def statement (e : Tree) : Tree := ofForm .expressionStatement [e]

/-- A literal of a kind. -/
def literal (val : Payload) (kind : Text) : Tree := .node Form.literal.tag [] val kind

/-- An integer literal. -/
def int (n : Int) : Tree := literal (.int n) "i32"

/-- A floating point literal. -/
def float (x : Float) : Tree := literal (.float x) "f32"

/-- A truth value. -/
def bool (b : Bool) : Tree := literal (.bool b) "bool"

/-- A string literal. -/
def str (t : Text) : Tree := literal (.text t) "str"

/-- A character literal. -/
def char (code : Int) : Tree := literal (.text (Text.ofCode code)) "char"

/-- A variable. -/
def path (name : Text) : Tree := withText .path name []

/-- An arithmetic or logical operation. -/
def arithmetic (op : Text) (left right : Tree) : Tree := withText .arithmetic op [left, right]

/-- A comparison. -/
def comparison (op : Text) (left right : Tree) : Tree := withText .comparison op [left, right]

/-- A boolean operation. -/
def lazyBoolean (op : Text) (left right : Tree) : Tree := withText .lazyBoolean op [left, right]

/-- A unary operation. -/
def negation (op : Text) (operand : Tree) : Tree := withText .negation op [operand]

/-- An expression in parentheses. -/
def group (e : Tree) : Tree := ofForm .grouped [e]

/-- A conditional; an absent alternative is left out. -/
def conditional (condition thenBranch elseBranch : Tree) : Tree :=
  ofForm .conditional
    ([condition, thenBranch] ++ if elseBranch.isPresent then [elseBranch] else [])

/-- A loop with a condition. -/
def loop (condition body : Tree) : Tree := ofForm .loop [condition, body]

/-- A call. -/
def call (callee : Tree) (arguments : List Tree) : Tree := ofForm .call (callee :: arguments)

/-- A return; an absent value is left out. -/
def returning (e : Tree) : Tree := ofForm .returning (if e.isPresent then [e] else [])

/-- An assignment. -/
def assignment (target value : Tree) : Tree := ofForm .assignment [target, value]

/-- An assignment that combines the old value with another. -/
def compoundAssignment (op : Text) (target value : Tree) : Tree :=
  withText .compoundAssignment op [target, value]

/-- A shared borrow. -/
def borrow (operand : Tree) : Tree := ofForm .borrow [operand]

/-- A borrow that allows change. -/
def borrowMutable (operand : Tree) : Tree := ofForm .borrow [mutable, operand]

/-- A dereference. -/
def dereference (operand : Tree) : Tree := ofForm .dereference [operand]

end Tenure.Tree
