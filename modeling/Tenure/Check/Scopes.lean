import Tenure.Typing.Ty

/-!
# Scopes of typed names

A stack of scopes maps names to bindings, and inner scopes shadow outer ones. A binding that was declared without
a value awaits its first assignment, which it accepts even if it may not change otherwise, but only at the depth
of loops at which it was declared. Bindings are numbered in the order of their declaration, so that the bindings
still waiting can be told apart from later bindings of the same name.
-/

set_option autoImplicit false

namespace Tenure

/-- What is known of a declared name. -/
structure Binding where
  type : Ty
  mutable : Bool
  /-- The depth of loops at the declaration. -/
  loops : Int := 0
  /-- How many declarations came before. -/
  serial : Nat
deriving DecidableEq, Repr

/-- The bindings of one scope, the latest first. -/
abbrev Scope := List (Text × Binding)

namespace Scope

/-- The binding of a name in a scope. -/
def find? (s : Scope) (name : Text) : Option Binding :=
  (List.find? (fun entry => entry.1 = name) s).map Prod.snd

end Scope

/-- A stack of scopes around which there is always the global one. -/
structure Scopes where
  /-- The scopes inside the global one, innermost first. -/
  inner : List Scope := []
  global : Scope := []
  /-- The serial numbers of the bindings without a value. -/
  awaiting : List Nat := []
  /-- The number of declarations so far. -/
  declared : Nat := 0
deriving DecidableEq, Repr

namespace Scopes

/-- All scopes, innermost first. -/
def all (s : Scopes) : List Scope := s.inner ++ [s.global]

/-- The number of scopes, the global one included. -/
def depth (s : Scopes) : Nat := s.inner.length + 1

/-- Opens a scope. -/
def enter (s : Scopes) : Scopes := { s with inner := [] :: s.inner }

/-- Closes the innermost scope; the global one stays. -/
def exit (s : Scopes) : Scopes := { s with inner := s.inner.drop 1 }

/-- Adds a binding to the innermost scope. -/
def bind (s : Scopes) (name : Text) (b : Binding) : Scopes :=
  match s.inner with
  | [] => { s with global := (name, b) :: s.global, declared := s.declared + 1 }
  | scope :: rest => { s with inner := ((name, b) :: scope) :: rest, declared := s.declared + 1 }

/-- Declares a name with a value in the innermost scope. -/
def define (s : Scopes) (name : Text) (type : Ty) (mutable : Bool) : Scopes :=
  s.bind name { type, mutable, serial := s.declared }

/-- Declares a name without a value in the innermost scope. -/
def defineDeferred (s : Scopes) (name : Text) (type : Ty) (mutable : Bool) (loops : Int) : Scopes :=
  { s.bind name { type, mutable, loops, serial := s.declared } with
    awaiting := s.declared :: s.awaiting }

/-- Declares a name in the global scope; it cannot change. -/
def defineGlobal (s : Scopes) (name : Text) (type : Ty) : Scopes :=
  { s with
    global := (name, { type, mutable := false, serial := s.declared }) :: s.global
    declared := s.declared + 1 }

/-- The innermost binding of a name. -/
def find? (s : Scopes) (name : Text) : Option Binding := s.all.findSome? fun scope => scope.find? name

/-- The type of a name. -/
def lookup? (s : Scopes) (name : Text) : Option Ty := (s.find? name).map Binding.type

/-- Whether a name is bound and may change. -/
def isMutable (s : Scopes) (name : Text) : Bool :=
  match s.find? name with
  | some b => b.mutable
  | none => false

/-- Whether a binding awaits its first assignment. -/
def awaits (s : Scopes) (b : Binding) : Bool := s.awaiting.contains b.serial

/-- Whether an assignment at a depth of loops would be the first of a name. -/
def canSettle (s : Scopes) (name : Text) (loops : Int) : Bool :=
  match s.find? name with
  | some b => s.awaits b && b.loops = loops
  | none => false

/-- Gives a name its first value. -/
def settle (s : Scopes) (name : Text) : Scopes :=
  match s.find? name with
  | some b => { s with awaiting := s.awaiting.filter (· ≠ b.serial) }
  | none => s

end Scopes

end Tenure
