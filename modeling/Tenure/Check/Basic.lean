import Tenure.Check.Error
import Tenure.Check.Scopes

/-!
# The state of a check

A check walks over a tree, keeps the scopes of names, the functions around the current place and the depth of loops,
and collects complaints without stopping at the first. It stops only at a node that is not there; what was found up
to then remains in its state.
-/

set_option autoImplicit false

namespace Tenure

/-- A function whose body is being checked. -/
structure Enclosing where
  name : Text
  result : Ty
deriving DecidableEq, Repr

/-- The state of a check. -/
structure Checker where
  scopes : Scopes := {}
  /-- The complaints so far, in order. -/
  errors : List CheckError := []
  /-- The functions around the current place, innermost first. -/
  functions : List Enclosing := []
  /-- The number of loops around the current place. -/
  loops : Int := 0
deriving DecidableEq, Repr

/-- A step of a check. -/
abbrev Check := ExceptT Missing (StateM Checker)

instance : MonadLift Inspect Check where
  monadLift x := ExceptT.mk (pure x)

/-- The type of a function: its parameters and its result. -/
structure Signature where
  parameters : List Ty
  result : Ty
deriving DecidableEq, Repr

/-- The type of functions with a signature. -/
def Signature.type (s : Signature) : Ty := .function s.parameters s.result

namespace Check

/-- Adds a complaint. -/
def report (e : CheckError) : Check Unit := modify fun c => { c with errors := c.errors ++ [e] }

/-- Complains unless a condition holds. -/
def require (ok : Bool) (e : CheckError) : Check Unit := if ok then pure () else report e

/-- Complains about a node whose children do not fit its tag. -/
def malformed (t : Tree) : Check Ty := do
  report (.malformed t.tag)
  return .unit

/-- Changes the scopes. -/
def onScopes (f : Scopes → Scopes) : Check Unit := modify fun c => { c with scopes := f c.scopes }

/-- Declares a name with a value. -/
def define (name : Text) (type : Ty) (mutable : Bool) : Check Unit :=
  onScopes fun s => s.define name type mutable

/-- Carries out a step inside a scope of its own, which is closed however the step ends. -/
def inScope {α : Type} (act : Check α) : Check α :=
  ExceptT.mk fun c =>
    let (r, after) := act.run { c with scopes := c.scopes.enter }
    (r, { after with scopes := after.scopes.exit })

/-- The type that an ascription writes, on behalf of the name it is for. -/
def ascription (owner : Text) : Option Tree → Check Ty
  | none => do
    report (.missingAscription owner)
    return .unit
  | some t =>
    match Ty.read t.text with
    | .ok type => pure type
    | .error e => do
      report (.invalidAscription owner e)
      return .unit

/-- The types of parameters. -/
def parameterTypes : List Tree → Check (List Ty)
  | [] => pure []
  | p :: rest => do
    let written ← p.child .ascription
    let type ← ascription (← p.name) written
    return type :: (← parameterTypes rest)

/-- The signature of a function item. -/
def signature (t : Tree) : Check Signature := do
  let parameters ← parameterTypes (← t.parametersOf)
  match ← t.child .ascription with
  | none => return { parameters, result := .unit }
  | some written => return { parameters, result := ← ascription (← t.name) (some written) }

end Check

end Tenure
