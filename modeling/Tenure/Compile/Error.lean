import Tenure.Check.Error
import Tenure.Compile.Environment

/-!
# Why a program does not compile

A program is rejected by the check with all complaints, or at the first violation of the rules of ownership and
borrowing, or because a construct has no code.
-/

set_option autoImplicit false

namespace Tenure

/-- What a frame is opened for. -/
inductive FrameOwner where
  | crate
  | function (name : Text)
  | block
deriving DecidableEq, Repr

/-- The text of a frame's owner. -/
def FrameOwner.text : FrameOwner → Text
  | .crate => "crate"
  | .function name => "function " ++ name
  | .block => "block"

/-- A construct that has no code. -/
inductive Unsupported where
  | emptyTree
  | root (tag : Text)
  | bindings (owner : FrameOwner) (count : Nat)
  | nesting (owner : FrameOwner)
  | noBody (name : Text)
  | malformed (tag : Text)
  | form (tag : Text)
  | borrowedValue
  | target (tag : Text)
deriving DecidableEq, Repr

/-- The variables from outside a loop that its body moves, in the order of their slots. Which of them is reported is left
open, so a failure holds them all. -/
structure MovedVariables where
  first : Text
  others : List Text
deriving DecidableEq, Repr

/-- Why a program does not compile. -/
inductive CompileError where
  | rejected (errors : List CheckError)
  | moved (name : Text)
  | movedInLoop (names : MovedVariables)
  /-- A borrow for change of a binding that is already borrowed. -/
  | mutableConflict (name : Text) (held : Borrow)
  /-- A shared borrow of a binding that is borrowed for change. -/
  | sharedConflict (name : Text)
  | unsupported (what : Unsupported)
  | unknownVariable (name : Text)
  | literal (error : LiteralError)
  | noMain
  | functionSlot (name : Text)
  | letSlot (name : Text)
deriving DecidableEq, Repr

/-- The text of a construct that has no code. -/
def Unsupported.message : Unsupported → Text
  | .emptyTree => "empty tree"
  | .root tag => "program root must be a Crate, got " ++ tag
  | .bindings owner count =>
    owner.text ++ " declares " ++ Text.ofNat count ++ " bindings, at most " ++ Text.ofNat maxFrameSlots ++
      " fit in a frame"
  | .nesting owner => owner.text ++ " nests scopes deeper than " ++ Text.ofNat maxFrames ++ " frames"
  | .noBody name => "function " ++ name ++ " has no body"
  | .malformed tag => "malformed " ++ tag
  | .form tag => tag
  | .borrowedValue => "only variables can be borrowed"
  | .target tag => "cannot assign to " ++ tag

/-- The text of a failure to compile. Of several variables that are moved in a loop it names the first. -/
def CompileError.message : CompileError → Text
  | .rejected errors => "type check failed: " ++ Text.join "; " (errors.map CheckError.message)
  | .moved name => "variable " ++ name ++ " was moved and cannot be used"
  | .movedInLoop names =>
    "moved and cannot be used: variable " ++ names.first ++ " is moved in a previous iteration of loop"
  | .mutableConflict name held =>
    "borrow conflict: cannot borrow " ++ name ++ " as mutable because it is already borrowed as " ++ held.text
  | .sharedConflict name =>
    "borrow conflict: cannot borrow " ++ name ++
      " as immutable because it is already borrowed as mutable"
  | .unsupported what => "unsupported construct: " ++ what.message
  | .unknownVariable name => "unknown variable " ++ name
  | .literal e => e.message
  | .noMain => "No main function found"
  | .functionSlot name => "function " ++ name ++ " has no slot"
  | .letSlot name => "let " ++ name ++ " has no slot"

end Tenure
