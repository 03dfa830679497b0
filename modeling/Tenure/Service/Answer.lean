import Tenure.Check.Error
import Tenure.Service.Request

/-!
# Answers of the evaluation service

An answer is the outcome of a procedure, or the refusal of a request with a status and a code.
-/

set_option autoImplicit false

namespace Tenure

namespace Service

/-- The outcome of an evaluation. -/
structure Evaluation where
  success : Bool := false
  result : Text := ∅
  errors : List Text := []
  listing : Text := ∅
  steps : Nat := 0
  cached : Bool := false
deriving DecidableEq, Repr

/-- The outcome of a compilation. -/
structure Compilation where
  success : Bool := false
  image : List UInt8 := []
  instructions : Nat := 0
  cached : Bool := false
  errors : List Text := []
deriving DecidableEq, Repr

/-- Why a request has no outcome. -/
inductive Refusal where
  | unknownProcedure
  | wrongMethod
  | unsupportedFormat
  | emptyBody
  | undecodable
  | noTree
deriving DecidableEq, Repr

/-- The status of a refusal. -/
def Refusal.status : Refusal → Nat
  | .unknownProcedure => 404
  | .wrongMethod => 405
  | .unsupportedFormat => 415
  | .emptyBody => 501
  | .undecodable => 400
  | .noTree => 400

/-- The code of a refusal; empty where only the status speaks. -/
def Refusal.code : Refusal → Text
  | .unknownProcedure => ∅
  | .wrongMethod => ∅
  | .unsupportedFormat => ∅
  | .emptyBody => "unimplemented"
  | .undecodable => "invalid_argument"
  | .noTree => "invalid_argument"

/-- The text of a refusal, if it has one of its own. -/
def Refusal.message? : Refusal → Option Text
  | .noTree => some "tree is required"
  | _ => none

/-- The answer to a request. -/
inductive Answer where
  | evaluated (outcome : Evaluation)
  | checked (errors : List Text)
  | compiled (outcome : Compilation)
  | refused (refusal : Refusal)
  /-- The request reached for a node that is not there. -/
  | crashed
deriving DecidableEq, Repr

/-- The answer as structured text can carry it: octets that form no character are replaced. -/
def Answer.repaired : Answer → Answer
  | .evaluated o =>
    .evaluated { o with
      result := o.result.repaired
      errors := o.errors.map Text.repaired
      listing := o.listing.repaired }
  | .checked errors => .checked (errors.map Text.repaired)
  | .compiled o => .compiled { o with errors := o.errors.map Text.repaired }
  | .refused r => .refused r
  | .crashed => .crashed

end Service

end Tenure
