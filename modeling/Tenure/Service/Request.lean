import Tenure.Cbor.Decode
import Tenure.Json.Reader
import Tenure.Service.MediaType
import Tenure.Tree.Binary

/-!
# Requests to the evaluation service

A request names a procedure and carries a tree, written as structured text or as binary data. The media type of its
body says which.
-/

set_option autoImplicit false

namespace Tenure

namespace Service

/-- The procedures of the service. -/
inductive Procedure where
  | evaluate
  | check
  | compile
deriving DecidableEq, Repr

/-- The name of a procedure. -/
def Procedure.name : Procedure → Text
  | .evaluate => "Evaluate"
  | .check => "Check"
  | .compile => "Compile"

/-- The procedure of a name. -/
def Procedure.ofName? (name : Text) : Option Procedure :=
  [Procedure.evaluate, .check, .compile].find? fun p => p.name = name

/-- The path under which a procedure is called. -/
def Procedure.path (p : Procedure) : Text := "/rivet.v1.EvaluationService/" ++ p.name

/-- How the body of a request is written. -/
inductive Format where
  | json
  | cbor
  /-- A format of schema messages, which no request of this service fits. -/
  | schema
deriving DecidableEq, Repr

/-- What a body asks for. -/
structure Request where
  /-- The tree; absent if the body has none. -/
  tree : Tree := .absent
  /-- Whether a listing of the program is wanted. -/
  disassemble : Bool := false
deriving Repr

/-- The format that a media type stands for. With parameters only one is known. -/
def Format.ofMediaType? (contentType : Text) : Option Format := do
  let ⟨base, parameters⟩ ← MediaType.read? contentType
  match parameters with
  | [] =>
    if base = "application/json" then some .json
    else if base = "application/cbor" then some .cbor
    else if base = "application/proto" then some .schema
    else none
  | [(name, value)] =>
    if base = "application/json" ∧ name = "charset" ∧ value.lower = "utf-8" then some .schema else none
  | _ => none

/-! ## Bodies -/

/-- Reads the fields of a request in order: the tree, as far as it is read, and whether a listing is wanted. Only an
evaluation can ask for a listing. -/
def readMembers? (p : Procedure) (tree : Draft) (disassemble : Bool) :
    List (Text × Json.Value) → Option Request
  | [] => some ⟨tree.tree, disassemble⟩
  | (key, value) :: rest =>
    let name := key.folded
    if name = "tree" then
      match value with
      | .null => readMembers? p .absent disassemble rest
      | value => do readMembers? p (← tree.orBlank.readOver? value) disassemble rest
    else if name = "disassemble" ∧ p = .evaluate then
      match value with
      | .bool b => readMembers? p tree b rest
      | .null => readMembers? p tree disassemble rest
      | _ => none
    else readMembers? p tree disassemble rest

/-- The request that a value stands for. -/
def Request.ofValue? (p : Procedure) : Json.Value → Option Request
  | .null => some {}
  | .object members => readMembers? p .absent false members
  | _ => none

/-- The request that an item stands for. -/
def Request.ofItem? (p : Procedure) (item : Cbor.Item) : Option Request := do
  let r ← Cbor.Record.ofItem? item
  let tree ← r.read 1 .absent Tree.ofItem?
  let disassemble ← if p = .evaluate then r.read 2 false Cbor.Item.bool? else some false
  some ⟨tree, disassemble⟩

/-- Why a body holds no request. -/
inductive BodyFault where
  /-- There is nothing in the body. -/
  | empty
  | undecodable
deriving DecidableEq, Repr

/-- Reads the body of a request. -/
def Request.read (p : Procedure) (format : Format) (body : Text) : Except BodyFault Request :=
  match format with
  | .schema => .error .undecodable
  | .json =>
    if (Json.skipBlanks body.octets).isEmpty then .error .empty
    else
      match (Json.first? body).bind (Request.ofValue? p) with
      | some r => .ok r
      | none => .error .undecodable
  | .cbor =>
    if body.isEmpty then .error .empty
    else
      match (Cbor.decode? body.octets).bind (Request.ofItem? p) with
      | some r => .ok r
      | none => .error .undecodable

end Service

end Tenure
