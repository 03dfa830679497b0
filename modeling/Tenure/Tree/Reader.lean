import Tenure.Json.Reader
import Tenure.Text.Case
import Tenure.Tree.Draft

/-!
# Reading trees

Trees are written as structured text with the fields `tag`, `children`, `val` and `type`, in any case. A null
leaves a tag or a type as it is, empties a payload or the children, and as a child stands for an absent node. Of a
repeated field the last counts, where repeated children are read on top of the earlier ones (`Draft`).
-/

set_option autoImplicit false

namespace Tenure

mutual

/-- The payload that a value stands for. -/
def Payload.ofValue : Json.Value → Payload
  | .null => .none
  | .bool b => .bool b
  | .number token => .numeral token
  | .string t => .text t
  | .array items => .list (Payload.ofValues items)
  | .object members => .map (Payload.ofMembers members [])

/-- The payloads that values stand for. -/
def Payload.ofValues : List Json.Value → List Payload
  | [] => []
  | v :: rest => Payload.ofValue v :: Payload.ofValues rest

/-- The members that named values stand for, sorted by name, the last of equal names only. -/
def Payload.ofMembers : List (Text × Json.Value) → List (Payload × Payload) → List (Payload × Payload)
  | [], acc => acc
  | (key, v) :: rest, acc => Payload.ofMembers rest (Payload.insertMember (.text key) (Payload.ofValue v) acc)

end

namespace Draft

mutual

/-- Reads a value on top of a node. -/
def readOver? (old : Draft) : Json.Value → Option Draft
  | .null => some old
  | .object members => readFields? old members
  | _ => none

/-- Reads the fields of a node in order. -/
def readFields? (d : Draft) : List (Text × Json.Value) → Option Draft
  | [] => some d
  | (key, value) :: rest =>
    let name := key.folded
    let next : Option Draft :=
      if name = "tag" then
        match value with
        | .string tag => some (d.withTag tag)
        | .null => some d
        | _ => none
      else if name = "type" then
        match value with
        | .string type => some (d.withType type)
        | .null => some d
        | _ => none
      else if name = "val" then some (d.withVal (Payload.ofValue value))
      else if name = "children" then
        match value with
        | .array items => (readPlaces? d.places items).map fun places => d.withPlaces places items.length
        | .null => some (d.withPlaces [] 0)
        | _ => none
      else some d
    match next with
    | some d => readFields? d rest
    | none => none

/-- Reads children into the places of earlier ones; places behind the last child stay as they are. -/
def readPlaces? (old : List Draft) : List Json.Value → Option (List Draft)
  | [] => some old
  | .null :: rest => do some (.absent :: (← readPlaces? (old.drop 1) rest))
  | value :: rest => do
    let child ← readOver? (old.headD .absent).orBlank value
    some (child :: (← readPlaces? (old.drop 1) rest))

end

end Draft

namespace Tree

/-- Why a text is not a tree. -/
inductive ReadError where
  /-- The text is not well formed, or a field has the wrong kind of value. -/
  | format
  /-- The root has no tag. -/
  | noTag
deriving DecidableEq, Repr

/-- The text of a failure to read a tree. What is wrong with the form is not told apart. -/
def ReadError.message : ReadError → Text
  | .format => "parse tree: "
  | .noTag => "parse tree: root node has no tag"

/-- The tree of a value, the root possibly without a tag. -/
def ofValue? (v : Json.Value) : Option Tree := (Draft.blank.readOver? v).map Draft.tree

/-- Reads the tree that a text begins with. -/
def read (t : Text) : Except ReadError Tree :=
  match (Json.first? t).bind ofValue? with
  | none => .error .format
  | some tree => if tree.tag.isEmpty then .error .noTag else .ok tree

end Tree

end Tenure
