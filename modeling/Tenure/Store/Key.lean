import Tenure.Cbor.Item
import Tenure.Code.Image
import Tenure.Digest.Sha256
import Tenure.Tree.Basic

/-!
# Keys of trees

The key of a tree is the digest of its canonical binary form, after the magic text and version of images, so that a
change of the format never finds an old image. Payloads that are texts and numbers as they were written have the same
form.
-/

set_option autoImplicit false

namespace Tenure

/-- Puts an entry into its place in a map in canonical order; an entry with the same key is replaced. -/
def Cbor.insertEntry (key value : Cbor.Item) : List (Cbor.Item × Cbor.Item) → List (Cbor.Item × Cbor.Item)
  | [] => [(key, value)]
  | (k, v) :: rest =>
    if Cbor.keyBefore key k then (key, value) :: (k, v) :: rest
    else if Cbor.keyBefore k key then (k, v) :: insertEntry key value rest
    else (key, value) :: rest

/-- The item of an integer of any size: a plain integer if it fits, otherwise its octets under a tag. -/
def Cbor.Item.ofBig : Int → Cbor.Item
  | .ofNat n => if n < 0x10000000000000000 then .uint n else .tag 2 (.bytes (Cbor.bigEndian (Nat.log2 n / 8 + 1) n))
  | .negSucc n => if n < 0x10000000000000000 then .nint n else .tag 3 (.bytes (Cbor.bigEndian (Nat.log2 n / 8 + 1) n))

/-- The item of a point in time: its seconds, or null for no time at all. -/
def Cbor.Item.ofInstant (t : Calendar.Instant) : Cbor.Item :=
  if t.seconds = Calendar.Instant.zero.seconds ∧ t.nanos = 0 then .null else .ofInt t.seconds

mutual

/-- The binary form of a payload. -/
def Payload.item : Payload → Cbor.Item
  | .none => .null
  | .text t => .text t
  | .numeral token => .text token
  | .bool b => .bool b
  | .float x => .float x
  | .int n => .ofInt n
  | .big n => .ofBig n
  | .bytes octets => .bytes octets
  | .simple n => .simple n
  | .time t => .ofInstant t
  | .tagged number content => .tag number content.item
  | .list items => .array (Payload.itemsOf items)
  | .map members => .map (Payload.entriesOf members)

/-- The binary forms of payloads. -/
def Payload.itemsOf : List Payload → List Cbor.Item
  | [] => []
  | p :: rest => p.item :: Payload.itemsOf rest

/-- The binary forms of members, in canonical order. -/
def Payload.entriesOf : List (Payload × Payload) → List (Cbor.Item × Cbor.Item)
  | [] => []
  | (key, value) :: rest => Cbor.insertEntry key.item value.item (Payload.entriesOf rest)

end

namespace Tree

mutual

/-- The binary form of a tree; what a node does not have is left out. -/
def item : Tree → Cbor.Item
  | .absent => .null
  | .node tag children val type =>
    .map ([(.text "tag", .text tag)] ++
      (if val.isSome then [(.text "val", val.item)] else []) ++
      (if type.isEmpty then [] else [(.text "type", .text type)]) ++
      (if children.isEmpty then [] else [(.text "children", .array (itemsOf children))]))

/-- The binary forms of trees. -/
def itemsOf : List Tree → List Cbor.Item
  | [] => []
  | t :: rest => t.item :: itemsOf rest

end

/-- The octets in front of a tree's binary form in the message of its key. -/
def keySalt : Text := Image.magic ++ "/" ++ Text.ofNat Program.version ++ Text.mk [0]

/-- The key of a tree. -/
def key (t : Tree) : Text := Sha256.hexText (Sha256.digest (keySalt.octets ++ t.item.encode))

end Tree

end Tenure
