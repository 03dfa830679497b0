import Tenure.Cbor.Field
import Tenure.Tree.Reader

/-!
# Reading trees from binary data

A node is a map with the fields `tag`, `children`, `val` and `type`, in any case; of a repeated field the first
counts. Null and undefined stand for what is not there; under a tag, for a node without content.
-/

set_option autoImplicit false

namespace Tenure

open Cbor (Item)
open Calendar (Instant)

/-- The number of the tag that only says that binary data follows. -/
def Payload.selfDescription : Nat := 55799

mutual

/-- The payload that an item stands for. Where an item stands by itself, and not under a tag, tags that only say that
binary data follows are dropped. -/
def Payload.ofItem? (alone : Bool) : Item → Option Payload
  | .uint n => some (.int n)
  | .nint n => some (if n < 0x8000000000000000 then .int (Int.negSucc n) else .big (Int.negSucc n))
  | .bytes octets => some (.bytes octets)
  | .text t => some (.text t)
  | .garbled _ => .none
  | .array items => (Payload.ofItems? items).map .list
  | .map entries => (Payload.ofEntries? [] entries).map .map
  | .tag 0 (.text t) => (Instant.read? t).map .time
  | .tag 1 (.uint n) => some (.time (.ofSeconds n))
  | .tag 1 (.nint n) => if n < 0x8000000000000000 then some (.time (.ofSeconds (Int.negSucc n))) else .none
  | .tag 1 (.float x) => some (.time (.ofFloat x))
  | .tag 2 (.bytes octets) => some (.big (Cbor.ofBigEndian octets))
  | .tag 3 (.bytes octets) => some (.big (Int.negSucc (Cbor.ofBigEndian octets)))
  | .tag number item =>
    if alone && number = Payload.selfDescription then Payload.ofItem? true item
    else if item.admits number then (Payload.ofItem? false item).map (.tagged number)
    else .none
  | .float x => some (.float x)
  | .bool b => some (.bool b)
  | .null => some .none
  | .undefined => some .none
  | .simple n => some (.simple n)

/-- The payloads that items stand for. -/
def Payload.ofItems? : List Item → Option (List Payload)
  | [] => some []
  | item :: rest => do some ((← Payload.ofItem? true item) :: (← Payload.ofItems? rest))

/-- The members that map entries stand for, in the order of their keys, on top of earlier ones. -/
def Payload.ofEntries? (members : List (Payload × Payload)) :
    List (Item × Item) → Option (List (Payload × Payload))
  | [] => some members
  | (key, value) :: rest => do
    let key ← Payload.ofItem? true key
    let value ← Payload.ofItem? true value
    if key.isKey then Payload.ofEntries? (Payload.insertMember key value members) rest else .none

end

namespace Tree

/-- A field of a node. -/
inductive Field where
  | tag
  | children
  | val
  | type
deriving DecidableEq

/-- The field that a key names. -/
def Field.ofKey? : Cbor.Key → Option Field
  | .number _ => none
  | .word t =>
    if t.lower = "tag" then some .tag
    else if t.lower = "children" then some .children
    else if t.lower = "val" then some .val
    else if t.lower = "type" then some .type
    else none

/-- A node with nothing in it. -/
def blank : Tree := .node ∅ [] .none ∅

/-- The tree with another tag. -/
def withTag (tag : Text) : Tree → Tree
  | .absent => .absent
  | .node _ children val type => .node tag children val type

/-- The tree with other children. -/
def withChildren (children : List Tree) : Tree → Tree
  | .absent => .absent
  | .node tag _ val type => .node tag children val type

/-- The tree with another payload. -/
def withVal (val : Payload) : Tree → Tree
  | .absent => .absent
  | .node tag children _ type => .node tag children val type

/-- The tree with another literal kind. -/
def withType (type : Text) : Tree → Tree
  | .absent => .absent
  | .node tag children val _ => .node tag children val type

mutual

/-- The tree that an item stands for. -/
def ofItem? : Item → Option Tree
  | .map entries => readItems? blank [] entries
  | .tag number item =>
    if item.admits number then (ofItem? item).map fun t => if t.isPresent then t else blank else none
  | .null => some .absent
  | .undefined => some .absent
  | _ => none

/-- The children that an item stands for. -/
def childrenOfItem? : Item → Option (List Tree)
  | .array items => ofItems? items
  | .tag number item => if item.admits number then childrenOfItem? item else none
  | .null => some []
  | .undefined => some []
  | _ => none

/-- The trees that items stand for. -/
def ofItems? : List Item → Option (List Tree)
  | [] => some []
  | item :: rest => do some ((← ofItem? item) :: (← ofItems? rest))

/-- Reads the fields of a node that have not been read before. -/
def readItems? (t : Tree) (done : List Field) : List (Item × Item) → Option Tree
  | [] => some t
  | (key, value) :: rest => do
    let field := Field.ofKey? (← Cbor.Key.ofItem? key)
    match field with
    | none => readItems? t done rest
    | some f =>
      if f ∈ done then readItems? t done rest
      else
        let t ← match f with
          | .tag => value.text?.map fun tag => t.withTag tag
          | .type => value.text?.map fun type => t.withType type
          | .val => (Payload.ofItem? true value).map fun val => t.withVal val
          | .children => (childrenOfItem? value).map fun children => t.withChildren children
        readItems? t (f :: done) rest

end

end Tree

end Tenure
