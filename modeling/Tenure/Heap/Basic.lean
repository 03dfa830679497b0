import Std.Data.HashMap
import Tenure.Heap.Node
import Tenure.Stop

/-!
# The heap

The heap is an arena of nodes with a free list, a list of pinned addresses, and a pool that finds the one node
of each string. The first five nodes are the values that exist once: the two truth values, null, the mark of an
unassigned slot and the undefined value.

Heap operations run in `HeapM`: they read the roots of whoever uses the heap, change the heap, and stop either
with an error or by a crash when they reach for a node or a child that is not there. The heap survives both.
-/

set_option autoImplicit false

namespace Tenure

/-- The errors of heap operations. -/
inductive HeapError where
  /-- Every node is reachable. -/
  | exhausted
  /-- A node would need more words than a node has. -/
  | tooLarge
  /-- A value has no form in the heap. -/
  | unrepresentable
  /-- A literal has no known kind. -/
  | unknownLiteral (kind : UInt8)
deriving DecidableEq, Repr

/-- What the collector has done so far. -/
structure Stats where
  collections : Nat := 0
  freed : Nat := 0
  live : Nat := 0
  allocations : Nat := 0
deriving DecidableEq, Repr, Inhabited

/-- The heap. -/
structure Heap where
  /-- The arena. -/
  nodes : Array Node
  /-- The marks of a collection; all clear between collections. -/
  marked : Array Bool
  /-- The first node of the free list. -/
  free : Link
  /-- Addresses kept alive until they are reachable from a root. -/
  pins : Array Link
  /-- The hash under which strings are pooled. -/
  digest : Text → UInt64
  /-- The string nodes, by the hash of their text. -/
  pool : Std.HashMap UInt64 (List Address)
  stats : Stats

instance : Inhabited Heap := ⟨⟨#[], #[], none, #[], fun _ => 0, ∅, {}⟩⟩

namespace Heap

/-- The address of the value false. -/
def falsity : Address := 0

/-- The address of the value true. -/
def truth : Address := 1

/-- The address of the value null. -/
def null : Address := 2

/-- The address of the mark of an unassigned slot. -/
def unassigned : Address := 3

/-- The address of the undefined value, which is also the unit value. -/
def undefined : Address := 4

/-- The first address that is not one of the values that exist once. -/
def bottom : Address := 5

/-- The address of a truth value. -/
def ofBool (b : Bool) : Address := if b then truth else falsity

/-- The heap size in words when none is asked for. -/
def defaultWords : Int := 10000

/-- The content of the nodes that exist from the start. -/
def initialContent : Nat → Content
  | 0 => .falsity
  | 1 => .truth
  | 2 => .null
  | 3 => .unassigned
  | 4 => .undefined
  | _ => .free

/-- How many nodes fit into an address space of 48 bits, at 128 octets a node. -/
def maxNodes : Nat := 0x20000000000

/-- How many nodes addresses can tell apart. -/
def addressable : Nat := 0x80000000

/-- The link that an index becomes as a signed word of 32 bits. Words from `addressable` on are negative: the last one
is the word for no address, and the others lead out of every arena. -/
def linkTo (i : Nat) : Link :=
  let word := i % 0x100000000
  if word < addressable then some word
  else if word = 0xffffffff then none
  else some (maxNodes + word)

/-- The node at an index of a new arena of `n` nodes. -/
def initialNode (n i : Nat) : Node :=
  if i < bottom then .fresh (initialContent i) 0
  else .vacant (if i + 1 < n then linkTo (i + 1) else none)

/-- A hash of texts: a product of primes folded over the octets. -/
def defaultDigest (t : Text) : UInt64 :=
  t.octets.foldl (fun h b => (h ^^^ b.toUInt64) * 1099511628211) 14695981039346656037

/-- Why there is no heap of a size. -/
inductive SizeFault where
  /-- The heap would hold no more than the values that exist once. -/
  | tooSmall (words : Int)
  /-- There is no such amount of memory. -/
  | tooLarge
deriving DecidableEq, Repr

/-- The text of a fault of a size. -/
def SizeFault.message : SizeFault → Text
  | .tooSmall words => "heap of " ++ Text.ofInt words ++ " words is too small"
  | .tooLarge => "runtime error: makeslice: len out of range"

/-- A heap of a size in words. A size that is not positive stands for the default. A heap may have more nodes than
addresses can tell apart; the first link of its free list that does not fit into an address then leads out of the
arena. -/
def create (digest : Text → UInt64) (words : Int) : Except SizeFault Heap :=
  let words := if words ≤ 0 then defaultWords else words
  let n := (words / nodeWords).toNat
  if n ≤ bottom then .error (.tooSmall words)
  else if maxNodes < n then .error .tooLarge
  else
    .ok {
      nodes := Array.ofFn fun i : Fin n => initialNode n i
      marked := Array.replicate n false
      free := some bottom
      pins := #[]
      digest := digest
      pool := ∅
      stats := { allocations := bottom } }

/-- The number of nodes in the arena. -/
def capacity (h : Heap) : Nat := h.nodes.size

/-- The node at an address. -/
def node? (h : Heap) (a : Address) : Option Node := h.nodes[a]?

/-- The heap with a node replaced. -/
def setNode (h : Heap) (a : Address) (n : Node) : Heap :=
  { h with nodes := h.nodes.setIfInBounds a n }

/-- The text of the string node at an address; empty if there is none. -/
def textAt (h : Heap) (a : Address) : Text :=
  match h.node? a with
  | some n => n.content.toText
  | none => ∅

/-- The pooled addresses under a hash. -/
def bucket (h : Heap) (key : UInt64) : List Address := (h.pool.get? key).getD []

/-- The pooled node of a text, if there is one. -/
def findText? (h : Heap) (t : Text) : Option Address :=
  (h.bucket (h.digest t)).find? fun a => h.textAt a = t

/-- The heap with a string node added to the pool. -/
def remember (h : Heap) (t : Text) (a : Address) : Heap :=
  let key := h.digest t
  { h with pool := h.pool.insert key (h.bucket key ++ [a]) }

/-- The heap with a string node taken out of the pool. -/
def forget (h : Heap) (t : Text) (a : Address) : Heap :=
  let key := h.digest t
  match (h.bucket key).erase a with
  | [] => { h with pool := h.pool.erase key }
  | rest => { h with pool := h.pool.insert key rest }

end Heap

/-- The addresses that whoever uses the heap still holds, computed only when a collection needs them. -/
abbrev Roots := Thunk (List Link)

/-- Operations on a heap. -/
abbrev HeapM := ReaderT Roots (ExceptT (Stop HeapError) (StateM Heap))

namespace HeapM

/-- Stops with an error. -/
def fail {α : Type} (e : HeapError) : HeapM α := throw (.failed e)

/-- Stops because something is not there. -/
def crash {α : Type} : HeapM α := throw .crashed

/-- The value of an option that has to be there. -/
def need {α : Type} : Option α → HeapM α
  | some a => pure a
  | none => crash

/-- The node at an address that has to be in the arena. -/
def nodeAt (a : Address) : HeapM Node := do need ((← get).node? a)

/-- The node at a link that has to lead into the arena. -/
def follow (l : Link) : HeapM Node := do nodeAt (← need l)

/-- Runs an operation with addresses pinned, and unpins them however it ends. -/
def pinning {α : Type} (links : List Link) (act : HeapM α) : HeapM α := fun roots h =>
  let held := h.pins.size
  match act roots { h with pins := h.pins ++ links.toArray } with
  | (r, h) => (r, { h with pins := h.pins.extract 0 held })

/-- Runs an operation with addresses pinned, and unpins them when it has succeeded or failed. A crash leaves them
pinned. -/
def holding {α : Type} (links : List Link) (act : HeapM α) : HeapM α := fun roots h =>
  let held := h.pins.size
  match act roots { h with pins := h.pins ++ links.toArray } with
  | (.error .crashed, h) => (.error .crashed, h)
  | (r, h) => (r, { h with pins := h.pins.extract 0 held })

end HeapM

end Tenure
