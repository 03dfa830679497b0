import Tenure.Heap.Collect

/-!
# Allocation

Each kind of node has one operation that makes it. Allocation takes the first node of the free list and collects
once if the list is empty. A node that will refer to others pins them while it is allocated, so that a collection
cannot take them away.
-/

set_option autoImplicit false

namespace Tenure.Heap

/-- Takes the first node of the free list for a new node, if the list is not empty and leads to a node. -/
def take? (h : Heap) (node : Node) : Option Address × Heap :=
  match h.free with
  | none => (none, h)
  | some a =>
    match h.node? a with
    | none => (none, h)
    | some old =>
      let next := old.next
      (some a, { h with
        free := next
        nodes := h.nodes.setIfInBounds a node
        marked := h.marked.setIfInBounds a false
        stats := { h.stats with allocations := h.stats.allocations + 1 } })

end Tenure.Heap

namespace Tenure.HeapM

/-- Takes a node from the free list. It fails if the list is empty, and stops if the list leads out of the arena. -/
def take (node : Node) : HeapM Address := fun _ h =>
  match h.take? node with
  | (some a, h) => (.ok a, h)
  | (none, h) => (.error (if h.free.isNone then .failed .exhausted else .crashed), h)

/-- Allocates a node, collecting first if the free list is empty. -/
def allocate (node : Node) : HeapM Address := do
  if (nodeWords : Int) < wordsFor node.slots then fail .tooLarge
  else
    if (← get).free.isNone then
      let _ ← collect
    take node

/-- Allocates a node whose children are the given ones, which are pinned meanwhile. -/
def allocateOver (content : Content) (slots : Int) (children : List Link) : HeapM Address :=
  pinning children (allocate ((Node.fresh content slots).withChildren children))

/-- A number node. -/
def number (n : Number) : HeapM Address := allocate (.fresh (.number n) 0)

/-- A number node for an integer. -/
def int (n : Int) : HeapM Address := number (.ofInt n)

/-- A number node for a double. -/
def float (x : Float) : HeapM Address := number (.float x)

/-- A character node. -/
def char (code : Int) : HeapM Address := allocate (.fresh (.char code) 0)

/-- The one string node of a text, allocated on first use. -/
def string (t : Text) : HeapM Address := do
  match (← get).findText? t with
  | some a => pure a
  | none =>
    let a ← allocate (.fresh (.string t) 0)
    modify fun h => h.remember t a
    pure a

/-- A pair of two links. -/
def pair (head tail : Link) : HeapM Address := allocateOver .pair 2 [head, tail]

/-- A frame of unassigned slots. -/
def frame (slots : Int) : HeapM Address := do
  let node := (Node.fresh .frame slots).withChildren
    (List.replicate (min slots.toNat maxChildren) (some Heap.unassigned))
  let a ← allocate node
  if node.overruns then crash else pure a

/-- An environment with room for a number of frames. -/
def environment (frames : Int) : HeapM Address := allocate (.fresh .environment frames)

/-- The environment that has the frames of another one and one more frame inside them. -/
def extend (frame : Link) (env : Link) : HeapM Address :=
  pinning [frame, env] do
    let outer ← follow env
    let a ← environment (oneMore outer.slots)
    if outer.slots < 0 ∨ outer.overruns then crash
    else
      let links := outer.traced ++ [frame]
      modify fun h =>
        match h.node? a with
        | some n => h.setNode a (n.withChildren links)
        | none => h
      pure a

/-- A closure over an environment. -/
def closure (arity entry : Int) (env : Link) : HeapM Address :=
  allocateOver (.closure arity entry) 1 [env]

/-- The record of an opened block: the environment outside it. -/
def blockframe (env : Link) : HeapM Address := allocateOver .blockframe 1 [env]

/-- The record of a call: the environment, return address and operand height of the caller. -/
def callframe (env : Link) (back height : Int) : HeapM Address :=
  allocateOver (.callframe back height) 1 [env]

/-- A reference to a slot of an environment. -/
def reference (pos : Position) (mutable : Bool) (env : Link) : HeapM Address :=
  allocateOver (.reference pos mutable) 1 [env]

/-- A builtin function. -/
def builtin (id : Int) : HeapM Address := allocate (.fresh (.builtin id) 0)

/-- Reads a child word. -/
def child (a : Address) (i : Int) : HeapM Link := do need ((← nodeAt a).child? i)

/-- Writes a child word. -/
def setChild (a : Address) (i : Int) (v : Link) : HeapM Unit := do
  let n ← need ((← nodeAt a).setChild? i v)
  modify fun h => h.setNode a n

/-- The frame of an environment that a position names. -/
def frameAt (env : Link) (pos : Position) : HeapM Address := do
  need (← need ((← follow env).child? pos.frame))

/-- The value of a slot of an environment. -/
def lookup (env : Link) (pos : Position) : HeapM Link := do
  child (← frameAt env pos) pos.slot

/-- Writes a slot of an environment. -/
def store (env : Link) (pos : Position) (v : Link) : HeapM Unit := do
  setChild (← frameAt env pos) pos.slot v

end Tenure.HeapM
