import Tenure.Heap.Basic

/-!
# Collection

A collection marks every node that can be reached from the values that exist once, the pins and the roots, and
then puts every unmarked node on the free list, lowest address first. A link that leads out of the arena, or a node
with more children than child words, stops the marking and leaves its marks behind.
-/

set_option autoImplicit false

namespace Tenure.Heap

/-- A marking in progress: the marks, the marked nodes whose children are still to be visited, and whether it
stopped short. -/
structure Marking where
  marked : Array Bool
  work : List Address
  crashed : Bool

namespace Marking

/-- The mark of the node at an address; negative addresses have none. -/
def mark? (m : Marking) (a : Address) : Option Bool := if a < addressable then m.marked[a]? else none

/-- Marks the node that a link leads to, unless it is marked already. -/
def visit (m : Marking) (l : Link) : Marking :=
  match l with
  | none => m
  | some a =>
    if m.crashed then m
    else
      match m.mark? a with
      | none => { m with crashed := true }
      | some true => m
      | some false => { m with marked := m.marked.setIfInBounds a true, work := a :: m.work }

/-- Marks the nodes that the links of a list lead to, in order. -/
def visitAll (m : Marking) (links : List Link) : Marking := links.foldl visit m

/-- Visits the children of marked nodes until none are left. Every step takes a node that was unmarked at the
start, so as many steps as there are nodes suffice. -/
def drain (nodes : Array Node) : Nat → Marking → Marking
  | 0, m => m
  | fuel + 1, m =>
    if m.crashed then m
    else
      match m.work with
      | [] => m
      | a :: rest =>
        let m := { m with work := rest }
        let next := match nodes[a]? with
          | some n =>
            let m := m.visitAll n.traced
            if n.overruns then { m with crashed := true } else m
          | none => m
        drain nodes fuel next

end Marking

/-- The links to the values that exist once. -/
def permanentLinks : List Link :=
  [some falsity, some truth, some null, some unassigned, some undefined]

/-- The marking of everything reachable. -/
def mark (h : Heap) (roots : List Link) : Marking :=
  let start : Marking := ⟨h.marked, [], false⟩
  let m := ((start.visitAll permanentLinks).visitAll h.pins.toList).visitAll roots
  m.drain h.nodes (h.nodes.size + 1)

/-- A sweep in progress: the heap, and how many nodes were freed and kept so far. -/
structure Sweep where
  heap : Heap
  freed : Nat
  live : Nat

/-- The heap with the string at an address taken out of the pool, if the node there is a string. -/
def forgetAt (h : Heap) (a : Address) : Heap :=
  match (h.node? a).map Node.content with
  | some (.string t) => h.forget t a
  | _ => h

/-- Whether the node at an address is allocated. -/
def isAllocated (h : Heap) (a : Address) : Bool :=
  match h.node? a with
  | some n => n.kind ≠ .free
  | none => false

/-- Puts the node at an address on the free list. -/
def reclaim (h : Heap) (a : Address) : Heap :=
  let h := h.forgetAt a
  let next := h.free
  { h with nodes := h.nodes.setIfInBounds a (.vacant next), free := linkTo a }

/-- Sweeps one node: a marked node is kept and its mark cleared, any other goes to the free list. -/
def Sweep.step (s : Sweep) (a : Address) : Sweep :=
  match s with
  | ⟨h, freed, live⟩ =>
    if h.marked[a]?.getD false then
      ⟨{ h with marked := h.marked.setIfInBounds a false }, freed, live + 1⟩
    else
      let freed := if h.isAllocated a then freed + 1 else freed
      ⟨h.reclaim a, freed, live⟩

/-- Sweeps the nodes at and above the bottom, the highest address first. -/
def Sweep.down : Nat → Sweep → Sweep
  | 0, s => s
  | k + 1, s => Sweep.down k (s.step (bottom + k))

/-- The marks with those of the values that exist once cleared. -/
def clearPermanent (marked : Array Bool) : Array Bool :=
  (List.range bottom).foldl (fun marks a => marks.setIfInBounds a false) marked

/-- Frees every unmarked node and returns how many there were. -/
def sweep (h : Heap) : Nat × Heap :=
  match Sweep.down (h.nodes.size - bottom) ⟨{ h with free := none }, 0, 0⟩ with
  | ⟨h, freed, live⟩ =>
    (freed, { h with
      marked := clearPermanent h.marked
      stats := { h.stats with
        live := live
        collections := h.stats.collections + 1
        freed := h.stats.freed + freed } })

/-- Collects, and returns how many nodes were freed, or nothing if the marking stopped short. -/
def collect (h : Heap) (roots : List Link) : Option Nat × Heap :=
  let m := h.mark roots
  let h := { h with marked := m.marked }
  if m.crashed then (none, h)
  else
    match h.sweep with
    | (freed, h) => (some freed, h)

end Tenure.Heap

namespace Tenure.HeapM

/-- Collects, and returns how many nodes were freed. -/
def collect : HeapM Nat := fun roots h =>
  match h.collect roots.get with
  | (some freed, h) => (.ok freed, h)
  | (none, h) => (.error .crashed, h)

end Tenure.HeapM
