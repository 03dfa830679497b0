import Tenure.Proofs.Heap.Allocate

/-!
# New heaps

A heap is made for every size that has room for more than the values that exist once: `Heap.create_eq`. All other nodes
that have an address are on its free list, and it is sound: `Heap.new_sound`.
-/

set_option autoImplicit false

namespace Tenure.Heap

/-- The number of nodes of a heap of a size in words. -/
def nodesFor (words : Int) : Nat := ((if words ≤ 0 then defaultWords else words) / nodeWords).toNat

/-- A new heap. -/
def new (digest : Text → UInt64) (n : Nat) : Heap where
  nodes := Array.ofFn fun i : Fin n => initialNode n i
  marked := Array.replicate n false
  free := some bottom
  pins := #[]
  digest := digest
  pool := ∅
  stats := { allocations := bottom }

theorem create_eq (digest : Text → UInt64) (words : Int) :
    create digest words =
      if nodesFor words ≤ bottom then .error (.tooSmall (if words ≤ 0 then defaultWords else words))
      else if maxNodes < nodesFor words then .error .tooLarge
      else .ok (new digest (nodesFor words)) := rfl

theorem getElem?_new {digest : Text → UInt64} {n i : Nat} (hi : i < n) :
    (new digest n).nodes[i]? = some (initialNode n i) := by
  simp [new, hi]

/-- The nodes from an index on, the last of which links to where the list stops. -/
theorem new_chain {digest : Text → UInt64} {n : Nat} {stop : Link} (k i : Nat) (hb : i ≥ bottom)
    (hlast : (new digest n).nodes[i + k]? = some (.vacant stop)) (hn : i + k < n) (hk : i + k < addressable) :
    Chain (new digest n).nodes stop (some i) (List.range' i (k + 1)) := by
  induction k generalizing i with
  | zero => exact .cons hlast .nil
  | succ k ih =>
    have hnext : (new digest n).nodes[i]? = some (.vacant (some (i + 1))) := by
      rw [getElem?_new (by omega), initialNode, if_neg (by omega), if_pos (by omega), linkTo_of_lt (by omega)]
    exact .cons hnext (ih (i + 1) (by omega) (by rwa [Nat.add_right_comm]) (by omega) (by omega))

/-- In a heap whose nodes all have addresses, all but the values that exist once are on the free list. -/
theorem new_free {digest : Text → UInt64} {n k : Nat} (hn : n = bottom + k + 1) (hfew : n ≤ addressable) :
    Chain (new digest n).nodes none (some bottom) (List.range' bottom (k + 1)) := by
  refine new_chain k bottom le_rfl ?_ (by omega) (by omega)
  rw [getElem?_new (by omega), initialNode, if_neg (by omega), if_neg (by omega)]

/-- In a heap with more nodes than addresses, the free list leads from the last node that has one out of the arena. -/
theorem new_free_outside {digest : Text → UInt64} {n k : Nat} (hk : addressable = bottom + k + 1)
    (hmany : addressable < n) :
    Chain (new digest n).nodes (linkTo addressable) (some bottom) (List.range' bottom (k + 1)) := by
  refine new_chain k bottom le_rfl ?_ (by omega) (by omega)
  rw [getElem?_new (by omega), initialNode, if_neg (by omega), if_pos (by omega), ← hk]

theorem new_sound (digest : Text → UInt64) {n : Nat} (hn : n > bottom) (hmax : n ≤ maxNodes) :
    (new digest n).Sound := by
  have hbucket : ∀ key, (new digest n).bucket key = [] := fun key => by simp [bucket, new]
  have hcontent : ∀ (a : Address) (node : Node) (t : Text), (new digest n).nodes[a]? = some node →
      node.content ≠ .string t := by
    intro a node t ha
    have hlt : a < n := by simpa [new] using (Array.getElem?_eq_some_iff.mp ha).1
    rw [getElem?_new hlt, Option.some.injEq] at ha
    subst ha
    unfold initialNode
    split
    next hlow =>
      have hfive : a < 5 := hlow
      interval_cases a <;> simp [Node.fresh, initialContent]
    · simp [Node.vacant]
  have hstring : ∀ a t, ¬ IsString (new digest n).nodes a t := by
    rintro a t ⟨node, ha, hc⟩
    exact hcontent a node t ha hc
  refine ⟨by simp [new], fun a => ?_, ?_, fun key => ?_, fun key a => ?_, fun a b t ha => absurd ha (hstring a t),
    fun a node t ha hc => absurd hc (hcontent a node t ha)⟩
  · simp only [new, Array.getElem?_replicate]
    split <;> simp
  · have hsize : (new digest n).nodes.size = n := by simp [new]
    have hlow : ∀ k, ∀ a ∈ List.range' bottom k, bottom ≤ a := fun k a ha => (List.mem_range'_1.mp ha).1
    rcases Nat.lt_or_ge addressable n with hmany | hfew
    · have hk : addressable = bottom + 0x7ffffffa + 1 := by decide
      exact ⟨_, _, hsize.symm ▸ .of_outside hmany hmax, new_free_outside hk hmany, List.nodup_range', hlow _⟩
    · obtain ⟨k, rfl⟩ : ∃ k, n = bottom + k + 1 := ⟨n - bottom - 1, by omega⟩
      exact ⟨none, _, hsize.symm ▸ .empty hfew, new_free rfl hfew, List.nodup_range', hlow _⟩
  · rw [hbucket]
    exact List.nodup_nil
  · rw [hbucket]
    simp only [List.not_mem_nil, false_iff, not_exists, not_and]
    intro t ht
    exact absurd ht (hstring a t)

end Tenure.Heap
