import Tenure.Proofs.Heap.Create
import Tenure.Proofs.Heap.Sweep
import Tenure.Proofs.Machine.Keeps

/-!
# Integers in the heap

No operation of the heap or the machine makes an integer node of more than 32 bits, unless a literal asks for it: what
arithmetic gives is a word, and everything else writes other contents or copies addresses. So if the integers of a heap
have 32 bits, they have after any operation, `Heap.fits_kept`; and if those of the code have too, the integers of a
machine have 32 bits after any instruction, `Machine.Fits.advance`.
-/

set_option autoImplicit false

namespace Tenure

/-- The integer of a content has 32 bits. -/
def Content.Fits : Content → Prop
  | .number n => n.Fits
  | _ => True

/-- All integers in a heap have 32 bits. -/
def Heap.Fits (h : Heap) : Prop := ∀ (a : Address) (n : Node), h.nodes[a]? = some n → n.content.Fits

namespace Heap

variable {h : Heap}

theorem Fits.of_nodes {h' : Heap} (hf : h.Fits) (hnodes : h'.nodes = h.nodes) : h'.Fits := fun a n hn =>
  hf a n (hnodes ▸ hn)

theorem Fits.setNode (hf : h.Fits) (a : Address) {n : Node} (hn : n.content.Fits) : (h.setNode a n).Fits := by
  intro b m hm
  rw [Heap.setNode, Array.getElem?_setIfInBounds] at hm
  split at hm
  · split at hm
    · exact Option.some.inj hm ▸ hn
    · cases hm
  · exact hf b m hm

theorem Fits.reclaim (hf : h.Fits) (a : Address) : (h.reclaim a).Fits := by
  obtain ⟨pool, hpool⟩ := forgetAt_eq h a
  rw [Heap.reclaim, hpool]
  exact (hf.setNode a (n := .vacant h.free) trivial).of_nodes rfl

theorem Fits.down (k : Nat) {s : Sweep} (hf : s.heap.Fits) : (Sweep.down k s).heap.Fits := by
  induction k generalizing s with
  | zero => exact hf
  | succ k ih =>
    refine ih ?_
    unfold Sweep.step
    simp only
    split
    · exact hf.of_nodes rfl
    · exact hf.reclaim _

theorem Fits.sweep (hf : h.Fits) : h.sweep.2.Fits := by
  have hdown := Fits.down (h.nodes.size - bottom) (s := ⟨{ h with free := none }, 0, 0⟩) (hf.of_nodes rfl)
  unfold Heap.sweep
  generalize Sweep.down (h.nodes.size - bottom) ⟨{ h with free := none }, 0, 0⟩ = s at hdown ⊢
  exact hdown.of_nodes rfl

/-- A collection leaves nodes alone or makes them vacant. -/
theorem Fits.collect (hf : h.Fits) (roots : List Link) : (h.collect roots).2.Fits := by
  have hmarked : ({ h with marked := (h.mark roots).marked } : Heap).Fits := hf.of_nodes rfl
  unfold Heap.collect
  simp only
  split
  · exact hmarked
  · exact hmarked.sweep

theorem Fits.take? (hf : h.Fits) {n : Node} (hn : n.content.Fits) : (h.take? n).2.Fits := by
  unfold Heap.take?
  split
  · exact hf
  next a _ =>
    split
    · exact hf
    · exact (hf.setNode a hn).of_nodes rfl

/-- A new string node is no number. -/
theorem Fits.string (t : Text) : (HeapM.string t).Keeps Heap.Fits := by
  refine .bind .get fun h => ?_
  split
  · exact .pure _
  · have hnew : (HeapM.allocate (.fresh (.string t) 0)).Keeps Heap.Fits :=
      .allocate (fun h roots hf => hf.collect roots) fun h hf => hf.take? trivial
    refine .bind hnew fun a => .bind (.modify fun h hf => ?_) fun _ => .pure a
    exact hf.of_nodes rfl

/-- The integers of a heap go on to have 32 bits if new integers have. -/
theorem fits_kept : Kept Heap.Fits Content.Fits where
  pins h pins hf := hf.of_nodes rfl
  collect h roots hf := hf.collect roots
  take h n hf hn := hf.take? hn
  string t := Fits.string t
  rewrite h a n children hf hn := hf.setNode a (hf a n hn)
  number n hn := hn
  other c hfree hnumber hstring := by
    cases c with
    | number n => exact absurd rfl (hnumber n)
    | _ => trivial

end Heap

/-! ## Machines -/

/-- All integers in the heap and the code of a machine have 32 bits. -/
structure Machine.Fits (m : Machine) : Prop where
  heap : m.heap.Fits
  code : ∀ i ∈ m.code, Integer.Fits i.val.int

namespace Machine

variable {m m' : Machine} {limits : Limits}

theorem Fits.advance (hm : m.Fits) (h : Machine.advance limits m = .running m') : m'.Fits := by
  have hliterals : ∀ i ∈ m.code, (Content.number (.ofInt i.val.int)).Fits := by
    intro i hi
    change (Number.ofInt i.val.int).Fits
    rw [Number.ofInt_eq (hm.code i hi)]
    exact hm.code i hi
  obtain ⟨hheap, hcode⟩ := advance_keeps Heap.fits_kept hliterals hm.heap h
  exact ⟨hheap, hcode ▸ hm.code⟩

end Machine

end Tenure
