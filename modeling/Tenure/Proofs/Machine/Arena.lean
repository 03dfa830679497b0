import Tenure.Proofs.Machine.Keeps

/-!
# The size of the arena

A heap has as many nodes as it was made with. No operation changes that, however it ends: `Heap.sized_kept`. So a run
keeps the size as well, `Machine.run_size`.
-/

set_option autoImplicit false

namespace Tenure

namespace Heap

theorem size_forgetAt (h : Heap) (a : Address) : (h.forgetAt a).nodes.size = h.nodes.size := by
  unfold forgetAt
  split
  · unfold forget
    dsimp only
    split <;> rfl
  · rfl

theorem size_reclaim (h : Heap) (a : Address) : (h.reclaim a).nodes.size = h.nodes.size := by
  simp [reclaim, size_forgetAt]

theorem size_step (s : Sweep) (a : Address) : (s.step a).heap.nodes.size = s.heap.nodes.size := by
  unfold Sweep.step
  dsimp only
  split
  · rfl
  · exact size_reclaim s.heap a

theorem size_down (k : Nat) (s : Sweep) : (Sweep.down k s).heap.nodes.size = s.heap.nodes.size := by
  induction k generalizing s with
  | zero => rfl
  | succ k ih =>
    rw [Sweep.down, ih]
    exact size_step s (bottom + k)

theorem size_sweep (h : Heap) : h.sweep.2.nodes.size = h.nodes.size := by
  have hsize := size_down (h.nodes.size - bottom) ⟨{ h with free := none }, 0, 0⟩
  unfold sweep
  split
  next hdown => simpa [hdown] using hsize

theorem size_collect (h : Heap) (roots : List Link) : (h.collect roots).2.nodes.size = h.nodes.size := by
  unfold collect
  dsimp only
  split
  · rfl
  · exact size_sweep { h with marked := (h.mark roots).marked }

theorem size_take? (h : Heap) (node : Node) : (h.take? node).2.nodes.size = h.nodes.size := by
  unfold take?
  split
  · rfl
  · split
    · rfl
    · simp

/-- Every operation keeps the number of nodes. -/
theorem sized_kept (n : Nat) : Kept (fun h => h.nodes.size = n) fun _ => True where
  pins _ _ hsize := hsize
  collect h roots hsize := (h.size_collect roots).trans hsize
  take h node hsize _ := (h.size_take? node).trans hsize
  string t := by
    have hallocate : (HeapM.allocate (.fresh (.string t) 0)).Keeps fun h => h.nodes.size = n :=
      .allocate (fun h roots hsize => (h.size_collect roots).trans hsize) fun h hsize => (h.size_take? _).trans hsize
    have hstring : (HeapM.string t).Keeps fun h => h.nodes.size = n := by
      refine .bind .get fun h => ?_
      split
      · exact .pure _
      · exact .bind hallocate fun a => .bind (.modify fun _ hsize => hsize) fun _ => .pure a
    exact hstring
  rewrite h a _ _ hsize _ := by simpa [setNode] using hsize
  number _ _ := trivial
  other _ _ _ _ := trivial

end Heap

namespace Machine

/-- The size of the arena after one instruction, whether the run goes on or ends. -/
theorem advance_size (limits : Limits) (m : Machine) :
    (∀ m', advance limits m = .running m' → m'.heap.nodes.size = m.heap.nodes.size) ∧
      ∀ outcome m', advance limits m = .ended outcome m' → m'.heap.nodes.size = m.heap.nodes.size := by
  unfold advance
  split
  · exact ⟨by simp, by rintro _ _ ⟨⟩; rfl⟩
  · dsimp only
    split
    · exact ⟨by simp, by rintro _ _ ⟨⟩; rfl⟩
    split
    · exact ⟨by simp, by rintro _ _ ⟨⟩; rfl⟩
    split
    · exact ⟨by simp, by rintro _ _ ⟨⟩; rfl⟩
    next i _ _ _ _ =>
      have hsize := (MachineM.execute_keeps (Heap.sized_kept m.heap.nodes.size) trivial
        { m with pc := m.pc + 1, steps := m.steps + 1 } rfl (i := i)).1
      unfold executed
      split
      next hrun => exact ⟨by rintro _ ⟨⟩; simpa [hrun] using hsize, by simp⟩
      next hrun => exact ⟨by simp, by rintro _ _ ⟨⟩; simpa [hrun] using hsize⟩
      next hrun => exact ⟨by simp, by rintro _ _ ⟨⟩; simpa [hrun] using hsize⟩

/-- A run keeps the size of the arena. -/
theorem run_size (limits : Limits) (fuel : Nat) (m : Machine) :
    (run limits fuel m).2.heap.nodes.size = m.heap.nodes.size := by
  induction fuel generalizing m with
  | zero => rfl
  | succ fuel ih =>
    rw [run]
    split
    next m' hadvance => rw [ih, (advance_size limits m).1 m' hadvance]
    next outcome m' hadvance => exact (advance_size limits m).2 outcome m' hadvance

end Machine

end Tenure
