import Tenure.Machine.Run

/-!
# Running operations of the heap and the machine

How the operations of `HeapM` and `MachineM` run one after the other. A step that succeeds hands its result and its
state on, a step that stops is where the whole operation stops.
-/

set_option autoImplicit false

namespace Tenure

namespace HeapM

variable {α β : Type} {x : HeapM α} {f : α → HeapM β} {roots : Roots} {h h' : Heap} {a : α} {e : Stop HeapError}

theorem bind_ok (hx : x roots h = (.ok a, h')) : (x >>= f) roots h = f a roots h' := by
  change (ExceptT.bindCont (fun a => f a roots) (x roots h).1 : StateM Heap _) (x roots h).2 = _
  rw [hx]
  rfl

theorem bind_error (hx : x roots h = (.error e, h')) : (x >>= f) roots h = (.error e, h') := by
  change (ExceptT.bindCont (fun a => f a roots) (x roots h).1 : StateM Heap _) (x roots h).2 = _
  rw [hx]
  rfl

@[simp] theorem pure_apply (a : α) : (pure a : HeapM α) roots h = (.ok a, h) := rfl

@[simp] theorem get_bind_apply (f : Heap → HeapM β) : (get >>= f) roots h = f h roots h := rfl

@[simp] theorem modify_bind_apply (g : Heap → Heap) (f : Unit → HeapM β) :
    ((modify g : HeapM Unit) >>= f) roots h = f () roots (g h) := rfl

@[simp] theorem modify_apply (g : Heap → Heap) : (modify g : HeapM Unit) roots h = (.ok (), g h) := rfl

theorem nodeAt_apply {b : Address} {n : Node} (hn : h.nodes[b]? = some n) : nodeAt b roots h = (.ok n, h) := by
  simp [nodeAt, Heap.node?, hn, need]

theorem follow_apply {b : Address} {n : Node} (hn : h.nodes[b]? = some n) : follow (some b) roots h = (.ok n, h) := by
  simpa [follow, need] using nodeAt_apply hn

end HeapM

namespace MachineM

variable {α β : Type} {x : MachineM α} {f : α → MachineM β} {m m' : Machine} {a : α} {e : Stop StepError}

theorem bind_ok (hx : x m = (.ok a, m')) : (x >>= f) m = f a m' := by
  change (ExceptT.bindCont f (x m).1 : StateM Machine _) (x m).2 = _
  rw [hx]
  rfl

theorem bind_error (hx : x m = (.error e, m')) : (x >>= f) m = (.error e, m') := by
  change (ExceptT.bindCont f (x m).1 : StateM Machine _) (x m).2 = _
  rw [hx]
  rfl

theorem bind_congr {y : MachineM α} (hxy : x m = y m) : (x >>= f) m = (y >>= f) m := by
  change (ExceptT.bindCont f (x m).1 : StateM Machine _) (x m).2 = _
  rw [hxy]
  rfl

@[simp] theorem pure_apply (a : α) : (pure a : MachineM α) m = (.ok a, m) := rfl

@[simp] theorem fail_apply (e : StepError) : (fail e : MachineM α) m = (.error (.failed e), m) := rfl

@[simp] theorem get_bind_apply (f : Machine → MachineM β) : (get >>= f) m = f m m := rfl

@[simp] theorem modify_bind_apply (g : Machine → Machine) (f : Unit → MachineM β) :
    ((modify g : MachineM Unit) >>= f) m = f () (g m) := rfl

@[simp] theorem modify_apply (g : Machine → Machine) : (modify g : MachineM Unit) m = (.ok (), g m) := rfl

/-- The addresses that the registers hold, as the heap gets them. -/
def rootsOf (m : Machine) : Roots := Thunk.mk fun _ => m.roots

theorem onHeap_ok {act : HeapM α} {h : Heap} (hact : act (rootsOf m) m.heap = (.ok a, h)) :
    onHeap act m = (.ok a, { m with heap := h }) := by
  obtain ⟨code, heap, pc, operands, env, frames, steps⟩ := m
  simp only [rootsOf, Machine.roots] at hact
  simp only [onHeap, hact]

theorem onHeap_error {act : HeapM α} {h : Heap} {e : Stop HeapError} (hact : act (rootsOf m) m.heap = (.error e, h)) :
    onHeap act m = (.error (liftStop e), { m with heap := h }) := by
  obtain ⟨code, heap, pc, operands, env, frames, steps⟩ := m
  simp only [rootsOf, Machine.roots] at hact
  simp only [onHeap, hact]

theorem nodeAt_apply {b : Address} {n : Node} (hn : m.heap.nodes[b]? = some n) : nodeAt b m = (.ok n, m) := by
  simp [nodeAt, Heap.node?, hn, need]

end MachineM

end Tenure
