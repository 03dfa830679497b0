import Tenure.Proofs.Heap.Operations
import Tenure.Proofs.Mirror.Operators
import Tenure.Proofs.Safety.Instructions

/-!
# Anchored machines

A machine is anchored if its heap is in order and its registers hold addresses of allocated nodes, `Machine.Anchored`;
then whatever can be reached from the registers is allocated. What can be reached from the registers that an instruction
leaves alone keeps its content through the collections that the instruction causes, `Machine.Upholds`.
-/

set_option autoImplicit false

namespace Tenure

open Heap Node

/-! ## Contents that stay -/

namespace Heap

variable {h h₁ h₂ h' : Heap} {links links' : List Link} {roots : Roots} {a : Address} {n : Node}

/-- Whatever can be reached from some links still has its content. -/
def Retains (links : List Link) (h h' : Heap) : Prop :=
  ∀ (a : Address) (n : Node), Reaches h.nodes (h.rootLinks links) a → h.nodes[a]? = some n →
    ∃ n', h'.nodes[a]? = some n' ∧ n'.content = n.content

/-- Every node still has its content and its number of children. -/
def Resembles (h h' : Heap) : Prop :=
  ∀ (a : Address) (n : Node), h.nodes[a]? = some n →
    ∃ n', h'.nodes[a]? = some n' ∧ n'.content = n.content ∧ n'.slots = n.slots

theorem Retains.refl (links : List Link) (h : Heap) : Retains links h h := fun _ n _ hn => ⟨n, hn, rfl⟩

theorem rootLinks_mono (hl : ∀ l ∈ links, l ∈ links') : ∀ l ∈ h.rootLinks links, l ∈ h.rootLinks links' := by
  intro l hmem
  simp only [rootLinks, List.mem_append] at hmem ⊢
  exact hmem.imp_right (hl l)

theorem Spares.mono (hs : Spares links' h h') (hl : ∀ l ∈ links, l ∈ links') : Spares links h h' :=
  ⟨hs.orderly, hs.capacity, hs.pins, fun a ha => hs.kept a (ha.mono (rootLinks_mono hl))⟩

theorem Spares.retains (hs : Spares links h h') : Retains links h h' := fun a n ha hn =>
  ⟨n, (hs.kept a ha).trans hn, rfl⟩

theorem Resembles.retains (hs : Resembles h h') : Retains links h h' := fun a n _ hn =>
  let ⟨n', hn', hc, _⟩ := hs a n hn
  ⟨n', hn', hc⟩

theorem Retains.isEnvironment (hr : Retains links h h') (ha : Reaches h.nodes (h.rootLinks links) a)
    (he : IsEnvironment h.nodes a) : IsEnvironment h'.nodes a := by
  obtain ⟨n, hn, hc⟩ := he
  obtain ⟨n', hn', hc'⟩ := hr a n ha hn
  exact ⟨n', hn', hc'.trans hc⟩

theorem Resembles.isAllocated (hs : Resembles h h') (ha : h.isAllocated a = true) : h'.isAllocated a = true := by
  obtain ⟨n, hn, hc⟩ := isAllocated_iff.mp ha
  obtain ⟨n', hn', hc', -⟩ := hs a n hn
  exact isAllocated_iff.mpr ⟨n', hn', hc'.symm ▸ hc⟩

theorem Resembles.holds (hs : Resembles h h') (hl : h.Holds links) : h'.Holds links := fun a ha => hs.isAllocated (hl a ha)

theorem Resembles.isEnvironment (hs : Resembles h h') (he : IsEnvironment h.nodes a) : IsEnvironment h'.nodes a := by
  obtain ⟨n, hn, hc⟩ := he
  obtain ⟨n', hn', hc', -⟩ := hs a n hn
  exact ⟨n', hn', hc'.trans hc⟩

theorem Resembles.hasSlots (hs : Resembles h h') {slots : Int} (hf : HasSlots h.nodes a slots) :
    HasSlots h'.nodes a slots := by
  obtain ⟨n, hn, hc, hslots⟩ := hf
  obtain ⟨n', hn', hc', hslots'⟩ := hs a n hn
  exact ⟨n', hn', hc'.trans hc, hslots'.trans hslots⟩

theorem hasChild_of_hasSlots {slots i : Int} (hf : HasSlots h.nodes a slots) (h0 : 0 ≤ i) (hi : i < slots) :
    h.HasChild a i := by
  obtain ⟨n, hn, hc, rfl⟩ := hf
  exact ⟨n, hn, by simp [hc], h0, hi⟩

theorem holds_singleton (ha : h.isAllocated a = true) : h.Holds [some a] := fun b hb => by
  obtain rfl := Option.some.inj (List.mem_singleton.mp hb)
  exact ha

/-- Writing a child changes no content. -/
theorem resembles_of_setChild {i : Int} {v : Link} (hrun : HeapM.setChild a i v roots h = (.ok (), h')) :
    Resembles h h' := by
  cases hn : h.nodes[a]? with
  | none =>
    have hcrash : HeapM.nodeAt a roots h = (.error .crashed, h) := by
      simp only [HeapM.nodeAt, HeapM.get_bind_apply, node?, hn]
      rfl
    rw [HeapM.setChild, HeapM.bind_error hcrash] at hrun
    cases hrun
  | some n =>
    rw [HeapM.setChild, HeapM.bind_ok (HeapM.nodeAt_apply hn)] at hrun
    unfold setChild? at hrun
    split at hrun
    · cases hrun
      intro b m hm
      by_cases hab : a = b
      · subst hab
        obtain rfl := Option.some.inj (hn.symm.trans hm)
        exact ⟨_, Array.getElem?_setIfInBounds_self_of_lt (Array.getElem?_eq_some_iff.mp hn).1, rfl, rfl⟩
      · exact ⟨m, (Array.getElem?_setIfInBounds_ne hab).trans hm, rfl, rfl⟩
    · cases hrun

/-- A child of an allocated node gets a value. -/
theorem Orderly.write (roots : Roots) (ho : h.Orderly) {i : Int} (hchild : h.HasChild a i) {v : Link} (hv : h.Holds [v]) :
    ∃ h', HeapM.setChild a i v roots h = (.ok (), h') ∧ Follows h h' ∧ Resembles h h' := by
  obtain ⟨h', hrun, hf⟩ := ho.setChild roots hchild hv
  exact ⟨h', hrun, hf, resembles_of_setChild hrun⟩

/-- A slot that a position names gets a value. -/
theorem Orderly.assign (roots : Roots) (ho : h.Orderly) {pos : Position} (hnames : Names h.nodes a pos) {v : Link} (hv : h.Holds [v]) :
    ∃ h', HeapM.store (some a) pos v roots h = (.ok (), h') ∧ h'.Orderly ∧ Resembles h h' := by
  obtain ⟨f, n, hframe, hn, hc, h0, hi⟩ := Names.frameAt roots hnames
  obtain ⟨h', hrun, hf, hs⟩ := ho.write roots ⟨n, hn, by simp [hc], h0, hi⟩ hv
  exact ⟨h', (HeapM.bind_ok hframe).trans hrun, hf.orderly, hs⟩

/-- A slot that a position names holds an allocated node. -/
theorem Tidy.lookup (ht : h.Tidy) {limit : Nat} (hw : h.WellFormed limit) (roots : Roots) {pos : Position}
    (hnames : Names h.nodes a pos) :
    ∃ v, HeapM.lookup (some a) pos roots h = (.ok (some v), h) ∧ h.isAllocated v = true := by
  obtain ⟨f, n, hframe, hn, hcontent, h0, hi⟩ := Names.frameAt roots hnames
  obtain ⟨l, hl, hmem⟩ := child?_traced h0 hi (hw.slots_le f n hn)
  obtain ⟨v, hv, -⟩ := hw.slot hn hcontent h0 hi
  obtain rfl := Option.some.inj (hl.symm.trans hv)
  refine ⟨v, ?_, (ht.children f n hn (by simp [hcontent])).2 v hmem⟩
  rw [HeapM.lookup, HeapM.bind_ok hframe, HeapM.child, HeapM.bind_ok (HeapM.nodeAt_apply hn), hl]
  rfl

end Heap

/-! ## Machines -/

namespace Operands

variable {s : Operands} {a b : Address}

theorem mem_of_top? (h : s.top? = some a) : a ∈ s.toList := by
  unfold top? at h
  split at h
  · cases h
  next n hheight =>
    refine List.mem_of_getElem? (i := n) ?_
    rw [toList, List.getElem?_take_of_lt (by omega), Array.getElem?_toList]
    exact h

theorem mem_push (h : b ∈ (s.push a).toList) : b = a ∨ b ∈ s.toList := by
  obtain ⟨cells, height⟩ := s
  unfold push at h
  simp only [toList] at h ⊢
  split at h
  next hlt =>
    simp only [Array.toList_setIfInBounds] at h
    rw [List.take_succ_eq_append_getElem (by simpa using hlt)] at h
    simp only [List.getElem_set_self, List.mem_append, List.mem_singleton] at h
    refine h.symm.imp_right fun h => ?_
    rwa [List.take_set, List.set_eq_of_length_le (by simp)] at h
  next hge =>
    have h := List.mem_of_mem_take h
    simp only [Array.toList_push, List.mem_append, List.mem_singleton] at h
    refine h.symm.imp_right fun h => ?_
    rwa [List.take_of_length_le (by simpa using hge)]

theorem mem_of_mem_atHeight {height : Nat} (hle : height ≤ s.height) (h : a ∈ (s.atHeight height).toList) :
    a ∈ s.toList := by
  obtain ⟨cells, k⟩ := s
  exact (List.take_subset_take_left cells.toList hle) h

theorem mem_of_mem_dropTop (h : a ∈ s.dropTop.toList) : a ∈ s.toList :=
  mem_of_mem_atHeight (Nat.sub_le s.height 1) h

end Operands

namespace Machine

variable {m m' : Machine} {a : Address} {held : List Link}

/-- The registers of a machine hold addresses of allocated nodes, and its heap is in order. -/
structure Anchored (m : Machine) : Prop where
  orderly : m.heap.Orderly
  held : m.heap.Holds m.roots

/-- What an instruction leads to: an anchored machine, in whose heap what could be reached from some links has the
content that it had. -/
structure Upholds (m : Machine) (held : List Link) (m' : Machine) : Prop where
  anchored : m'.Anchored
  retains : m.heap.Retains held m'.heap

/-- An operation gives an allocated node, which it may have made; it touches nothing that the registers hold. -/
structure Obtains (m : Machine) (a : Address) (m' : Machine) : Prop where
  rest : m' = { m with heap := m'.heap }
  made : Made m.roots m.heap (some a) m'.heap

theorem mem_roots : some a ∈ m.roots ↔ a ∈ m.operands.toList ∨ a = m.env ∨ a ∈ m.frames := by
  simp [roots]

namespace Anchored

/-- What the registers hold, as the heap gets it. -/
theorem holds (hm : m.Anchored) : m.heap.Holds (MachineM.rootsOf m).get := hm.held

theorem operand (hm : m.Anchored) (ha : a ∈ m.operands.toList) : m.heap.isAllocated a = true :=
  hm.held a (mem_roots.mpr (.inl ha))

theorem of_roots (hm : m.Anchored) (hheap : m'.heap = m.heap)
    (hroots : ∀ a, some a ∈ m'.roots → some a ∈ m.roots ∨ m.heap.isAllocated a = true) : m'.Anchored := by
  refine ⟨hheap ▸ hm.orderly, fun a ha => ?_⟩
  rw [hheap]
  exact (hroots a ha).elim (hm.held a) id

theorem push (hm : m.Anchored) (ha : m.heap.isAllocated a = true) :
    ({ m with operands := m.operands.push a } : Machine).Anchored := by
  refine hm.of_roots rfl fun b hb => ?_
  rcases mem_roots.mp hb with hb | hb
  · rcases Operands.mem_push hb with rfl | hb
    · exact .inr ha
    · exact .inl (mem_roots.mpr (.inl hb))
  · exact .inl (mem_roots.mpr (.inr hb))

theorem dropTop (hm : m.Anchored) : ({ m with operands := m.operands.dropTop } : Machine).Anchored :=
  hm.of_roots rfl fun _ hb => .inl (mem_roots.mpr ((mem_roots.mp hb).imp_left Operands.mem_of_mem_dropTop))

theorem atHeight (hm : m.Anchored) {height : Nat} (hle : height ≤ m.operands.height) :
    ({ m with operands := m.operands.atHeight height } : Machine).Anchored :=
  hm.of_roots rfl fun _ hb => .inl (mem_roots.mpr ((mem_roots.mp hb).imp_left (Operands.mem_of_mem_atHeight hle)))

theorem goTo (hm : m.Anchored) (target : Int) : ({ m with pc := target } : Machine).Anchored := ⟨hm.orderly, hm.held⟩

theorem setEnv (hm : m.Anchored) (ha : m.heap.isAllocated a = true) : ({ m with env := a } : Machine).Anchored := by
  refine hm.of_roots rfl fun b hb => ?_
  rcases mem_roots.mp hb with hb | rfl | hb
  · exact .inl (mem_roots.mpr (.inl hb))
  · exact .inr ha
  · exact .inl (mem_roots.mpr (.inr (.inr hb)))

theorem pushFrame (hm : m.Anchored) (ha : m.heap.isAllocated a = true) :
    ({ m with frames := a :: m.frames } : Machine).Anchored := by
  refine hm.of_roots rfl fun b hb => ?_
  rcases mem_roots.mp hb with hb | hb | hb
  · exact .inl (mem_roots.mpr (.inl hb))
  · exact .inl (mem_roots.mpr (.inr (.inl hb)))
  · rcases List.mem_cons.mp hb with rfl | hb
    · exact .inr ha
    · exact .inl (mem_roots.mpr (.inr (.inr hb)))

theorem popFrame (hm : m.Anchored) {rest : List Address} (hf : m.frames = a :: rest) :
    ({ m with frames := rest } : Machine).Anchored :=
  hm.of_roots rfl fun _ hb => .inl (mem_roots.mpr ((mem_roots.mp hb).imp_right
    (Or.imp_right fun hb => by rw [hf]; exact List.mem_cons_of_mem a hb)))

/-- The only child of an allocated node is allocated. -/
theorem child (hm : m.Anchored) {n : Node} (hn : m.heap.nodes[a]? = some n) (hfree : n.content ≠ .free)
    (hslots : n.slots = 1) {e : Address} (hfirst : n.firstChild = some e) : m.heap.isAllocated e = true :=
  (hm.orderly.tidy.children a n hn hfree).2 e (hfirst ▸ firstChild_traced hslots)

theorem upholds (hm : m'.Anchored) (hheap : m'.heap = m.heap) : m.Upholds held m' :=
  ⟨hm, hheap ▸ Retains.refl held m.heap⟩

theorem obtains (hm : m.Anchored) (ha : m.heap.isAllocated a = true) : m.Obtains a m := by
  refine ⟨rfl, .refl hm.orderly, ?_⟩
  rintro _ ⟨⟩
  exact ha

end Anchored

namespace Obtains

theorem roots (h : m.Obtains a m') : m'.roots = m.roots := by
  rw [h.rest]
  rfl

theorem isAllocated (h : m.Obtains a m') : m'.heap.isAllocated a = true := h.made.allocated a rfl

theorem anchored (h : m.Obtains a m') (hm : m.Anchored) : m'.Anchored :=
  ⟨h.made.orderly, h.roots ▸ h.made.holds hm.orderly.tidy hm.held⟩

theorem upholds (h : m.Obtains a m') (hm : m.Anchored) : m.Upholds m.roots m' := ⟨h.anchored hm, h.made.retains⟩

end Obtains

end Machine

namespace MachineM

variable {α : Type} {m m' : Machine} {a : Address} {held : List Link} {pos : Position}

/-! ## Operations that make values -/

theorem safe_of_leads {act : HeapM α} {p : Option α → Heap → Prop} {post : α → Machine → Prop}
    (hact : act.Leads (rootsOf m) m.heap p)
    (himp : ∀ a h', act (rootsOf m) m.heap = (.ok a, h') → p (some a) h' → post a { m with heap := h' }) :
    (onHeap act).Safe m post := by
  obtain ⟨h', hrun, hmany⟩ | ⟨a, h', hrun, hp⟩ | ⟨e, h', hrun, -⟩ := hact
  · exact .of_crashed (onHeap_error hrun) hmany
  · exact .of_ok (onHeap_ok hrun) (himp a h' hrun hp)
  · exact .of_failed (onHeap_error hrun)

theorem safe_congr {x y : MachineM α} {post : α → Machine → Prop} (hxy : x m = y m) (hy : y.Safe m post) :
    x.Safe m post := by
  constructor <;> rw [hxy]
  · exact hy.ok
  · exact hy.alive

theorem onHeap_obtains {act : HeapM Address} (hact : act.Leads (rootsOf m) m.heap (Made m.roots m.heap)) :
    (onHeap act).Safe m m.Obtains := safe_of_leads hact fun _ _ _ hmade => ⟨rfl, hmade⟩

theorem newNumber_obtains (hm : m.Anchored) (n : Number) : (newNumber n).Safe m m.Obtains :=
  onHeap_obtains (hm.orderly.leaf hm.holds (by simp) (by simp))

theorem ofBool_obtains (hm : m.Anchored) (b : Bool) : m.Obtains (Heap.ofBool b) m :=
  hm.obtains (hm.orderly.tidy.permanent_allocated (Heap.ofBool_lt b))

theorem obtains_of_computes {x : MachineM Address} {r : Except StepError (Bool ⊕ Number)} (hm : m.Anchored)
    (hx : Computes x m r) : x.Safe m m.Obtains := by
  cases r with
  | error e => exact .of_failed hx
  | ok v =>
    cases v with
    | inl b => exact .of_ok hx (ofBool_obtains hm b)
    | inr n => exact safe_congr hx (newNumber_obtains hm n)

theorem obtains_of_picks {x : MachineM Address} {arguments : List Address} {r : Except StepError (Bool ⊕ Number)}
    (hm : m.Anchored) (hargs : ∀ a ∈ arguments, a ∈ m.operands.toList) (hx : Picks x arguments m r) :
    x.Safe m m.Obtains := by
  cases r with
  | error e => exact .of_failed hx
  | ok v =>
    cases v with
    | inl first =>
      obtain ⟨a, ha, hrun⟩ := hx
      exact .of_ok hrun (hm.obtains (hm.operand (hargs a (List.mem_of_getElem? ha))))
    | inr n => exact safe_congr hx (newNumber_obtains hm n)

/-- An operation that pushes what it gives. -/
theorem push_upholds {k : Machine} {x : MachineM Address}
    (hx : x.Safe k fun a m' => m.Upholds held m' ∧ m'.heap.isAllocated a = true) :
    (x >>= push).Safe k fun _ m' => m.Upholds held m' := by
  refine .bind (hx.imp ?_)
  rintro a m' ⟨hm', ha⟩
  exact .modify ⟨hm'.anchored.push ha, hm'.retains⟩

theorem push_obtains {x : MachineM Address} (hm : m.Anchored) (hx : x.Safe m m.Obtains) :
    (x >>= push).Safe m fun _ m' => m.Upholds m.roots m' :=
  push_upholds (hx.imp fun _ _ h => ⟨h.upholds hm, h.isAllocated⟩)

/-- An operator gives up its operands before it pushes its result. -/
theorem push_computes {k : Machine} {x : MachineM Address} {r : Except StepError (Bool ⊕ Number)} (hk : k.Anchored)
    (hheap : k.heap = m.heap) (hx : Computes x k r) : (x >>= push).Safe k fun _ m' => m.Upholds k.roots m' :=
  (push_obtains hk (obtains_of_computes hk hx)).imp fun _ _ h => ⟨h.anchored, hheap ▸ h.retains⟩

theorem peek_mem : peek.Safe m fun a m' => m' = m ∧ a ∈ m.operands.toList := by
  refine .after rfl ?_
  split
  next htop => exact .pure ⟨rfl, Operands.mem_of_top? htop⟩
  · exact .fail _

theorem pop_takes : pop.Safe m fun a m' => a ∈ m.operands.toList ∧ m' = { m with operands := m.operands.dropTop } := by
  refine .bind (peek_mem.imp ?_)
  rintro a _ ⟨rfl, ha⟩
  exact .after (modify_apply _) (.pure ⟨ha, rfl⟩)

end MachineM

end Tenure
