import Tenure.Proofs.Endless.Objects
import Tenure.Proofs.Mirror.Allocation

/-!
# The machine as a mirror of the endless machine

A machine matches a state of the endless machine if its heap mirrors the objects that the registers keep alive and its
registers hold the renamed addresses, `Matches`. `Follows` says that an operation does what an effect of the endless
machine says, provided that its demand of nodes fits into the heap, and that it fails for want of memory otherwise. In a
heap with more nodes than addresses it may stray instead.
-/

set_option autoImplicit false

namespace Tenure

/-! ## Operands -/

/-- The operands are those of a list, topmost first. -/
structure Operands.Hold (s : Operands) (l : List Address) : Prop where
  list : s.toList = l.reverse
  height : s.height ≤ s.cells.size

namespace Operands

variable {s : Operands} {a : Address} {l : List Address}

theorem Hold.length (h : s.Hold l) : l.length = s.height := by
  have := congrArg List.length h.list
  simp only [toList, List.length_take, Array.length_toList, List.length_reverse] at this
  have := h.height
  omega

theorem Hold.top? (h : s.Hold (a :: l)) : s.top? = some a := by
  have hlen := h.length
  have hlist := congrArg (fun l => l[s.height - 1]?) h.list
  simp only [List.length_cons] at hlen
  simp only [toList, ← hlen, Nat.add_sub_cancel, List.reverse_cons] at hlist
  rw [List.getElem?_take_of_lt (by omega), List.getElem?_append_right (by simp)] at hlist
  simpa [Operands.top?, ← hlen] using hlist

theorem Hold.dropTop (h : s.Hold (a :: l)) : s.dropTop.Hold l := by
  have hlen := h.length
  simp only [List.length_cons] at hlen
  refine ⟨?_, Nat.le_trans (Nat.sub_le ..) h.height⟩
  have hlist := congrArg (List.take (s.height - 1)) h.list
  simp only [toList, List.take_take] at hlist
  rw [Nat.min_eq_left (Nat.sub_le ..)] at hlist
  rw [Operands.toList, Operands.dropTop, hlist, List.reverse_cons, ← hlen]
  simp

theorem Hold.push (h : s.Hold l) (a : Address) : (s.push a).Hold (a :: l) := by
  obtain ⟨cells, height⟩ := s
  have hheight := h.height
  have hlist := h.list
  simp only [toList] at hheight hlist
  unfold Operands.push
  simp only
  split
  next hlt =>
    refine ⟨?_, by simpa using hlt⟩
    simp only [toList, Array.toList_setIfInBounds, List.reverse_cons, ← hlist]
    rw [List.take_set, List.take_succ_eq_append_getElem (by simpa using hlt)]
    rw [List.set_append_right _ _ (by simp)]
    simp [Nat.min_eq_left hheight]
  next hge =>
    obtain rfl : height = cells.size := by omega
    refine ⟨?_, by simp⟩
    rw [toList, List.reverse_cons, ← hlist, List.take_of_length_le (by simp), List.take_of_length_le (by simp),
      Array.toList_push]

theorem Hold.get? (h : s.Hold l) {i : Nat} (hi : i < l.length) : s.get? i = l.reverse[i]? := by
  have hlen := h.length
  rw [Operands.get?, if_pos (by omega), ← h.list, toList, List.getElem?_take_of_lt (by omega)]
  simp

theorem Hold.above (h : s.Hold l) (i : Nat) : s.above i = l.reverse.drop i := by rw [Operands.above, h.list]

/-- Going back to a lower height keeps the lower operands. -/
theorem Hold.atHeight (h : s.Hold l) {k : Nat} (hk : k ≤ l.length) : (s.atHeight k).Hold (l.drop (l.length - k)) := by
  obtain ⟨cells, height⟩ := s
  have hlen := h.length
  have hheight := h.height
  have hlist := congrArg (List.take k) h.list
  simp only [toList, List.take_take] at hlen hheight hlist
  rw [Nat.min_eq_left (by omega)] at hlist
  refine ⟨?_, by simp only [Operands.atHeight]; omega⟩
  rw [Operands.atHeight, toList, hlist, List.take_reverse]

end Operands

/-! ## Registers -/

/-- The registers hold the renamed addresses. -/
structure Registers (φ : Address → Address) (operands : List Address) (env : Address) (frames : List Address)
    (m : Machine) : Prop where
  operands : m.operands.Hold (operands.map φ)
  env : m.env = φ env
  frames : m.frames = frames.map φ

section Registers

variable {φ φ' : Address → Address} {operands frames : List Address} {env : Address} {m m' : Machine}

theorem Registers.congr (h : Registers φ operands env frames m) (hφ : ∀ a ∈ operands ++ env :: frames, φ' a = φ a) :
    Registers φ' operands env frames m := by
  have hops : operands.map φ' = operands.map φ := List.map_congr_left fun a ha => hφ a (by simp [ha])
  have hframes : frames.map φ' = frames.map φ := List.map_congr_left fun a ha => hφ a (by simp [ha])
  exact ⟨hops ▸ h.operands, h.env.trans (hφ env (by simp)).symm, h.frames.trans hframes.symm⟩

theorem Registers.with_heap (h : Registers φ operands env frames m) (heap : Heap) :
    Registers φ operands env frames { m with heap := heap } :=
  ⟨h.operands, h.env, h.frames⟩

/-- The roots of a collection are what the registers hold and what is pinned. -/
theorem Registers.rooted (h : Registers φ operands env frames m) (objs : List Obj) (pinned : List Address) :
    Rooted φ objs (pinned ++ (operands ++ env :: frames))
      (pinned.map (fun a => some (φ a)) ++ (MachineM.rootsOf m).get) := by
  have hroots : (MachineM.rootsOf m).get = (operands.reverse ++ env :: frames.reverse).map fun a => some (φ a) := by
    simp [MachineM.rootsOf, Thunk.get, Machine.roots, h.operands.list, h.env, h.frames, ← List.map_reverse, Function.comp_def]
  rw [hroots, ← List.map_append]
  refine ⟨fun a ha => ?_, fun a ha => ?_⟩
  · obtain ⟨b, hb, hba⟩ := List.mem_map.mp ha
    exact ⟨b, .root (by simpa using hb), Option.some.inj hba⟩
  · exact List.mem_map.mpr ⟨a, by simpa using ha, rfl⟩

end Registers

/-! ## States -/

/-- A machine in a state of the endless machine. -/
structure Matches (φ : Address → Address) (s : Endless) (m : Machine) : Prop where
  mirrors : Mirrors φ s.objs s.roots m.heap
  registers : Registers φ s.operands s.env s.frames m
  pins : m.heap.pins = #[]
  pc : m.pc = s.pc

/-- Two machines have the same program, number of nodes and count of steps. -/
structure Machine.Same (m m' : Machine) : Prop where
  code : m'.code = m.code
  steps : m'.steps = m.steps
  size : m'.heap.nodes.size = m.heap.nodes.size

theorem Machine.Same.refl (m : Machine) : m.Same m := ⟨rfl, rfl, rfl⟩

theorem Machine.Same.trans {m m' m'' : Machine} (h : m.Same m') (h' : m'.Same m'') : m.Same m'' :=
  ⟨h'.code.trans h.code, h'.steps.trans h.steps, h'.size.trans h.size⟩

/-- Old objects keep their addresses, unless they are texts, which may be made again. -/
def Keeps (objs : List Obj) (φ φ' : Address → Address) : Prop :=
  ∀ (a : Address) (o : Obj), objs[a]? = some o → (∀ t, o.content ≠ .string t) → φ' a = φ a

theorem Keeps.refl (objs : List Obj) (φ : Address → Address) : Keeps objs φ φ := fun _ _ _ _ => rfl

theorem Keeps.trans {objs later : List Obj} {φ φ' φ'' : Address → Address} (h : Keeps objs φ φ')
    (h' : Keeps later φ' φ'') (hobjs : ∀ (a : Address) (o : Obj), objs[a]? = some o → later[a]? = some o) :
    Keeps objs φ φ'' :=
  fun a o ho hs => (h' a o (hobjs a o ho) hs).trans (h a o ho hs)

/-- An operation stops because the free list leads it out of the arena. That takes more nodes than addresses. -/
def MachineM.Strays {α : Type} (x : MachineM α) (m : Machine) : Prop :=
  ∃ m', x m = (.error .crashed, m') ∧ Heap.addressable < m'.heap.nodes.size

theorem MachineM.Strays.onHeap {α β : Type} {act : HeapM α} {f : α → MachineM β} {m : Machine}
    (hact : act.Strays (MachineM.rootsOf m) m.heap) : (MachineM.onHeap act >>= f).Strays m := by
  obtain ⟨h', hrun, hmany⟩ := hact
  exact ⟨{ m with heap := h' }, MachineM.bind_error (MachineM.onHeap_error hrun), hmany⟩

/-- An operation does what an effect says if the heap is large enough for it, and runs out of memory otherwise, unless it
strays. -/
def Follows (objs : List Obj) (φ : Address → Address) (x : MachineM Unit) (m : Machine) (e : Effect) : Prop :=
  x.Strays m ∨
  (e.demand ≤ m.heap.nodes.size →
    match e.outcome with
    | .ok s => ∃ φ' m', x m = (.ok (), m') ∧ Matches φ' s m' ∧ Keeps objs φ φ' ∧ m.Same m'
    | .error err => ∃ m', x m = (.error (.failed err), m') ∧ m'.pc = m.pc ∧ m'.steps = m.steps) ∧
  (m.heap.nodes.size < e.demand →
    ∃ m', x m = (.error (.failed (.heap .exhausted)), m') ∧ m'.pc = m.pc ∧ m'.steps = m.steps)

namespace Follows

variable {objs : List Obj} {φ φ' : Address → Address} {x : MachineM Unit} {s : Endless} {e : Effect} {err : StepError}
  {m k : Machine}

theorem ok (hx : x m = (.ok (), k)) (hm : Matches φ s k) (hs : m.Same k) : Follows objs φ x m (.ok s) :=
  .inr ⟨fun _ => ⟨φ, k, hx, hm, .refl objs φ, hs⟩, fun h => absurd h (Nat.not_lt_zero _)⟩

theorem fail (hx : x m = (.error (.failed err), k)) (hpc : k.pc = m.pc) (hs : k.steps = m.steps) :
    Follows objs φ x m (.fail err) :=
  .inr ⟨fun _ => ⟨k, hx, hpc, hs⟩, fun h => absurd h (Nat.not_lt_zero _)⟩

/-- An effect all of whose nodes are live after it. -/
theorem made (hx : x m = (.ok (), k)) (hm : Matches φ s k) (hs : m.Same k) : Follows objs φ x m (.made s) := by
  refine .inr ⟨fun _ => ⟨φ, k, hx, hm, .refl objs φ, hs⟩, fun hlt => ?_⟩
  have := hm.mirrors.live_le
  simp only [Effect.made, Endless.live] at hlt
  rw [hs.size] at this
  omega

/-- The end of an instruction whose demand was met. -/
theorem met {demand : Nat} (hdemand : demand ≤ m.heap.nodes.size) (hx : x m = (.ok (), k)) (hm : Matches φ' s k)
    (hk : Keeps objs φ φ') (hs : m.Same k) : Follows objs φ x m ⟨demand, .ok s⟩ :=
  .inr ⟨fun _ => ⟨φ', k, hx, hm, hk, hs⟩, fun hlt => absurd hlt (Nat.not_lt.mpr hdemand)⟩

theorem of_eq {y : MachineM Unit} (hxy : x m = y m) (h : Follows objs φ y m e) : Follows objs φ x m e := by
  unfold Follows MachineM.Strays at h ⊢
  rwa [hxy]

/-- A first step that succeeds without leaving the instruction. -/
theorem bind {α : Type} {y : MachineM α} {f : α → MachineM Unit} {a : α} (hy : y m = (.ok a, k)) (hs : m.Same k)
    (hpc : k.pc = m.pc) (h : Follows objs φ (f a) k e) : Follows objs φ (y >>= f) m e := by
  have hrun : (y >>= f) m = f a k := MachineM.bind_ok hy
  refine h.imp (fun ⟨m', hrest, hmany⟩ => ⟨m', hrun.trans hrest, hmany⟩) fun ⟨hroom, hfull⟩ =>
    ⟨fun hd => ?_, fun hd => ?_⟩
  · have := hroom (hs.size.symm ▸ hd)
    cases hout : e.outcome with
    | ok s =>
      simp only [hout] at this
      obtain ⟨φ', m'', hx, hm, hk, hs'⟩ := this
      exact ⟨φ', m'', hrun.trans hx, hm, hk, hs.trans hs'⟩
    | error err =>
      simp only [hout] at this
      obtain ⟨m'', hx, hpc', hs'⟩ := this
      exact ⟨m'', hrun.trans hx, hpc'.trans hpc, hs'.trans hs.steps⟩
  · obtain ⟨m'', hx, hpc', hs'⟩ := hfull (hs.size.symm ▸ hd)
    exact ⟨m'', hrun.trans hx, hpc'.trans hpc, hs'.trans hs.steps⟩

/-- An instruction goes on from another renaming. -/
theorem of_keeps {later : List Obj} (hk : Keeps objs φ φ')
    (hobjs : ∀ (a : Address) (o : Obj), objs[a]? = some o → later[a]? = some o) (h : Follows later φ' x m e) :
    Follows objs φ x m e := by
  refine h.imp_right fun ⟨hroom, hfull⟩ => ⟨fun hd => ?_, hfull⟩
  have := hroom hd
  cases hout : e.outcome with
  | ok s =>
    simp only [hout] at this
    obtain ⟨φ'', m', hx, hm, hk', hs⟩ := this
    exact ⟨φ'', m', hx, hm, hk.trans hk' hobjs, hs⟩
  | error err =>
    simp only [hout] at this
    exact this

end Follows

namespace Matches

variable {φ : Address → Address} {s : Endless} {m : Machine} {a : Address} {rest : List Address}

/-- The machine with a reachable object on top of its operands. -/
theorem push (hm : Matches φ s m) (ha : Reach s.objs s.roots a) :
    Matches φ (s.push a) { m with operands := m.operands.push (φ a) } := by
  refine ⟨hm.mirrors.of_held fun b hb => ?_, ⟨hm.registers.operands.push (φ a), hm.registers.env, hm.registers.frames⟩,
    hm.pins, hm.pc⟩
  rcases List.mem_cons.mp hb with rfl | hb
  · exact ha
  · exact .root hb

/-- The machine without its topmost operand. -/
theorem pop (hm : Matches φ s m) (hops : s.operands = a :: rest) :
    MachineM.pop m = (.ok (φ a), { m with operands := m.operands.dropTop }) ∧
      Matches φ { s with operands := rest } { m with operands := m.operands.dropTop } ∧ Reach s.objs s.roots a := by
  have hhold : m.operands.Hold (φ a :: rest.map φ) := by simpa [hops] using hm.registers.operands
  refine ⟨?_, ⟨hm.mirrors.of_held fun b hb => .root ?_, ⟨hhold.dropTop, hm.registers.env, hm.registers.frames⟩, hm.pins,
    hm.pc⟩, .root (by simp [Endless.roots, hops])⟩
  · have hpeek : MachineM.peek m = (.ok (φ a), m) := by simp [MachineM.peek, hhold.top?]
    rw [MachineM.pop, MachineM.bind_ok hpeek]
    rfl
  · simp only [Endless.roots, hops] at hb ⊢
    exact List.mem_cons_of_mem _ hb

theorem rooted (hm : Matches φ s m) : Rooted φ s.objs s.roots (m.heap.pins.toList ++ (MachineM.rootsOf m).get) := by
  simpa [hm.pins, Endless.roots] using hm.registers.rooted s.objs []

/-- An allocation pushes the object that it adds. -/
theorem push_adds (hm : Matches φ s m) {act : HeapM Address} {objs' : List Obj}
    (hact : Adds act φ s.objs s.roots a objs' (MachineM.rootsOf m) m.heap) (hnew : ¬ Reach s.objs s.roots a)
    (hkeep : ∀ o, s.objs[a]? = some o → ∃ t, o.content = .string t)
    (hlive : live objs' (a :: s.roots) = s.live + 1) :
    Follows s.objs φ (do MachineM.push (← MachineM.onHeap act)) m
      (.made { s with objs := objs', operands := a :: s.operands }) := by
  have hdemand : (Effect.made { s with objs := objs', operands := a :: s.operands }).demand = s.live + 1 := hlive
  refine hact.imp MachineM.Strays.onHeap fun ⟨hroom, hfull⟩ => ⟨fun hle => ?_, fun hlt => ?_⟩
  · rw [hdemand] at hle
    obtain ⟨b, h', hrun, hm', hsize, hpins⟩ := hroom hle
    have hold : ∀ c ∈ s.roots, Function.update φ a b c = φ c := by
      intro c hc
      have hne : c ≠ a := by
        rintro rfl
        exact hnew (.root hc)
      exact Function.update_of_ne hne b φ
    have hreg := hm.registers.congr hold
    refine ⟨Function.update φ a b, { m with heap := h', operands := m.operands.push b }, ?_,
      ⟨hm', ⟨?_, hreg.env, hreg.frames⟩, hpins.trans hm.pins, hm.pc⟩, fun c o ho hs => ?_, ⟨rfl, rfl, hsize⟩⟩
    · rw [MachineM.bind_ok (MachineM.onHeap_ok hrun)]
      rfl
    · have := hreg.operands.push b
      simpa using this
    · have hne : c ≠ a := by
        rintro rfl
        obtain ⟨t, ht⟩ := hkeep o ho
        exact hs t ht
      exact Function.update_of_ne hne b φ
  · rw [hdemand] at hlt
    obtain ⟨h', hrun⟩ := hfull (Nat.le_of_lt_succ hlt)
    exact ⟨{ m with heap := h' }, MachineM.bind_error (MachineM.onHeap_error hrun), rfl, rfl⟩

/-- An allocation pushes a new object. -/
theorem push_create (hm : Matches φ s m) {act : HeapM Address} {o : Obj}
    (hact : Adds act φ s.objs s.roots s.objs.length (s.objs ++ [o]) (MachineM.rootsOf m) m.heap)
    (hlinks : ∀ b ∈ o.links, Reach s.objs s.roots b) :
    Follows s.objs φ (do MachineM.push (← MachineM.onHeap act)) m (.made (s.create o)) :=
  hm.push_adds hact hm.mirrors.not_reach_length (by simp) (hm.mirrors.live_append hlinks)

end Matches

end Tenure
