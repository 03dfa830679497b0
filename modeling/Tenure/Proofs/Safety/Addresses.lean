import Tenure.Proofs.Code.RoundTrip
import Tenure.Proofs.Mirror.Course

/-!
# Arenas with more nodes than addresses

Where an arena has more nodes than addresses can tell apart, the free list of a new heap leads through all nodes that have an
address and then out of the arena. A machine can be set up in such an arena, `Machine.create_outside`. But a program that
allocates on and on crashes it, `Machine.allocating_crashes`: there is always a link to follow, so nothing is ever collected,
and the last link leads nowhere.
-/

set_option autoImplicit false

namespace Tenure

namespace Heap

/-- From a node on, the free list is as in a new arena with more nodes than addresses. -/
structure NewFrom (h : Heap) (i : Nat) : Prop where
  many : addressable < h.nodes.size
  within : h.nodes.size ≤ maxNodes
  free : h.free = linkTo i
  vacant : ∀ j, i ≤ j → j < addressable → h.nodes[j]? = some (.vacant (linkTo (j + 1)))

variable {h h' : Heap} {i : Nat}

theorem new_newFrom (digest : Text → UInt64) {n : Nat} (hmany : addressable < n) (hmax : n ≤ maxNodes) :
    (new digest n).NewFrom bottom where
  many := by simpa [new] using hmany
  within := by simpa [new] using hmax
  free := by rw [linkTo_of_lt (by decide)]; rfl
  vacant j hj hlt := by
    rw [getElem?_new (hlt.trans hmany), initialNode, if_neg (Nat.not_lt.mpr hj), if_pos (Nat.lt_of_le_of_lt hlt hmany)]

namespace NewFrom

/-- Nothing else of the heap matters than the free list and the nodes from there on. -/
theorem congr (hi : h.NewFrom i) (hfree : h'.free = h.free) (hsize : h'.nodes.size = h.nodes.size)
    (hnodes : ∀ j, i ≤ j → h'.nodes[j]? = h.nodes[j]?) : h'.NewFrom i where
  many := hsize ▸ hi.many
  within := hsize ▸ hi.within
  free := hfree.trans hi.free
  vacant j hj hlt := (hnodes j hj).trans (hi.vacant j hj hlt)

theorem pinned (hi : h.NewFrom i) (pins : Array Link) : { h with pins := pins }.NewFrom i :=
  hi.congr rfl rfl fun _ _ => rfl

theorem setNode (hi : h.NewFrom i) {a : Address} (ha : a < i) (n : Node) : (h.setNode a n).NewFrom i :=
  hi.congr rfl (by simp [Heap.setNode]) fun j hj => by
    simp [Heap.setNode, Array.getElem?_setIfInBounds_ne (Nat.ne_of_lt (Nat.lt_of_lt_of_le ha hj))]

/-- Allocation gives out the nodes one after the other. -/
theorem allocate (hi : h.NewFrom i) (hlt : i < addressable) (node : Node) (hw : wordsFor node.slots ≤ nodeWords)
    (roots : Roots) :
    ∃ h', HeapM.allocate node roots h = (.ok i, h') ∧ h'.NewFrom (i + 1) ∧ h'.nodes[i]? = some node ∧
      ∀ b : Nat, b < i → h'.nodes[b]? = h.nodes[b]? := by
  have hvacant := hi.vacant i le_rfl hlt
  have hfree : h.free = some i := hi.free.trans (linkTo_of_lt hlt)
  refine ⟨h.place i (linkTo (i + 1)) node, ?_, ⟨?_, ?_, rfl, fun j hj hjlt => ?_⟩,
    getElem?_place_self hvacant _ _, fun b hb => getElem?_place_ne (Nat.ne_of_lt hb) h _ _⟩
  · rw [allocate_of_free hw hfree, HeapM.take, take?_eq hfree hvacant]
  · simpa [place] using hi.many
  · simpa [place] using hi.within
  · rw [getElem?_place_ne (Nat.ne_of_gt hj)]
    exact hi.vacant j (Nat.le_of_succ_le hj) hjlt

/-- After the last node that has an address, allocation crashes. -/
theorem allocate_spent (hi : h.NewFrom addressable) (node : Node) (hw : wordsFor node.slots ≤ nodeWords) (roots : Roots) :
    HeapM.allocate node roots h = (.error .crashed, h) := by
  have hfree : h.free = some (maxNodes + addressable) := hi.free.trans linkTo_addressable
  rw [allocate_of_free hw hfree]
  exact take_of_outside hfree (Nat.le_add_right_of_le hi.within) node roots

/-- Builtins are made and put into slots of a frame. -/
theorem fill (hi : h.NewFrom i) {f : Address} (hf : f < i) {n : Node} (hn : h.nodes[f]? = some n) (slots : List Nat)
    (hslots : ∀ s ∈ slots, s < 9) (hroom : i + slots.length ≤ addressable) (roots : Roots) :
    ∃ h', (forM slots fun s : Nat => do
        let b ← HeapM.builtin s
        HeapM.setChild f s (some b)) roots h = (.ok (), h') ∧
      h'.NewFrom (i + slots.length) ∧ ∀ b : Nat, b < i → b ≠ f → h'.nodes[b]? = h.nodes[b]? := by
  induction slots generalizing h i n with
  | nil => exact ⟨h, rfl, hi, fun _ _ _ => rfl⟩
  | cons s slots ih =>
    obtain ⟨hs, hslots⟩ := List.forall_mem_cons.mp hslots
    rw [List.length_cons, ← Nat.add_assoc] at hroom
    obtain ⟨h₁, halloc, hi₁, -, hsame₁⟩ := hi.allocate (by omega) (.fresh (.builtin s) 0)
      (show wordsFor 0 ≤ nodeWords by decide) roots
    have hn₁ : h₁.nodes[f]? = some n := (hsame₁ f hf).trans hn
    have hs9 : (0 : Int) ≤ s ∧ (s : Int) < 9 := by omega
    let n' : Node := { n with children := n.children.setIfInBounds (s : Int).toNat (some i) }
    have hset : HeapM.setChild f s (some i) roots h₁ = (.ok (), h₁.setNode f n') := by
      rw [HeapM.setChild, HeapM.bind_ok (HeapM.nodeAt_apply hn₁), Node.setChild?, if_pos hs9]
      rfl
    have hn₂ : (h₁.setNode f n').nodes[f]? = some n' :=
      Array.getElem?_setIfInBounds_self_of_lt (Array.getElem?_eq_some_iff.mp hn₁).1
    obtain ⟨h', hrest, hi', hsame⟩ :=
      ih (hi₁.setNode (Nat.lt_succ_of_lt hf) n') (Nat.lt_succ_of_lt hf) hn₂ hslots (by omega)
    refine ⟨h', ?_, by rwa [List.length_cons, Nat.add_comm _ 1, ← Nat.add_assoc], fun b hb hne => ?_⟩
    · have hbuiltin : HeapM.builtin s roots h = (.ok i, h₁) := halloc
      rw [List.forM_cons, bind_assoc, HeapM.bind_ok hbuiltin, HeapM.bind_ok hset]
      exact hrest
    · rw [hsame b (Nat.lt_succ_of_lt hb) hne, Heap.setNode, Array.getElem?_setIfInBounds_ne (Ne.symm hne), hsame₁ b hb]

/-- The empty environment is extended. -/
theorem extend (hi : h.NewFrom i) (hlt : i < addressable) {e : Address}
    (hn : h.nodes[e]? = some (.fresh .environment 0)) (frame : Link) (roots : Roots) :
    ∃ h', HeapM.extend frame (some e) roots h = (.ok i, h') ∧ h'.NewFrom (i + 1) := by
  obtain ⟨h₁, halloc, hi₁, hself, -⟩ := (hi.pinned (h.pins ++ [frame, some e].toArray)).allocate hlt
    (.fresh .environment 1) (by decide) roots
  have hfollow : HeapM.follow (some e) roots { h with pins := h.pins ++ [frame, some e].toArray } =
      (.ok (.fresh .environment 0), { h with pins := h.pins ++ [frame, some e].toArray }) := HeapM.follow_apply hn
  have hempty : HeapM.environment (oneMore (Node.fresh .environment 0).slots) = HeapM.allocate (.fresh .environment 1) := rfl
  have hinside : ¬ ((Node.fresh .environment 0).slots < 0 ∨ (Node.fresh .environment 0).overruns = true) := by decide
  refine ⟨{ h₁.setNode i ((Node.fresh .environment 1).withChildren [frame]) with pins := h₁.pins.extract 0 h.pins.size },
    ?_, (hi₁.setNode (Nat.lt_succ_self i) _).pinned _⟩
  simp only [HeapM.extend, HeapM.pinning]
  rw [HeapM.bind_ok hfollow, hempty, HeapM.bind_ok halloc, if_neg hinside]
  simp only [HeapM.modify_bind_apply, HeapM.pure_apply, node?, hself]
  rfl

end NewFrom

end Heap

/-- The builtins are loaded into the first nodes that have to be allocated. -/
theorem MachineM.loadPrelude_newFrom (digest : Text → UInt64) {n : Nat} (hmany : Heap.addressable < n)
    (hmax : n ≤ Heap.maxNodes) (code : Array Instr) :
    ∃ m, loadPrelude { code := code, heap := .new digest n } = (.ok (), m) ∧ m.heap.NewFrom 12 ∧ m.code = code ∧
      m.pc = 0 ∧ m.operands = {} := by
  have hi := Heap.new_newFrom digest hmany hmax
  let m₀ : Machine := { code := code, heap := .new digest n }
  obtain ⟨h₁, hempty, hi₁, hn₁, -⟩ := hi.allocate (by decide) (.fresh .environment 0) (by decide) (rootsOf m₀)
  let m₁ : Machine := { m₀ with heap := h₁, env := 5 }
  let slots : Node := (Node.fresh .frame 4).withChildren (List.replicate 4 (some Heap.unassigned))
  obtain ⟨h₂, halloc, hi₂, hn₂, hsame₂⟩ := hi₁.allocate (by decide) slots (by decide) (rootsOf m₁)
  have hframe : HeapM.frame 4 (rootsOf m₁) h₁ = (.ok 6, h₂) := by
    have hinside : ¬ slots.overruns = true := by decide
    refine (HeapM.bind_ok halloc).trans ?_
    show (if slots.overruns = true then HeapM.crash else pure 6 : HeapM Address) (rootsOf m₁) h₂ = _
    rw [if_neg hinside]
    rfl
  let m₂ : Machine := { m₁ with heap := h₂ }
  obtain ⟨h₃, hfill, hi₃, hsame₃⟩ := (hi₂.pinned (h₂.pins ++ [some 6].toArray)).fill (Nat.lt_succ_self 6) hn₂
    (List.range Builtin.all.length) (by decide) (by decide) (rootsOf m₂)
  have hn₃ : h₃.nodes[5]? = some (.fresh .environment 0) :=
    (hsame₃ 5 (by decide) (by decide)).trans ((hsame₂ 5 (by decide)).trans hn₁)
  obtain ⟨h₄, hextend, hi₄⟩ := hi₃.extend (by decide) hn₃ (some 6) (rootsOf m₂)
  have hprelude : fillPrelude 6 (rootsOf m₂) { h₂ with pins := h₂.pins ++ [some 6].toArray } = (.ok (), h₃) := hfill
  let h₅ : Heap := { h₄ with pins := h₄.pins.extract 0 h₂.pins.size }
  have hload : HeapM.pinning [some 6] (do
      fillPrelude 6
      HeapM.extend (some 6) (some 5)) (rootsOf m₂) h₂ = (.ok 11, h₅) := by
    simp only [HeapM.pinning]
    rw [HeapM.bind_ok hprelude, hextend]
    rfl
  refine ⟨{ m₂ with heap := h₅, env := 11 }, ?_, hi₄.pinned _, rfl, rfl, rfl⟩
  rw [loadPrelude, bind_ok (onHeap_ok hempty), setEnv, modify_bind_apply, bind_ok (onHeap_ok hframe),
    bind_ok (onHeap_ok hload), setEnv, modify_apply]

namespace Machine

/-- A machine can be set up in an arena with more nodes than addresses. -/
theorem create_outside (digest : Text → UInt64) (program : Program) {words : Int}
    (hmany : Heap.addressable < Heap.nodesFor words) (hmax : Heap.nodesFor words ≤ Heap.maxNodes) :
    ∃ m, create digest program words = .ok m ∧ m.heap.NewFrom 12 ∧ m.code = program.toArray ∧ m.pc = 0 ∧
      m.operands.Hold [] := by
  obtain ⟨m, hrun, hi, hcode, hpc, hops⟩ := MachineM.loadPrelude_newFrom digest hmany hmax program.toArray
  have hheap : Heap.create digest words = .ok (.new digest (Heap.nodesFor words)) := by
    rw [Heap.create_eq, if_neg (Nat.not_le.mpr (Nat.lt_trans (by decide) hmany)), if_neg (Nat.not_lt.mpr hmax)]
  refine ⟨m, ?_, hi, hcode, hpc, ?_⟩
  · rw [create, hheap]
    simp only [hrun]
  · rw [hops]
    exact ⟨rfl, le_rfl⟩

/-- A program that makes a number and gives it up, again and again. -/
def allocating : Program := [.loadConstant (.ofInt 7), .plain .pop, .jump 0]

variable {m : Machine}

theorem run_running {limits : Limits} {m' : Machine} (h : advance limits m = .running m') (fuel : Nat) :
    run limits (fuel + 1) m = run limits fuel m' := by simp only [run, h]

/-- An instruction of the program is executed. -/
theorem allocating_step {k : Nat} {i : Instr} (hcode : m.code = allocating.toArray) (hpc : m.pc = k)
    (hi : allocating[k]? = some i) (hop : i.op.operation? ≠ some .done) :
    advance {} m = executed i m.fetched := by
  have hfetch : m.fetch? = some i := by
    rw [fetch?, if_pos (by omega), hcode, hpc]
    simpa using hi
  rw [advance_free hfetch rfl, if_neg hop]

theorem allocating_load {a : Address} {h : Heap} (hcode : m.code = allocating.toArray) (hpc : m.pc = 0)
    (halloc : HeapM.allocate (.fresh (.number (.ofInt 7)) 0) (MachineM.rootsOf m.fetched) m.fetched.heap = (.ok a, h)) :
    advance {} m = .running { m.fetched with heap := h, operands := m.operands.push a } := by
  have hrun : MachineM.execute (.loadConstant (.ofInt 7)) m.fetched =
      (.ok (), { m.fetched with heap := h, operands := m.operands.push a }) :=
    MachineM.bind_ok (MachineM.onHeap_ok halloc)
  rw [allocating_step (k := 0) hcode hpc rfl (by decide), executed, hrun]

theorem allocating_load_spent (hcode : m.code = allocating.toArray) (hpc : m.pc = 0)
    (halloc : HeapM.allocate (.fresh (.number (.ofInt 7)) 0) (MachineM.rootsOf m.fetched) m.fetched.heap =
      (.error .crashed, m.fetched.heap)) : advance {} m = .ended .crashed m.fetched := by
  have hrun : MachineM.execute (.loadConstant (.ofInt 7)) m.fetched = (.error .crashed, m.fetched) :=
    MachineM.bind_error (MachineM.onHeap_error halloc)
  rw [allocating_step (k := 0) hcode hpc rfl (by decide), executed, hrun]

theorem allocating_pop {a : Address} {l : List Address} (hcode : m.code = allocating.toArray) (hpc : m.pc = 1)
    (hops : m.operands.Hold (a :: l)) :
    advance {} m = .running { m.fetched with operands := m.operands.dropTop } := by
  have htop : m.fetched.operands.top? = some a := hops.top?
  have hpeek : MachineM.peek m.fetched = (.ok a, m.fetched) := by
    simp only [MachineM.peek, MachineM.get_bind_apply, htop, MachineM.pure_apply]
  have hpop : MachineM.pop m.fetched = (.ok a, { m.fetched with operands := m.operands.dropTop }) := by
    rw [MachineM.pop, MachineM.bind_ok hpeek, MachineM.modify_bind_apply]
    rfl
  have hrun : MachineM.execute (.plain .pop) m.fetched = (.ok (), { m.fetched with operands := m.operands.dropTop }) :=
    MachineM.bind_ok hpop
  rw [allocating_step (k := 1) hcode hpc rfl (by decide), executed, hrun]

theorem allocating_jump (hcode : m.code = allocating.toArray) (hpc : m.pc = 2) :
    advance {} m = .running { m.fetched with pc := 0 } := by
  have hrun : MachineM.execute (.jump 0) m.fetched = (.ok (), { m.fetched with pc := 0 }) := rfl
  rw [allocating_step (k := 2) hcode hpc rfl (by decide), executed, hrun]

/-- Its run goes on to the last node that has an address, by induction on how many are left. -/
theorem crashes_of_newFrom {a : Nat} (hi : m.heap.NewFrom a) (hle : a ≤ Heap.addressable)
    (hcode : m.code = allocating.toArray) (hpc : m.pc = 0) (hops : m.operands.Hold []) :
    ∃ fuel, (run {} fuel m).1 = .crashed := by
  obtain ⟨k, hk⟩ := Nat.exists_eq_add_of_le hle
  induction k generalizing m a with
  | zero =>
    obtain rfl : a = Heap.addressable := hk.symm
    have hspent := allocating_load_spent hcode hpc (hi.allocate_spent _ (by decide) _)
    exact ⟨1, by simp only [run, hspent]⟩
  | succ k ih =>
    obtain ⟨h', halloc, hi', -⟩ := hi.allocate (by omega) (.fresh (.number (.ofInt 7)) 0) (by decide)
      (MachineM.rootsOf m.fetched)
    have hload := allocating_load hcode hpc halloc
    have hpop := allocating_pop (m := { m.fetched with heap := h', operands := m.operands.push a }) hcode
      (show m.pc + 1 = 1 by omega) (hops.push a)
    have hjump := allocating_jump
      (m := { m.fetched.fetched with heap := h', operands := (m.operands.push a).dropTop }) hcode
      (show m.pc + 1 + 1 = 2 by omega)
    obtain ⟨fuel, hcrash⟩ := ih
      (m := { m.fetched.fetched.fetched with pc := 0, heap := h', operands := (m.operands.push a).dropTop }) hi' (by omega)
      hcode rfl (hops.push a).dropTop (by omega)
    have hrun := (run_running hload (fuel + 2)).trans ((run_running hpop (fuel + 1)).trans (run_running hjump fuel))
    exact ⟨fuel + 3, hrun ▸ hcrash⟩

/-- In an arena with more nodes than addresses its run crashes, although nearly all nodes could be collected. -/
theorem allocating_crashes (digest : Text → UInt64) {words : Int} (hmany : Heap.addressable < Heap.nodesFor words)
    (hmax : Heap.nodesFor words ≤ Heap.maxNodes) :
    ∃ start, create digest allocating words = .ok start ∧ ∃ fuel, (run {} fuel start).1 = .crashed := by
  obtain ⟨start, hstart, hi, hcode, hpc, hops⟩ := create_outside digest allocating hmany hmax
  exact ⟨start, hstart, crashes_of_newFrom hi (by decide) hcode hpc hops⟩

end Machine

/-- The program can be loaded, and it crashes in a heap with one node more than there are addresses. -/
theorem Image.allocating_crashes_addressable : decode (encode Machine.allocating) = .ok Machine.allocating ∧
    Heap.nodesFor 21474836490 = Heap.addressable + 1 ∧
    ∃ start, Machine.create Heap.defaultDigest Machine.allocating 21474836490 = .ok start ∧
      ∃ fuel, (Machine.run {} fuel start).1 = .crashed :=
  ⟨(decode_encode_eq (by decide) (by decide)).trans (by decide), by decide,
    Machine.allocating_crashes Heap.defaultDigest (by decide) (by decide)⟩

end Tenure
