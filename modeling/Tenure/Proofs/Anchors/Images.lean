import Tenure.Proofs.Anchors.Instructions
import Tenure.Proofs.Mirror.Course
import Tenure.Proofs.Safety.Images

/-!
# Loaded images hold no dangling addresses

The machine starts anchored, `Machine.create_anchored`, and stays so as long as every return goes back to a height of the
operands that is not above the current one, `Machine.ReachesWithin`. Then every address that the machine holds leads to a
node that has been there since the address came to its place: `Image.run_anchored`. Code can be written that gives up
operands of its caller and has its return bring them back, when a collection has taken them: `Image.staleReturn_dangles`.
-/

set_option autoImplicit false

namespace Tenure

open Heap Node

/-! ## The start -/

namespace Heap

variable {roots : Roots} {h h' : Heap} {a frame env : Address} {node : Node} {pins : Array Link}

/-- An allocation gives the node that it was asked for. -/
theorem Orderly.allocate_gives (ho : h.Orderly) (hr : h.Holds roots.get)
    (hrun : HeapM.allocate node roots h = (.ok a, h')) : h'.nodes[a]? = some node := by
  obtain ⟨e, h₁, hfail, -⟩ | ⟨h₁, hcrash, -⟩ | ⟨h₁, b, next, hok, -, hoffer⟩ := ho.offers hr node
  · cases hfail.symm.trans hrun
  · cases hcrash.symm.trans hrun
  · cases hok.symm.trans hrun
    exact getElem?_place_self hoffer.vacant next node

theorem Orderly.frame_gives (ho : h.Orderly) (hr : h.Holds roots.get) {slots : Int}
    (hrun : HeapM.frame slots roots h = (.ok a, h')) : HasSlots h'.nodes a slots := by
  generalize hnode : (Node.fresh .frame slots).withChildren
    (List.replicate (min slots.toNat maxChildren) (some Heap.unassigned)) = node
  have hframe : HeapM.frame slots = HeapM.allocate node >>= fun a => if node.overruns then HeapM.crash else pure a := by
    rw [HeapM.frame, hnode]
  rw [hframe] at hrun
  cases halloc : HeapM.allocate node roots h with
  | mk result h₁ =>
    cases result with
    | error e => cases (HeapM.bind_error halloc).symm.trans hrun
    | ok b =>
      rw [HeapM.bind_ok halloc] at hrun
      split at hrun <;> cases hrun
      exact ⟨node, ho.allocate_gives hr halloc, by rw [← hnode]; rfl, by rw [← hnode]; rfl⟩

/-- A heap while the builtins are put into a frame that is pinned. -/
structure Furnishes (roots : List Link) (pins : Array Link) (frame env : Address) (h : Heap) : Prop where
  orderly : h.Orderly
  held : h.Holds roots
  pins : h.pins = pins
  environment : IsEnvironment h.nodes env
  frame : HasSlots h.nodes frame Builtin.all.length

/-- One builtin is put into the frame. -/
theorem Furnishes.fill (hf : Furnishes roots.get pins frame env h) (hframe : some frame ∈ pins.toList)
    (henv : some env ∈ roots.get) {i : Nat} (hi : i < Builtin.all.length) :
    (do let b ← HeapM.builtin i; HeapM.setChild frame i (some b)).Leads roots h fun r h' =>
      r.isSome → Furnishes roots.get pins frame env h' := by
  refine (hf.orderly.leaf hf.held (by simp) (by simp)).bind (by simp) fun b h₁ hmade => ?_
  have hframe₁ : HasSlots h₁.nodes frame Builtin.all.length := by
    obtain ⟨n, hn, hc⟩ := hf.frame
    exact ⟨n, (hmade.kept frame (.root (by simp [rootLinks, hf.pins, hframe]))).trans hn, hc⟩
  have henv₁ := hmade.retains.isEnvironment (.root (by simp [rootLinks, henv])) hf.environment
  obtain ⟨h', hrun, hfollows, hs⟩ := hmade.orderly.write roots
    (hasChild_of_hasSlots hframe₁ (Int.natCast_nonneg i) (by exact_mod_cast hi)) (holds_singleton (hmade.allocated b rfl))
  refine .of_ok hrun fun _ => ⟨hfollows.orderly, hs.holds (hmade.holds hf.orderly.tidy hf.held), ?_,
    hs.isEnvironment henv₁, hs.hasSlots hframe₁⟩
  rw [hfollows.pins, hmade.pins, hf.pins]

/-- The builtins of a list of slots are put into the frame, one after the other. -/
theorem Furnishes.fillAll (hf : Furnishes roots.get pins frame env h) (hframe : some frame ∈ pins.toList)
    (henv : some env ∈ roots.get) (slots : List Nat) (hslots : ∀ i ∈ slots, i < Builtin.all.length) :
    (slots.forM fun i => do let b ← HeapM.builtin i; HeapM.setChild frame i (some b)).Leads roots h fun r h' =>
      r.isSome → Furnishes roots.get pins frame env h' := by
  induction slots generalizing h with
  | nil => exact .of_ok rfl fun _ => hf
  | cons i rest ih =>
    rw [List.forM]
    refine (hf.fill hframe henv (hslots i (List.mem_cons_self ..))).bind (by simp) fun _ h₁ hf₁ => ?_
    exact ih (hf₁ rfl) fun j hj => hslots j (List.mem_cons_of_mem i hj)

end Heap

namespace MachineM

/-- The prelude puts the builtins into a frame and makes an environment of it. -/
theorem prelude_leads {roots : Roots} {h : Heap} (ho : h.Orderly) (hr : h.Holds roots.get) {frame env : Address}
    (hframe : HasSlots h.nodes frame Builtin.all.length) (henv : some env ∈ roots.get) (he : IsEnvironment h.nodes env) :
    (HeapM.pinning [some frame] do
      fillPrelude frame
      HeapM.extend (some frame) (some env)).Leads roots h fun r h' =>
        ∀ a, r = some a → h'.Orderly ∧ h'.Holds roots.get ∧ h'.isAllocated a = true := by
  have hallocated {k : Heap} (hf : HasSlots k.nodes frame Builtin.all.length) : k.isAllocated frame = true := by
    obtain ⟨n, hn, hc, -⟩ := hf
    exact isAllocated_iff.mpr ⟨n, hn, by simp [hc]⟩
  have hpinned : h.Holds (h.pins ++ [some frame].toArray).toList := by
    simpa using Holds.append ho.tidy.pins (holds_singleton (hallocated hframe))
  have hfurnishes : Furnishes roots.get (h.pins ++ [some frame].toArray) frame env
      { h with pins := h.pins ++ [some frame].toArray } := ⟨ho.with_pins hpinned, hr, rfl, he, hframe⟩
  have hfill := hfurnishes.fillAll (by simp) henv (List.range Builtin.all.length) fun i hi => List.mem_range.mp hi
  refine .pinning (hfill.bind (by simp) fun _ h₁ hf => ?_)
  obtain ⟨hheap, hheld, hpins, ⟨n, hn, hc⟩, hframe₁⟩ := hf rfl
  refine (hheap.extend hheld (holds_singleton (hallocated hframe₁)) hn hc).imp fun r h₂ hmade => ?_
  rintro a rfl
  refine ⟨hmade.orderly.with_pins fun b hb => hmade.orderly.tidy.pins b ?_,
    hmade.holds hheap.tidy hheld, hmade.allocated a rfl⟩
  rw [hmade.pins, hpins] at hb ⊢
  have hmem : some b ∈ h.pins := by simpa using hb
  simp [hmem]

/-- The prelude anchors a machine that has nothing but a heap in order. -/
theorem loadPrelude_anchored {code : Array Instr} {heap : Heap} (ho : heap.Orderly) :
    loadPrelude.Safe { code := code, heap := heap } fun _ m => m.Anchored := by
  have hm : ({ code := code, heap := heap } : Machine).Anchored := by
    refine ⟨ho, fun a ha => ?_⟩
    obtain rfl : a = 0 := by simpa [Machine.roots, Operands.toList] using ha
    exact ho.tidy.permanent_allocated (by decide)
  refine .bind (safe_of_leads (hm.orderly.environment hm.holds (by decide) (by decide))
    fun empty h₁ hrun hmade => .after (modify_apply _) ?_)
  have hobtains : Machine.Obtains { code := code, heap := heap } empty { code := code, heap := h₁ } := ⟨rfl, hmade⟩
  have hm₁ := (hobtains.anchored hm).setEnv hobtains.isAllocated
  have hempty : IsEnvironment h₁.nodes empty := ⟨_, hm.orderly.allocate_gives hm.holds hrun, rfl⟩
  refine .bind (safe_of_leads (hm₁.orderly.frame hm₁.holds (by decide) (by decide)) fun frame h₂ hrun₂ hmade₂ => ?_)
  have hobtains₂ : Machine.Obtains { code := code, heap := h₁, env := empty } frame
      { code := code, heap := h₂, env := empty } := ⟨rfl, hmade₂⟩
  have hm₂ := hobtains₂.anchored hm₁
  have hempty₂ := hmade₂.retains.isEnvironment (Machine.WellFormed.reaches_env _) hempty
  have hframe := hm₁.orderly.frame_gives hm₁.holds hrun₂
  have henv : some empty ∈ (rootsOf { code := code, heap := h₂, env := empty }).get := Machine.mem_roots.mpr (.inr (.inl rfl))
  refine .bind (safe_of_leads (prelude_leads hm₂.orderly hm₂.holds hframe henv hempty₂) fun inner h₃ _ hmade₃ => ?_)
  obtain ⟨ho₃, hheld₃, hinner⟩ := hmade₃ inner rfl
  have hm₃ : ({ code := code, heap := h₃, env := empty } : Machine).Anchored := ⟨ho₃, hheld₃⟩
  exact .modify (hm₃.setEnv hinner)

end MachineM

/-- A machine that was set up is anchored. -/
theorem Machine.create_anchored {digest : Text → UInt64} {program : Program} {words : Int} {m : Machine}
    (h : create digest program words = .ok m) : m.Anchored := by
  rw [create, Heap.create_eq] at h
  by_cases hlow : Heap.nodesFor words ≤ Heap.bottom
  · simp [hlow] at h
  by_cases hhigh : Heap.maxNodes < Heap.nodesFor words
  · simp [hlow, hhigh] at h
  rw [if_neg hlow, if_neg hhigh] at h
  simp only at h
  split at h
  next m' hrun =>
    obtain rfl := Except.ok.inj h
    exact (MachineM.loadPrelude_anchored (Heap.new_orderly digest (Nat.not_le.mp hlow) (Nat.not_lt.mp hhigh))).ok () m' hrun
  · cases h

/-! ## Runs -/

namespace Machine

variable {m m' start : Machine} {limits : Limits} {i : Instr}

/-- If the instruction at hand is a return, it goes back to a height of the operands that is not above the current
one. -/
def ReturnsWithin (m : Machine) : Prop :=
  ∀ i, m.fetch? = some i → i.op.operation? = some .reset → m.HeightKept

/-- A run comes from one machine to another, and no return on the way brings back operands that were given up. -/
inductive ReachesWithin (limits : Limits) (start : Machine) : Machine → Prop where
  | refl : ReachesWithin limits start start
  | next {m m' : Machine} (h : ReachesWithin limits start m) (hreturn : m.ReturnsWithin)
    (hadvance : Machine.advance limits m = .running m') : ReachesWithin limits start m'

/-- The current environment is there, and all its children are frames. -/
def HasFrames (m : Machine) : Prop :=
  ∃ n, m.heap.nodes[m.env]? = some n ∧ n.content = .environment ∧
    ∀ l ∈ n.traced, ∃ f slots, l = some f ∧ HasSlots m.heap.nodes f slots

theorem WellFormed.hasFrames (hw : m.WellFormed) : m.HasFrames := by
  obtain ⟨n, hn, hc⟩ := hw.env
  have hsuits := (hw.heap.nodes m.env n hn).suits
  rw [Suits, hc] at hsuits
  exact ⟨n, hn, hc, hsuits⟩

/-- An instruction that is executed leads on. -/
theorem advance_running (h : advance limits m = .running m') :
    ∃ i, m.fetch? = some i ∧ MachineM.execute i m.fetched = (.ok (), m') := by
  cases hfetch : m.fetch? with
  | none => simp [advance, hfetch] at h
  | some i =>
    cases hlimit : limit? limits m.steps m.pc with
    | some e =>
      rw [advance_limited hfetch hlimit] at h
      cases h
    | none =>
      rw [advance_free hfetch hlimit] at h
      split at h
      · cases h
      unfold executed at h
      split at h <;> cases h
      exact ⟨i, rfl, ‹_›⟩

theorem WellFormed.code_checked (hw : m.WellFormed) (hfetch : m.fetch? = some i) : i.Checked := by
  unfold fetch? at hfetch
  split at hfetch
  · exact hw.code i (Array.mem_of_getElem? hfetch)
  · cases hfetch

theorem WellFormed.fetched (hw : m.WellFormed) : m.fetched.WellFormed :=
  ⟨hw.heap, hw.operands, hw.env, hw.frames, hw.code⟩

theorem WellFormed.running (hw : m.WellFormed) (h : Machine.advance limits m = .running m') : m'.WellFormed := by
  obtain ⟨i, hfetch, hrun⟩ := advance_running h
  exact (MachineM.execute_safe hw.fetched (hw.code_checked hfetch)).ok () m' hrun

/-- A step that is no return to operands that were given up. -/
theorem Anchored.running (hm : m.Anchored) (hw : m.WellFormed) (hreturn : m.ReturnsWithin) (hfetch : m.fetch? = some i)
    (h : Machine.advance limits m = .running m') : m.Upholds (m.staying i) m' := by
  obtain ⟨j, hfetch', hrun⟩ := advance_running h
  obtain rfl := Option.some.inj (hfetch.symm.trans hfetch')
  have hfetched : m.fetched.Anchored := ⟨hm.orderly, hm.held⟩
  have hupholds := (MachineM.execute_upholds hw.fetched hfetched (hw.code_checked hfetch) (hreturn i hfetch)).ok () m' hrun
  exact ⟨hupholds.anchored, hupholds.retains⟩

theorem Reaches.wellFormed (hstart : start.WellFormed) (h : Reaches limits start m) : m.WellFormed := by
  induction h with
  | refl => exact hstart
  | next _ hadvance ih => exact ih.running hadvance

theorem ReachesWithin.reaches (h : ReachesWithin limits start m) : Reaches limits start m := by
  induction h with
  | refl => exact .refl
  | next _ _ hadvance ih => exact ih.next hadvance

/-- A run without such returns stays anchored. -/
theorem ReachesWithin.anchored (hstart : start.WellFormed) (hanchored : start.Anchored)
    (h : ReachesWithin limits start m) : m.Anchored := by
  induction h with
  | refl => exact hanchored
  | next h hreturn hadvance ih =>
    obtain ⟨i, hfetch, -⟩ := advance_running hadvance
    exact (ih.running (h.reaches.wellFormed hstart) hreturn hfetch hadvance).anchored

end Machine

namespace Image

/-- A machine that runs a loaded image has an environment of frames throughout. As long as no return brings back operands
that were given up, it holds no dangling address: whatever can be reached from its registers is allocated, and whatever can
be reached from the registers that an instruction leaves alone has the content after it that it had before, so that no
collection has taken it in between. -/
theorem run_anchored {octets : List UInt8} {program : Program} (hdecode : decode octets = .ok program)
    {digest : Text → UInt64} {words : Int} {start : Machine} (hstart : Machine.create digest program words = .ok start)
    (limits : Limits) :
    (∀ m, Machine.Reaches limits start m → m.HasFrames) ∧
      ∀ m, Machine.ReachesWithin limits start m →
        (∀ a, Reaches m.heap.nodes (m.heap.rootLinks m.roots) a → m.heap.isAllocated a = true) ∧
          ∀ i m', m.fetch? = some i → m.ReturnsWithin → Machine.advance limits m = .running m' →
            m.heap.Retains (m.staying i) m'.heap := by
  have hw := Machine.create_wellFormed hstart (decode_checked hdecode)
  refine ⟨fun m hm => (hm.wellFormed hw).hasFrames, fun m hm => ?_⟩
  have hanchored := hm.anchored hw (Machine.create_anchored hstart)
  refine ⟨fun a ha => hanchored.orderly.tidy.reaches_allocated hanchored.held ha, fun i m' hfetch hreturn h => ?_⟩
  exact (hanchored.running (hm.reaches.wellFormed hw) hreturn hfetch h).retains

/-- A number, and a call of a function that leaves it alone. -/
def properReturn : Program :=
  [.loadConstant (.ofInt 7), { op := .of .loadFunction, arity := 0, addr := 5 }, .call 0, .plain .pop, .plain .done,
   .loadConstant (.ofInt 1), .plain .reset]

theorem run_anchored_properReturn :
    decode (encode properReturn) = .ok properReturn ∧
      ∃ start, Machine.create Heap.defaultDigest properReturn 190 = .ok start ∧
        (∀ m, Machine.Reaches {} start m → m.HasFrames) ∧
        ∀ m, Machine.ReachesWithin {} start m →
          (∀ a, Reaches m.heap.nodes (m.heap.rootLinks m.roots) a → m.heap.isAllocated a = true) ∧
            ∀ i m', m.fetch? = some i → m.ReturnsWithin → Machine.advance {} m = .running m' →
              m.heap.Retains (m.staying i) m'.heap := by
  have hdecode : decode (encode properReturn) = .ok properReturn :=
    (decode_encode_eq (by decide) (by decide)).trans (by decide)
  obtain ⟨start, hstart⟩ := Machine.create_ok Heap.defaultDigest properReturn 190 (by decide) (by decide)
  exact ⟨hdecode, start, hstart, run_anchored hdecode hstart {}⟩

/-- A number, and a call of a function that gives the number up and causes a collection before it returns. -/
def staleReturn : Program :=
  [.loadConstant (.ofInt 7), { op := .of .loadFunction, arity := 0, addr := 5 }, .call 0, .plain .pop, .plain .done,
   .plain .pop, { op := .of .enterScope, num := 0 }, .plain .exitScope, .plain .reset]

/-- Some operand of a machine is the address of a free node. -/
def dangles (m : Machine) : Bool := m.operands.toList.any fun a => !m.heap.isAllocated a

/-- The return brings the number back, but its node is on the free list by then. -/
theorem staleReturn_dangles :
    decode (encode staleReturn) = .ok staleReturn ∧
      ∃ start m a, Machine.create Heap.defaultDigest staleReturn 190 = .ok start ∧ Machine.Reaches {} start m ∧
        a ∈ m.operands.toList ∧ m.heap.isAllocated a = false := by
  have hdecode : decode (encode staleReturn) = .ok staleReturn :=
    (decode_encode_eq (by decide) (by decide)).trans (by decide)
  have hdangles : Machine.comesTo staleReturn 190 7 dangles = true := by decide +kernel
  obtain ⟨start, m, hstart, hreach, hdangles⟩ := Machine.of_comesTo hdangles
  obtain ⟨a, ha, hfree⟩ := List.any_eq_true.mp hdangles
  exact ⟨hdecode, start, m, a, hstart, hreach, ha, by simpa using hfree⟩

end Image

end Tenure
