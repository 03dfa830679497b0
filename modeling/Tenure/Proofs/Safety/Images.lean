import Tenure.Proofs.Code.RoundTrip
import Tenure.Proofs.Machine.Arena
import Tenure.Proofs.Mirror.Create
import Tenure.Proofs.Safety.Instructions

/-!
# Loaded images cannot crash the machine

The heap and the prelude that a machine starts with are well-formed, `Machine.create_wellFormed`, every instruction that
passed the check of images keeps it so, and a value of a well-formed heap always has a host form. So no run of a loaded
image reaches for something that is not there, however its instructions are ordered, as long as every node of the heap has
an address: `Image.run_never_crashes`.
-/

set_option autoImplicit false

namespace Tenure

open Heap Node

/-! ## The start -/

/-- A new heap is well-formed. -/
theorem Heap.new_wellFormed (digest : Text → UInt64) {n : Nat} (hn : n > bottom) (hmax : n ≤ maxNodes) :
    (new digest n).WellFormed 0 := by
  refine ⟨new_sound digest hn hmax, ?_, fun a node ha => ?_, fun a ha => ?_⟩
  · simpa [new] using hn.le
  · have hlt : a < n := by simpa [new] using (Array.getElem?_eq_some_iff.mp ha).1
    rw [getElem?_new hlt, Option.some.injEq] at ha
    subst ha
    unfold initialNode
    split
    next hlow =>
      have hfive : a < 5 := hlow
      interval_cases a <;>
        exact ⟨by simp [Node.fresh], by simp [Node.fresh, Node.traced], trivial⟩
    · exact ⟨by simp [Node.vacant], by simp [Node.vacant, Node.traced], trivial⟩
  · simp [new] at ha

namespace HeapM

variable {limit : Nat} {roots : Roots} {h : Heap}

/-- A heap while the builtins are put into a frame: all is well, and an environment and the frame are still there. -/
structure Filling (limit : Nat) (frame env : Address) (h h' : Heap) : Prop where
  wellFormed : h'.WellFormed limit
  size : h'.nodes.size = h.nodes.size
  pins : h'.pins = h.pins
  environment : IsEnvironment h'.nodes env
  frame : HasSlots h'.nodes frame Builtin.all.length

/-- One builtin is put into the frame. -/
theorem fill_safe {frame env : Address} (hw : h.WellFormed limit) (hr : h.Inside roots.get)
    (hframe : some frame ∈ h.pins.toList) (henv : some env ∈ roots.get) (he : IsEnvironment h.nodes env)
    (hf : HasSlots h.nodes frame Builtin.all.length) {i : Nat} (hi : i < Builtin.all.length) :
    (do let b ← builtin i; setChild frame i (some b)).Safe roots h fun _ h' => Filling limit frame env h h' := by
  have hsuits : (Node.fresh (.builtin i) 0).Suits limit h.nodes := by
    simp [Suits, Node.fresh, Builtin.ofSlot?, hi]
  refine .bind ((hw.leaf hr hsuits fun _ => Content.noConfusion).imp fun b h₁ hmade => ?_)
  have hf₁ := hmade.later.hasSlots (.root (by simp [rootLinks, hframe])) hf
  have he₁ := hmade.later.isEnvironment (.root (by simp [rootLinks, henv])) he
  obtain ⟨n, hn, hc, hslots⟩ := hf₁
  obtain ⟨h₂, hrun, hs, hpins⟩ := hmade.wellFormed.setChild roots hn hc (Int.natCast_nonneg i)
    (by rw [hslots]; exact_mod_cast hi) hmade.inside
  exact .of_ok hrun ⟨hs.wellFormed, hs.size.trans hmade.later.size, hpins.trans hmade.later.pins,
    hs.environment env he₁, hs.frame frame _ ⟨n, hn, hc, hslots⟩⟩

/-- The builtins of a list of slots are put into the frame, one after the other. -/
theorem fillAll_safe {frame env : Address} (slots : List Nat) (hslots : ∀ i ∈ slots, i < Builtin.all.length)
    (hw : h.WellFormed limit) (hr : h.Inside roots.get) (hframe : some frame ∈ h.pins.toList)
    (henv : some env ∈ roots.get) (he : IsEnvironment h.nodes env) (hf : HasSlots h.nodes frame Builtin.all.length) :
    (slots.forM fun i => do let b ← builtin i; setChild frame i (some b)).Safe roots h
      fun _ h' => Filling limit frame env h h' := by
  induction slots generalizing h with
  | nil => exact .of_ok rfl ⟨hw, rfl, rfl, he, hf⟩
  | cons i rest ih =>
    rw [List.forM]
    refine .bind ((fill_safe hw hr hframe henv he hf (hslots i (by simp))).imp fun _ h₁ h₁fill => ?_)
    refine (ih (fun j hj => hslots j (by simp [hj])) h₁fill.wellFormed (fun a ha => h₁fill.size ▸ hr a ha)
      (h₁fill.pins ▸ hframe) h₁fill.environment h₁fill.frame).imp fun _ h₂ h₂fill => ?_
    exact ⟨h₂fill.wellFormed, h₂fill.size.trans h₁fill.size, h₂fill.pins.trans h₁fill.pins, h₂fill.environment,
      h₂fill.frame⟩

end HeapM

namespace MachineM

/-- The prelude makes a machine well-formed that has nothing but a well-formed heap and checked code. -/
theorem loadPrelude_safe {code : Array Instr} {heap : Heap} (hw : heap.WellFormed 0) (hcode : ∀ i ∈ code, i.Checked) :
    loadPrelude.Safe { code := code, heap := heap } fun _ m => m.WellFormed := by
  have hroots : heap.Inside (rootsOf { code := code, heap := heap }).get := by
    intro a ha
    have ha0 : a = 0 := by simpa [rootsOf, Machine.roots, Operands.toList, Thunk.get] using ha
    exact ha0 ▸ Nat.lt_of_lt_of_le (by decide) hw.bottom
  have hsuits : (Node.fresh .environment 0).Suits 0 heap.nodes := by simp [Suits, Node.fresh, Node.traced]
  refine .bind (.onHeap ((hw.leaf hroots hsuits fun _ => Content.noConfusion).imp fun empty h₁ hempty => ?_))
  refine .after (modify_apply _) ?_
  have hm₁ : ({ code := code, heap := h₁, env := empty } : Machine).WellFormed :=
    ⟨hempty.wellFormed, ⟨by simp, by simp⟩, ⟨_, hempty.made, rfl⟩, by simp, hcode⟩
  refine .bind (.onHeap ((hm₁.heap.frame hm₁.roots (by decide) (by decide)).imp fun frame h₂ hframe => ?_))
  have hm₂ := (hm₁.makes hframe).wellFormed
  have hpinned : h₂.Inside [some frame] := by
    intro a ha
    obtain rfl : a = frame := by simpa using ha
    exact hframe.inside
  have hw₂ : ({ h₂ with pins := h₂.pins ++ [some frame].toArray } : Heap).WellFormed 0 :=
    hm₂.heap.with_pins fun a ha => by
      simp only [Array.toList_append, List.mem_append] at ha
      exact ha.elim (hm₂.heap.pins a) (hpinned a)
  have henv : some empty ∈ (rootsOf { code := code, heap := h₂, env := empty }).get := by
    simp [rootsOf, Machine.roots, Thunk.get]
  have hfill := HeapM.fillAll_safe (List.range Builtin.all.length) (fun i hi => List.mem_range.mp hi) hw₂ hm₂.roots
    (by simp) henv hm₂.env hframe.made
  refine .bind (.onHeap (.pinning (.bind (hfill.imp fun _ h₃ hfilled => ?_))))
  have hr₃ : h₃.Inside (rootsOf { code := code, heap := h₂, env := empty }).get := fun a ha =>
    hfilled.size ▸ hm₂.roots a ha
  refine (hfilled.wellFormed.extend hr₃ hfilled.frame hfilled.environment).imp fun inner h₄ hinner => ?_
  have hpins : h₄.pins.extract 0 h₂.pins.size = h₂.pins := by
    rw [hinner.later.pins, hfilled.pins]
    simp
  have hsize : h₄.nodes.size = h₂.nodes.size := hinner.later.size.trans hfilled.size
  have hw₄ : ({ h₄ with pins := h₄.pins.extract 0 h₂.pins.size } : Heap).WellFormed 0 :=
    hinner.wellFormed.with_pins fun a ha => hsize ▸ hm₂.heap.pins a (hpins ▸ ha)
  have hempty₄ : IsEnvironment h₄.nodes empty :=
    hinner.later.isEnvironment (.root (by simp [rootLinks, henv])) hfilled.environment
  exact .modify ((hm₂.with_heap hw₄ hsize hempty₄).setEnv hinner.made)

end MachineM

namespace Machine

/-- A machine that was set up for checked code is well-formed. -/
theorem create_wellFormed {digest : Text → UInt64} {program : Program} {words : Int} {m : Machine}
    (h : create digest program words = .ok m) (hcode : ∀ i ∈ program, i.Checked) : m.WellFormed := by
  rw [create, Heap.create_eq] at h
  by_cases hlow : Heap.nodesFor words ≤ Heap.bottom
  · simp [hlow] at h
  by_cases hhigh : Heap.maxNodes < Heap.nodesFor words
  · simp [hlow, hhigh] at h
  rw [if_neg hlow, if_neg hhigh] at h
  simp only at h
  have hcode' : ∀ i ∈ program.toArray, i.Checked := fun i hi => hcode i (by simpa using hi)
  have hnew := Heap.new_wellFormed digest (Nat.not_le.mp hlow) (Nat.not_lt.mp hhigh)
  have hsafe := MachineM.loadPrelude_safe hnew hcode'
  split at h
  next m' hrun =>
    obtain rfl := Except.ok.inj h
    exact hsafe.ok () m' hrun
  · cases h

end Machine

/-! ## Host values -/

/-- Every value of a well-formed heap has a host form. -/
theorem Host.ofLink?_isSome {limit : Nat} {h : Heap} (hw : h.WellFormed limit) (depth : Nat) (l : Link)
    (hl : ∀ a, l = some a → a < h.nodes.size) : (Host.ofLink? h depth l).isSome := by
  induction depth generalizing l with
  | zero => cases l <;> rfl
  | succ depth ih =>
    cases l with
    | none => rfl
    | some a =>
      obtain ⟨n, hn⟩ : ∃ n, h.nodes[a]? = some n := ⟨_, Array.getElem?_eq_getElem (hl a rfl)⟩
      have hsuits := (hw.nodes a n hn).suits
      have hnode : h.node? a = some n := hn
      rw [Host.ofLink?, hnode]
      simp only [Option.bind_eq_bind, Option.bind_some]
      cases hc : n.content
      case pair =>
        rw [Suits, hc] at hsuits
        exact hsuits.elim
      case reference pos mutable =>
        rw [Suits, hc] at hsuits
        obtain ⟨-, e, hfirst, env, f, slots, henv, -, -, hf, ⟨frame, hframe, hframec, rfl⟩, h0, hlt⟩ := hsuits
        obtain ⟨v, hv, hinside⟩ := hw.slot hframe hframec h0 hlt
        have henv' : h.node? e = some env := henv
        have hframe' : h.node? f = some frame := hframe
        obtain ⟨target, htarget⟩ := Option.isSome_iff_exists.mp (ih (some v) fun b hb => Option.some.inj hb ▸ hinside)
        simp only [hfirst, Option.bind_some, henv', hf, hframe', hv, htarget, Option.isSome_some]
      all_goals rfl

/-- The result of a well-formed machine has a host form. -/
theorem Machine.WellFormed.result_alive {m : Machine} (hm : m.WellFormed) : m.result ≠ .crashed := by
  unfold Machine.result
  cases htop : m.operands.top? with
  | none => exact Outcome.noConfusion
  | some a =>
    obtain ⟨v, hv⟩ := Option.isSome_iff_exists.mp
      (Host.ofLink?_isSome hm.heap (Host.maxDepth + 1) (some a) fun b hb => Option.some.inj hb ▸ hm.operands.top? htop)
    have hhost : m.heap.toHost? (some a) = some v := hv
    simp only [hhost]
    exact Outcome.noConfusion

/-! ## Runs -/

namespace Machine

variable {m m' : Machine} {limits : Limits}

/-- What one step leads to: a well-formed machine, or an end that is no crash unless the heap has more nodes than
addresses. -/
theorem WellFormed.advance (hm : m.WellFormed) (limits : Limits) :
    (∃ m', m'.WellFormed ∧ Machine.advance limits m = .running m') ∨
      ∃ outcome m', Machine.advance limits m = .ended outcome m' ∧
        (outcome = .crashed → addressable < m'.heap.nodes.size) := by
  unfold Machine.advance
  cases hfetch : m.fetch? with
  | none => exact .inr ⟨_, _, rfl, Outcome.noConfusion⟩
  | some i =>
    have hi : i.Checked := by
      unfold Machine.fetch? at hfetch
      split at hfetch
      · exact hm.code i (Array.mem_of_getElem? hfetch)
      · cases hfetch
    have hnext : ({ m with pc := m.pc + 1, steps := m.steps + 1 } : Machine).WellFormed :=
      ⟨hm.heap, hm.operands, hm.env, hm.frames, hm.code⟩
    generalize ({ m with pc := m.pc + 1, steps := m.steps + 1 } : Machine) = next at hnext
    simp only
    split
    · exact .inr ⟨_, _, rfl, Outcome.noConfusion⟩
    split
    · exact .inr ⟨_, _, rfl, Outcome.noConfusion⟩
    split
    · exact .inr ⟨_, _, rfl, fun hcrash => absurd hcrash hnext.result_alive⟩
    · have hsafe := MachineM.execute_safe hnext hi
      unfold executed
      match hrun : MachineM.execute i next with
      | (.ok (), m') => exact .inl ⟨m', hsafe.ok () m' hrun, rfl⟩
      | (.error (.failed e), m') => exact .inr ⟨_, _, rfl, Outcome.noConfusion⟩
      | (.error .crashed, m') => exact .inr ⟨_, _, rfl, fun _ => hsafe.alive m' hrun⟩

/-- A run of a well-formed machine crashes only if the heap has more nodes than addresses. -/
theorem WellFormed.run_alive (hm : m.WellFormed) (limits : Limits) (fuel : Nat)
    (hcrash : (Machine.run limits fuel m).1 = .crashed) : addressable < (Machine.run limits fuel m).2.heap.nodes.size := by
  induction fuel generalizing m with
  | zero => cases hcrash
  | succ fuel ih =>
    rw [Machine.run] at hcrash ⊢
    rcases hm.advance limits with ⟨m', hm', hadvance⟩ | ⟨outcome, m', hadvance, hmany⟩
    · rw [hadvance] at hcrash ⊢
      exact ih hm' hcrash
    · rw [hadvance] at hcrash ⊢
      exact hmany hcrash

end Machine

namespace Image

/-- The check of a program checks every instruction. -/
theorem check_ok {size index : Nat} {program : Program} (h : check size index program = .ok ()) :
    ∀ i ∈ program, i.Checked := by
  induction program generalizing index with
  | nil => simp
  | cons i rest ih =>
    rw [check] at h
    split at h
    · cases h
    next hvalid =>
      intro j hj
      rcases List.mem_cons.mp hj with rfl | hj
      · exact ⟨size, hvalid⟩
      · exact ih h j hj

theorem decode_checked {octets : List UInt8} {program : Program} (h : decode octets = .ok program) :
    ∀ i ∈ program, i.Checked := by
  unfold decode at h
  split at h
  · cases h
  split at h
  · cases h
  split at h
  · cases h
  split at h
  · cases h
  next hcheck =>
    obtain rfl := Except.ok.inj h
    exact check_ok hcheck

/-- No run of an image that can be loaded crashes the machine, whatever its instructions and the limits of the run, in a
heap of any size that has an address for every node. A run that stops with a result has a host form for it. -/
theorem run_never_crashes {octets : List UInt8} {program : Program} (hdecode : decode octets = .ok program)
    {digest : Text → UInt64} {words : Int} (hfew : Heap.nodesFor words ≤ Heap.addressable) {start : Machine}
    (hstart : Machine.create digest program words = .ok start) (limits : Limits) (fuel : Nat) :
    (Machine.run limits fuel start).1 ≠ .crashed := by
  intro hcrash
  have hmany := (Machine.create_wellFormed hstart (decode_checked hdecode)).run_alive limits fuel hcrash
  obtain ⟨-, -, -, hsize, -⟩ := Machine.create_matches hstart
  rw [Machine.run_size, hsize] at hmany
  exact absurd hfew (Nat.not_le.mpr hmany)

/-- Code that no compiler emits: a reference outlives the scope of its slot, which was never assigned. -/
def keptReference : Program :=
  [{ op := .of .enterScope, num := 1 }, { op := .of .reference, pos := ⟨1, 0⟩ }, .plain .exitScope,
   .plain .dereference, .plain .done]

theorem run_never_crashes_keptReference :
    decode (encode keptReference) = .ok keptReference ∧
      ∃ start, Machine.create Heap.defaultDigest keptReference 1000 = .ok start ∧
        ∀ limits fuel, (Machine.run limits fuel start).1 ≠ .crashed := by
  have hdecode : decode (encode keptReference) = .ok keptReference :=
    (decode_encode_eq (by decide) (by decide)).trans (by decide)
  obtain ⟨start, hstart⟩ := Machine.create_ok Heap.defaultDigest keptReference 1000 (by decide) (by decide)
  exact ⟨hdecode, start, hstart, run_never_crashes hdecode (by decide) hstart⟩

end Image

end Tenure
