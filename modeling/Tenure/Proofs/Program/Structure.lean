import Tenure.Proofs.Mirror.Course

/-!
# The structure of a run

The code of a program never makes the machine reach for something that is not there, as long as every node of the heap has
an address. Wherever a run comes to, there is an instruction; where that carries a position, the environment has exactly the
frames and slots that were known when the instruction was emitted; and at the end only the result is left.
-/

set_option autoImplicit false

namespace Tenure

open Endless Machine

/-- The number of slots of every frame of the environment at hand. -/
def Machine.shape? (m : Machine) : Option (List Nat) := do
  (← m.heap.node? m.env).traced.mapM fun f => do some (← m.heap.node? (← f)).slots.toNat

/-- A run ends because the machine reached for something that is not there. -/
def Outcome.IsStructural : Outcome → Prop
  | .crashed => True
  | .failed (.counterOutOfRange _) => True
  | .failed (.step _ _ e) => e.isStructural = true
  | _ => False

/-- The frames of the machine have as many slots as those of the endless machine. -/
theorem Matches.shape? {φ : Address → Address} {s : Endless} {m : Machine} (hm : Matches φ s m) {shape : List Nat}
    (h : s.shape? = some shape) : m.shape? = some shape := by
  obtain ⟨o, ho, hshape⟩ := Option.bind_eq_some_iff.mp h
  have henv : Reach s.objs s.roots s.env := .root (by simp [Endless.roots])
  obtain ⟨n, hn, hmirrors⟩ := hm.mirrors.get henv ho
  have hframes : ∀ links : List Address, links ⊆ o.links →
      (links.map fun f => some (φ f)).mapM (fun f => do some (← m.heap.node? (← f)).slots.toNat) =
        links.mapM fun f => (s.objs[f]?).map fun o => o.links.length := by
    intro links hsub
    induction links with
    | nil => rfl
    | cons f rest ih =>
      have hf : f ∈ o.links := hsub (List.mem_cons_self ..)
      obtain ⟨frame, node, hobj, hnode, hframe⟩ := hm.mirrors.node f (henv.link ho hf)
      rw [List.map_cons, List.mapM_cons, List.mapM_cons, ih fun b hb => hsub (List.mem_cons_of_mem _ hb)]
      simp [hobj, Heap.node?, hnode, hframe.slots]
  rw [Machine.shape?, hm.registers.env, Heap.node?, hn, Option.bind_eq_bind, Option.bind_some, hmirrors.traced,
    hframes _ (List.Subset.refl _), hshape]

section Progress

variable {t : Tree} {code : Emissions} {n : Nat} {s : Endless}

/-- There is an instruction at every place that a run comes to, and the environment fits it. -/
theorem Tree.emissions_fits (h : t.emissions = .ok code) (hsize : code.length < 2 ^ 63)
    (hs : Steps code n Endless.initial s) : ∃ e, code[s.pc]? = some e ∧ s.Fits e := by
  rcases Tree.emissions_progress h hsize hs with ⟨s', hstep⟩ | ⟨a, ⟨env, he⟩, -⟩ | ⟨err, e, k, he, hfits, -⟩
  · cases hstep with
    | step he hfits => exact ⟨_, he, hfits⟩
  · exact ⟨_, he, fun hpos => by cases hpos⟩
  · exact ⟨e, he, hfits⟩

/-- A run that comes to the last instruction has nothing left but a result. -/
theorem Tree.emissions_ends (h : t.emissions = .ok code) (hsize : code.length < 2 ^ 63)
    (hs : Steps code n Endless.initial s) {e : Emission} (he : code[s.pc]? = some e)
    (hdone : e.instr.op.operation? = some .done) : ∃ a, DoneWith code s a := by
  have hstep : s.step e.instr = none := by
    rw [Endless.step, hdone]
    rfl
  rcases Tree.emissions_progress h hsize hs with ⟨s', hstep'⟩ | hend | ⟨err, e', k, he', -, hstep'⟩
  · cases hstep' with
    | step he' _ hstep' =>
      cases he.symm.trans he'
      cases hstep.symm.trans hstep'
  · exact hend
  · cases he.symm.trans he'
    cases hstep.symm.trans hstep'

/-- No course of a run ends because the machine reached for something that is not there. -/
theorem Course.not_structural {limits : Limits} {nodes steps : Nat} {o : Outcome} (ht : Texts s.objs)
    (h : Course limits code nodes steps s (.ends o)) : ¬ o.IsStructural := by
  cases h with
  | limited he hlimit => rcases of_limit? hlimit with rfl | rfl <;> exact id
  | fails he hlimit heff hk =>
    have hbenign := (step_tidy ht heff).2 _ rfl
    simp [Outcome.IsStructural, hbenign]
  | exhausted => simp [Outcome.IsStructural, StepError.isStructural]
  | done => exact id

/-- A run in step with the endless machine does not end for want of something that is not there. -/
theorem Tracks.run_not_structural (h : t.emissions = .ok code) (hsize : code.length < 2 ^ 63) {start m : Machine}
    (hfew : start.heap.nodes.size ≤ Heap.addressable) {φ : Address → Address} (limits : Limits) (fuel : Nat)
    (hm : Tracks code start φ s m) : ¬ (run limits fuel m).1.IsStructural := by
  induction fuel generalizing s m φ with
  | zero => exact id
  | succ fuel ih =>
    obtain ⟨v, hv⟩ := Tree.emissions_course h hsize hm.steps limits start.heap.nodes.size
    have hcourse := (hm.advance hv).resolve_left (hm.not_strays hfew)
    cases v with
    | goes s' =>
      obtain ⟨φ', m', hadvance, -, hm'⟩ := hcourse
      simp only [run, hadvance]
      exact ih hm'
    | ends o =>
      obtain ⟨m', hadvance, -⟩ := hcourse
      simp only [run, hadvance]
      exact hv.not_structural hm.texts

end Progress

/-- Compiled code keeps the structure of the machine, in a heap of any size in which it can be set up. No run ends because
the machine reached for something that is not there, provided that every node has an address. Every instruction that a run
comes to and that carries a position finds the frames and slots of the environment in which it was emitted, and the last
instruction finds one operand, no open block or call, and the environment of the builtins. -/
theorem Tree.run_structure {t : Tree} {program : Program} (h : t.compile = .ok program)
    (hsize : program.length < 2 ^ 63) {digest : Text → UInt64} {words : Int} {start : Machine}
    (hstart : create digest program words = .ok start) :
    ∃ code, t.emissions = .ok code ∧ code.program = program ∧ ∀ limits,
      (Heap.nodesFor words ≤ Heap.addressable → ∀ fuel, ¬ (run limits fuel start).1.IsStructural) ∧
      ∀ m, Reaches limits start m → ∃ (pc : Nat) (e : Emission), m.pc = pc ∧ code[pc]? = some e ∧
        (e.instr.op.has Operation.usesPosition = true → m.shape? = some e.env.shape) ∧
        (e.instr.op.operation? = some .done →
          (∃ a, m.operands.toList = [a]) ∧ m.frames = [] ∧ m.env = start.env) := by
  obtain ⟨code, hcode, rfl⟩ := Tree.compile_eq_ok h
  replace hsize : code.length < 2 ^ 63 := by simpa [Emissions.program] using hsize
  refine ⟨code, hcode, rfl, fun limits => ⟨fun hfew fuel => ?_, fun m hm => ?_⟩⟩
  · obtain ⟨φ, htracks⟩ := Tracks.create hstart
    obtain ⟨-, -, -, hnodes, -⟩ := create_matches hstart
    exact htracks.run_not_structural hcode hsize (hnodes ▸ hfew) limits fuel
  · obtain ⟨φ, s, htracks⟩ := hm.tracks hcode hsize hstart
    obtain ⟨e, he, hfits⟩ := Tree.emissions_fits hcode hsize htracks.steps
    refine ⟨s.pc, e, htracks.pc, he, fun hpos => htracks.state.shape? (hfits hpos), fun hdone => ?_⟩
    obtain ⟨a, -, hops, hframes, henv⟩ := Tree.emissions_ends hcode hsize htracks.steps he hdone
    have hregisters := htracks.state.registers
    refine ⟨⟨φ a, by simpa [hops] using hregisters.operands.list⟩, by simpa [hframes] using hregisters.frames, ?_⟩
    rw [hregisters.env, henv]
    exact htracks.outermost.2

/-- A run of the choosing program in a heap of a hundred nodes keeps the structure of the machine. -/
theorem Tree.run_structure_chooser : ∃ program start, chooser.compile = .ok program ∧
    create Heap.defaultDigest program 1000 = .ok start ∧ ∀ limits fuel, ¬ (run limits fuel start).1.IsStructural := by
  obtain ⟨program, start, hprogram, hlength, hstart, -⟩ := chooser_shows
  obtain ⟨_, -, -, h⟩ := Tree.run_structure hprogram (by omega) hstart
  exact ⟨program, start, hprogram, hstart, fun limits => (h limits).1 (by decide)⟩

end Tenure
