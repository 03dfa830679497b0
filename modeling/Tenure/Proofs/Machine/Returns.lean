import Tenure.Proofs.Mirror.Course

/-!
# Returns

A return from inside open blocks is one instruction that is executed again and again. Each time it closes the innermost
block and stays where it is, and once no block of the call is left, it ends the call. So it is executed once more than
there are blocks, and the machine comes to where the call said: `Machine.InCall.unwinds`.
-/

set_option autoImplicit false

namespace Tenure

open MachineM

/-- The topmost operand is the first of the list, topmost first. -/
theorem Operands.Hold.top?_eq {s : Operands} {l : List Address} (h : s.Hold l) : s.top? = l.head? := by
  cases l with
  | nil =>
    have hheight : 0 = s.height := h.length
    rw [Operands.top?, ← hheight]
    rfl
  | cons a l => exact h.top?

namespace Machine

/-- What a call leaves for its return: the environment and the counter to go back to, and the number of operands below
its callee. -/
structure CallRecord where
  env : Address
  back : Int
  height : Nat

/-- The machine is inside a call that left a record: of its frames, innermost first, the first ones are open blocks, the
next one is the call, and `outer` are those around the call. -/
structure InCall (m : Machine) (blocks : List Address) (call : Address) (r : CallRecord) (outer : List Address) : Prop
    where
  frames : m.frames = blocks ++ call :: outer
  isBlock : ∀ b ∈ blocks, ∃ n, m.heap.nodes[b]? = some n ∧ n.content = .blockframe
  isCall : ∃ n, m.heap.nodes[call]? = some n ∧ n.content = .callframe r.back r.height ∧ n.firstChild = some r.env

/-- The run executes one instruction a number of times in a row, always at the same place. -/
inductive Repeats (limits : Limits) (pc : Int) (i : Instr) : Nat → Machine → Machine → Prop where
  | refl (m : Machine) : Repeats limits pc i 0 m m
  | step {n : Nat} {m m' m'' : Machine} (hpc : m.pc = pc) (hfetch : m.fetch? = some i)
    (hadvance : advance limits m = .running m') (hrest : Repeats limits pc i n m' m'') : Repeats limits pc i (n + 1) m m''

variable {limits : Limits} {pc : Int} {i : Instr} {n : Nat} {m m' : Machine} {r : CallRecord}
  {a call : Address} {node : Node} {blocks outer rest above below : List Address}

/-- A run that executes an instruction that many times goes on from where this leads. -/
theorem Repeats.run (h : Repeats limits pc i n m m') (fuel : Nat) : run limits (n + fuel) m = run limits fuel m' := by
  induction h with
  | refl m => rw [Nat.zero_add]
  | @step n m _ _ _ _ hadvance _ ih =>
    rw [Nat.add_right_comm, Machine.run, hadvance]
    exact ih

/-! ## One return -/

/-- What the return does with the machine that has fetched it, the run does with the machine. -/
theorem advance_reset (hfetch : m.fetch? = some i) (hreset : i.op.operation? = some .reset)
    (hlimit : limit? limits m.steps m.pc = none) (hrun : reset m.fetched = (.ok (), m')) :
    advance limits m = .running m' := by
  have hexecute : execute i m.fetched = (.ok (), m') := by
    rw [execute, hreset]
    exact hrun
  rw [advance_free hfetch hlimit, if_neg (by rw [hreset]; nofun), executed, hexecute]

/-- A return with a block on top closes the block. -/
theorem reset_block (hframes : m.frames = a :: rest) (hnode : m.heap.nodes[a]? = some node)
    (hblock : node.content = .blockframe) :
    reset m.fetched = (.ok (), { m with frames := rest, steps := m.steps + 1 }) := by
  have hat : nodeAt a { m with pc := m.pc + 1, frames := rest, steps := m.steps + 1 } = (.ok node, _) :=
    nodeAt_apply hnode
  have hstay : m.pc + 1 - 1 = m.pc := by omega
  simp only [reset, fetched, get_bind_apply, hframes, modify_bind_apply]
  rw [bind_ok hat]
  simp only [hblock, modify_apply, hstay]

/-- A return with a call on top ends the call. Of the operands it keeps those below the callee and the topmost. -/
theorem reset_call (hframes : m.frames = a :: rest) (hnode : m.heap.nodes[a]? = some node)
    (hcall : node.content = .callframe r.back r.height) (henv : node.firstChild = some r.env)
    (hreaches : m.operands.reaches r.height = true) :
    reset m.fetched = (.ok (), { m with
      frames := rest
      env := r.env
      pc := r.back
      operands := (m.operands.atHeight r.height).push (m.operands.top?.getD Heap.undefined)
      steps := m.steps + 1 }) := by
  have hat : nodeAt a { m with pc := m.pc + 1, frames := rest, steps := m.steps + 1 } = (.ok node, _) :=
    nodeAt_apply hnode
  simp only [reset, fetched, get_bind_apply, hframes, modify_bind_apply]
  rw [bind_ok hat]
  simp only [hcall, get_bind_apply, hreaches, if_true, henv, need, pure_bind, modify_apply, Int.toNat_natCast]

/-! ## Returns from inside blocks -/

/-- A return unwinds exactly one call. As long as no limit ends the run, the machine executes it once for each block that
is open inside the call and once more. Then the blocks and the call are closed, the environment and the counter are those
that the call has saved, the operands are the caller's with the former topmost operand on them, or with the undefined
value if there was none, and the heap and the program are as they were. The run goes on from there. -/
theorem InCall.unwinds (h : m.InCall blocks call r outer) (hfetch : m.fetch? = some i)
    (hreset : i.op.operation? = some .reset) (hoperands : m.operands.Hold (above ++ below))
    (hheight : below.length = r.height)
    (hlimits : ∀ n ≤ blocks.length, limit? limits (m.steps + n) m.pc = none) :
    ∃ m', Repeats limits m.pc i (blocks.length + 1) m m' ∧
      m'.frames = outer ∧ m'.env = r.env ∧ m'.pc = r.back ∧
      m'.operands.Hold ((above ++ below).head?.getD Heap.undefined :: below) ∧
      m'.heap = m.heap ∧ m'.code = m.code ∧ m'.steps = m.steps + (blocks.length + 1) ∧
      ∀ fuel, run limits (blocks.length + 1 + fuel) m = run limits fuel m' := by
  have hlimit : limit? limits m.steps m.pc = none := hlimits 0 (Nat.zero_le _)
  induction blocks generalizing m with
  | nil =>
    obtain ⟨node, hnode, hcall, henv⟩ := h.isCall
    have hlength : m.operands.height = above.length + below.length := by
      rw [← hoperands.length, List.length_append]
    have hreaches : m.operands.reaches r.height = true := by
      have hwritten := hoperands.height
      simp only [Operands.reaches, Bool.and_eq_true, decide_eq_true_eq]
      omega
    have hbelow : (m.operands.atHeight r.height).Hold below := by
      have hat := hoperands.atHeight (k := r.height) (by simp [hheight])
      simpa [← hheight] using hat
    have hadvance := advance_reset hfetch hreset hlimit (reset_call h.frames hnode hcall henv hreaches)
    have hrepeats := Repeats.step rfl hfetch hadvance (.refl _)
    exact ⟨_, hrepeats, rfl, rfl, rfl, hoperands.top?_eq ▸ hbelow.push _, rfl, rfl, rfl, hrepeats.run⟩
  | cons b blocks ih =>
    obtain ⟨node, hnode, hblock⟩ := h.isBlock b (List.mem_cons_self ..)
    have hadvance := advance_reset hfetch hreset hlimit (reset_block h.frames hnode hblock)
    have hclosed : InCall { m with frames := blocks ++ call :: outer, steps := m.steps + 1 } blocks call r outer :=
      ⟨rfl, fun c hc => h.isBlock c (List.mem_cons_of_mem _ hc), h.isCall⟩
    have hlater : ∀ n ≤ blocks.length, limit? limits (m.steps + 1 + n) m.pc = none := by
      intro n hn
      rw [Nat.add_assoc, Nat.add_comm 1 n]
      exact hlimits (n + 1) (Nat.succ_le_succ hn)
    obtain ⟨m', hrest, hframes, henv, hpc, hheld, hheap, hcode, hsteps, -⟩ :=
      ih hclosed hfetch hoperands hlater (hlater 0 (Nat.zero_le _))
    have hrepeats := Repeats.step rfl hfetch hadvance hrest
    refine ⟨m', hrepeats, hframes, henv, hpc, hheld, hheap, hcode, ?_, hrepeats.run⟩
    rw [hsteps, List.length_cons, Nat.add_assoc, Nat.add_comm 1]

/-- A program that returns 2 from inside a block of a function, in the middle of an addition. The caller adds it to 100. -/
def nestedReturn : Program :=
  [.enterScope 1, .loadFunction 0 3, .jump 10, .loadConstant (.ofInt 1), .enterScope 0, .loadConstant (.ofInt 2),
   .plain .reset, .plain .exitScope, .binary "+", .plain .reset, .assign ⟨1, 0⟩, .plain .pop,
   .loadConstant (.ofInt 100), .load ⟨1, 0⟩, .call 0, .binary "+", .plain .exitScope, .plain .done]

/-- Whether a machine stands before the return of that program: a block is open inside the call, and the operands are 100
of the caller, and 1 and 2 of the function. -/
def standsAtReturn (m : Machine) : Bool :=
  m.fetch? = some (.plain .reset) && m.frames = [21, 18, 12] && m.operands.cells = #[16, 20, 24] &&
    m.operands.height = 3 && (m.heap.nodes[21]?.map Node.content) = some .blockframe &&
    (m.heap.nodes[18]?.map fun n => (n.content, n.firstChild)) = some (.callframe 15 1, some 14)

/-- The return is executed twice, and 2 is left on the 100 of the caller. -/
theorem InCall.unwinds_nestedReturn :
    ∃ start m, create Heap.defaultDigest nestedReturn 300 = .ok start ∧ Reaches {} start m ∧
      m.InCall [21] 18 ⟨14, 15, 1⟩ [12] ∧ m.fetch? = some (.plain .reset) ∧ m.operands.Hold ([24, 20] ++ [16]) ∧
      (∀ n ≤ 1, limit? {} (m.steps + n) m.pc = none) ∧
      ∃ m', Repeats {} m.pc (.plain .reset) 2 m m' ∧ m'.frames = [12] ∧ m'.env = 14 ∧ m'.pc = 15 ∧
        m'.operands.Hold [24, 16] ∧ m'.heap = m.heap ∧ m'.code = m.code ∧ m'.steps = m.steps + 2 ∧
        ∀ fuel, run {} (2 + fuel) m = run {} fuel m' := by
  have hcomes : comesTo nestedReturn 300 11 standsAtReturn = true := by decide +kernel
  obtain ⟨start, m, hstart, hreach, hstands⟩ := of_comesTo hcomes
  simp only [standsAtReturn, Bool.and_eq_true, decide_eq_true_eq, Option.map_eq_some_iff, Prod.mk.injEq] at hstands
  obtain ⟨⟨⟨⟨⟨hfetch, hframes⟩, hcells⟩, hheight⟩, hblock⟩, node, hnode, hcall, henv⟩ := hstands
  have hin : m.InCall [21] 18 ⟨14, 15, 1⟩ [12] := by
    refine ⟨hframes, fun b hb => ?_, node, hnode, hcall, henv⟩
    obtain rfl := List.mem_singleton.mp hb
    exact hblock
  have hoperands : m.operands.Hold ([24, 20] ++ [16]) :=
    ⟨by simp [Operands.toList, hcells, hheight], by simp [hcells, hheight]⟩
  have hlimits : ∀ n ≤ 1, limit? {} (m.steps + n) m.pc = none := fun _ _ => rfl
  exact ⟨start, m, hstart, hreach, hin, hfetch, hoperands, hlimits,
    hin.unwinds hfetch rfl hoperands rfl hlimits⟩

end Machine

end Tenure
