import Tenure.Proofs.Compile.Validity
import Tenure.Proofs.Machine.Integers
import Tenure.Proofs.Mirror.Course

/-!
# Integers in a run

The integers in the heap of a compiled program have 32 bits wherever its run comes to, and an instruction that does
arithmetic on them gives what `Integer.Operator.apply` and the functions beside it say, or ends for want of a node for
a new number: `Tree.run_integers`. `Machine.Asks` names the instructions and their operands, `Machine.Answers` what the
run does next.
-/

set_option autoImplicit false

namespace Tenure

open MachineM

namespace Machine

/-- There is an integer at an address. -/
def Holds (m : Machine) (a : Address) (n : Int) : Prop :=
  ∃ node, m.heap.nodes[a]? = some node ∧ node.content = .number (.int n)

/-- The instruction calls a builtin with the arguments that lie above it. -/
structure Calls (m : Machine) (i : Instr) (b : Builtin) (arguments : List Address) : Prop where
  operation : i.op.operation? = some .call
  arity : i.arity = arguments.length
  room : arguments.length < m.operands.height
  above : m.operands.above (m.operands.height - arguments.length) = arguments
  callee : ∃ f n id, m.operands.get? (m.operands.height - arguments.length - 1) = some f ∧
    m.heap.nodes[f]? = some n ∧ n.content = .builtin id ∧ Builtin.ofSlot? id = some b

/-- The instruction at hand does arithmetic on integers, which leaves the operands `below` under its result. An integer
that comes out is `fresh` if it needs a node of its own. -/
inductive Asks (m : Machine) (i : Instr) : (below : Operands) → (fresh : Bool) → Integer.Result → Prop where
  | binary {x y : Address} {a b : Int} (o : Integer.Operator) (hop : i.op.operation? = some .binary)
    (hsym : i.sym = o.symbol) (hy : m.operands.top? = some y) (hx : m.operands.dropTop.top? = some x)
    (ha : m.Holds x a) (hb : m.Holds y b) : Asks m i m.operands.dropTop.dropTop true (o.apply a b)
  | negate {x : Address} {a : Int} (hop : i.op.operation? = some .unary) (hsym : i.sym = "-")
    (hx : m.operands.top? = some x) (ha : m.Holds x a) : Asks m i m.operands.dropTop true (.integer (Integer.negate a))
  | complement {x : Address} {a : Int} (hop : i.op.operation? = some .unary) (hsym : i.sym = "!")
    (hx : m.operands.top? = some x) (ha : m.Holds x a) :
    Asks m i m.operands.dropTop true (.integer (Integer.complement a))
  | abs {x : Address} {a : Int} (hcall : m.Calls i .abs [x]) (ha : m.Holds x a) :
    Asks m i (m.operands.atHeight (m.operands.height - 2)) true (.integer (Integer.magnitude a))
  | min {x y : Address} {a b : Int} (hcall : m.Calls i .min [x, y]) (ha : m.Holds x a) (hb : m.Holds y b) :
    Asks m i (m.operands.atHeight (m.operands.height - 3)) false (.integer (Min.min a b))
  | max {x y : Address} {a b : Int} (hcall : m.Calls i .max [x, y]) (ha : m.Holds x a) (hb : m.Holds y b) :
    Asks m i (m.operands.atHeight (m.operands.height - 3)) false (.integer (Max.max a b))

/-- What the run does next when the instruction at hand has a result. -/
inductive Answers (m : Machine) (i : Instr) (below : Operands) (fresh : Bool) : Integer.Result → Progress → Prop where
  | truth (b : Bool) :
    Answers m i below fresh (.truth b) (.running { m.fetched with operands := below.push (Heap.ofBool b) })
  | integer {n : Int} {h : Heap} {r : Address} {node : Node} (hr : h.nodes[r]? = some node)
    (hcontent : node.content = .number (.int n)) (hold : fresh = false → h = m.heap) :
    Answers m i below fresh (.integer n) (.running { m.fetched with heap := h, operands := below.push r })
  | exhausted {n : Int} {m' : Machine} (hfresh : fresh = true) :
    Answers m i below fresh (.integer n) (.ended (.failed (.step m.pc i (.heap .exhausted))) m')
  /-- A heap with more nodes than addresses is exhausted when its free list leads out of the arena. -/
  | strays {n : Int} {m' : Machine} (hfresh : fresh = true) (hmany : Heap.addressable < m'.heap.nodes.size) :
    Answers m i below fresh (.integer n) (.ended .crashed m')
  | divisionByZero {m' : Machine} :
    Answers m i below fresh .divisionByZero (.ended (.failed (.step m.pc i .divisionByZero)) m')

/-! ## The invariant -/

variable {m m' start : Machine} {limits : Limits} {a : Address} {n : Int}

theorem Fits.holds (hm : m.Fits) (ha : m.Holds a n) : Integer.Fits n := by
  obtain ⟨node, hnode, hcontent⟩ := ha
  have hfits := hm.heap a node hnode
  rwa [hcontent] at hfits

/-- The integers of a machine have 32 bits wherever its run comes to. -/
theorem Fits.reaches (hstart : start.Fits) (h : Reaches limits start m) : m.Fits := by
  induction h with
  | refl => exact hstart
  | next _ hadvance ih => exact ih.advance hadvance

end Machine

section Instruction

variable {φ : Address → Address} {s : Endless} {m k : Machine} {i : Instr} {below : Operands} {fresh : Bool}
  {r : Integer.Result} {a : Address}

/-- A new number is put into a node that the heap offers, or the heap is exhausted, or the free list leads out of it. -/
theorem Matches.newNumber (hm : Matches φ s m) (n : Number) :
    (∃ h a node, newNumber n m = (.ok a, { m with heap := h }) ∧ h.nodes[a]? = some node ∧ node.content = .number n) ∨
      (∃ h, newNumber n m = (.error (.failed (.heap .exhausted)), { m with heap := h })) ∨ (newNumber n).Strays m := by
  rcases hm.mirrors.allocate (n := .fresh (.number n) 0) hm.rooted (wordsFor_le 0 (Nat.zero_le _)) with
    ⟨h, a, next, hrun, hoffer, -⟩ | ⟨h, hrun, hmany⟩ | ⟨⟨h, hrun⟩, -⟩
  · exact .inl ⟨_, a, _, onHeap_ok hrun, Heap.getElem?_place_self hoffer.vacant next _, rfl⟩
  · exact .inr (.inr ⟨_, onHeap_error hrun, hmany⟩)
  · exact .inr (.inl ⟨h, onHeap_error hrun⟩)

/-- Taking the topmost operand. -/
theorem Matches.take (hm : Matches φ s m) (htop : m.operands.top? = some a) :
    MachineM.pop m = (.ok a, { m with operands := m.operands.dropTop }) ∧
      ∃ s', Matches φ s' { m with operands := m.operands.dropTop } := by
  cases hops : s.operands with
  | nil =>
    have hhold : m.operands.Hold [] := by simpa [hops] using hm.registers.operands
    have hheight : m.operands.height = 0 := hhold.length.symm
    simp [Operands.top?, hheight] at htop
  | cons b rest =>
    have hhold : m.operands.Hold (φ b :: rest.map φ) := by simpa [hops] using hm.registers.operands
    obtain rfl : φ b = a := Option.some.inj (hhold.top?.symm.trans htop)
    obtain ⟨hrun, hrest, -⟩ := hm.pop hops
    exact ⟨hrun, _, hrest⟩

theorem Machine.Holds.sees {n : Int} (ha : m.Holds a n) : Sees m a (.number (.int n)) := by
  obtain ⟨node, hnode, hcontent⟩ := ha
  exact ⟨node, hnode, by rw [hcontent]; rfl⟩

/-- An instruction answers with the result that an operation computes. -/
theorem Computes.answers {x : MachineM Address} {f : Address → MachineM Unit} {operands : Operands}
    (hx : Computes x { m.fetched with operands := operands } r.outcome)
    (hk : Matches φ s { m.fetched with operands := operands })
    (hexecute : execute i m.fetched = (x >>= f) { m.fetched with operands := operands })
    (hf : ∀ (h : Heap) (a : Address), f a { m.fetched with heap := h, operands := operands } =
      (.ok (), { m.fetched with heap := h, operands := below.push a })) :
    m.Answers i below true r (Machine.executed i m.fetched) := by
  have hback : m.pc + 1 - 1 = m.pc := Int.add_sub_cancel ..
  cases r with
  | truth b =>
    have hrun : execute i m.fetched = (.ok (), { m.fetched with operands := below.push (Heap.ofBool b) }) :=
      hexecute.trans ((bind_ok hx).trans (hf m.heap _))
    rw [Machine.executed, hrun]
    exact .truth b
  | integer n =>
    rcases hk.newNumber (.int n) with ⟨h, a, node, hnew, hnode, hcontent⟩ | ⟨h, hnew⟩ | ⟨m', hnew, hmany⟩
    · have hrun := hexecute.trans ((bind_ok (hx.trans hnew)).trans (hf h a))
      rw [Machine.executed, hrun]
      exact .integer hnode hcontent Bool.noConfusion
    · rw [Machine.executed, hexecute, bind_error (hx.trans hnew)]
      simp only [Machine.fetched, hback]
      exact .exhausted rfl
    · rw [Machine.executed, hexecute, bind_error (hx.trans hnew)]
      exact .strays rfl hmany
  | divisionByZero =>
    rw [Machine.executed, hexecute, bind_error hx]
    simp only [Machine.fetched, hback]
    exact .divisionByZero

/-- A call of a builtin runs it on the arguments. -/
theorem Machine.Calls.execute_eq {b : Builtin} {arguments : List Address} (h : m.Calls i b arguments)
    (hb : b.arity = arguments.length) (hlen : arguments.length ≤ 2) :
    execute i m = (do
      let r ← b.apply arguments
      modify fun m' => { m' with operands := m'.operands.atHeight (m.operands.height - arguments.length - 1) }
      push r : MachineM Unit) m := by
  obtain ⟨f, n, id, hf, hn, hcontent, hid⟩ := h.callee
  have hroom := h.room
  have hrange : ¬ ((arguments.length : Int) < 0 ∨ (arguments.length : Int) = 0x7fffffffffffffff) := by omega
  have hunder : ¬ (m.operands.height : Int) < arguments.length + 1 := by omega
  have habove : m.operands.height - arguments.length - 1 + 1 = m.operands.height - arguments.length := by omega
  simp only [execute, h.operation, executeOperation, call, h.arity, get_bind_apply]
  rw [if_neg hrange, if_neg hunder]
  simp only [Int.toNat_natCast, hf, habove, h.above, need, pure_bind, bind_ok (nodeAt_apply hn), hcontent, callBuiltin, hid]
  rw [if_neg (not_not.mpr hb)]

/-- A builtin that picks one of two arguments answers with it. -/
theorem Machine.Calls.answers_pick {b : Builtin} {x y : Address} {first : Bool} {n : Int} (h : m.Calls i b [x, y])
    (hb : b.arity = 2) (hpicks : Picks (b.apply [x, y]) [x, y] m.fetched (.ok (.inl first)))
    (hn : m.Holds (if first then x else y) n) :
    m.Answers i (m.operands.atHeight (m.operands.height - 3)) false (.integer n) (Machine.executed i m.fetched) := by
  have hcall : m.fetched.Calls i b [x, y] := ⟨h.operation, h.arity, h.room, h.above, h.callee⟩
  obtain ⟨r, hr, hrun⟩ := hpicks
  obtain rfl : (if first then x else y) = r := by cases first <;> exact Option.some.inj hr
  obtain ⟨node, hnode, hcontent⟩ := hn
  have hexecute := (hcall.execute_eq hb (Nat.le_refl 2)).trans (bind_ok hrun)
  rw [Machine.executed, hexecute]
  exact .integer hnode hcontent fun _ => rfl

/-- A unary operator answers with the number that it computes. -/
theorem Matches.answers_unary (hm : Matches φ s m.fetched) {n n' : Int} (hop : i.op.operation? = some .unary)
    (ha : m.operands.top? = some a) (hn : m.Holds a n)
    (hout : Operand.unary i.sym (.number (.int n)) = .ok (.inr (.int n'))) :
    m.Answers i m.operands.dropTop true (.integer n') (Machine.executed i m.fetched) := by
  obtain ⟨hpop, s', hm'⟩ := hm.take ha
  obtain ⟨node, hnode, hsees⟩ := hn.sees
  have hcomputes := unary_computes (m := { m.fetched with operands := m.operands.dropTop }) hnode i.sym
  rw [hsees, hout] at hcomputes
  refine Computes.answers (r := .integer n') (f := MachineM.push) hcomputes hm' ?_ fun _ _ => rfl
  rw [execute, hop]
  exact bind_ok hpop

/-- An instruction that asks for arithmetic on integers of 32 bits gets its answer. -/
theorem Matches.answers (hm : Matches φ s m.fetched) (hfits : m.Fits) (h : m.Asks i below fresh r) :
    m.Answers i below fresh r (Machine.executed i m.fetched) := by
  cases h with
  | @binary x y a b o hop hsym hy hx ha hb =>
    obtain ⟨hpop, s', hm'⟩ := hm.take hy
    obtain ⟨hpop', s'', hm''⟩ := hm'.take hx
    obtain ⟨nx, hnx, hseesx⟩ := ha.sees
    obtain ⟨ny, hny, hseesy⟩ := hb.sees
    have hsame : decide (x = y) = true → a = b := by
      intro hxy
      obtain rfl := of_decide_eq_true hxy
      obtain rfl := Option.some.inj (hnx.symm.trans hny)
      have hint := hseesx.symm.trans hseesy
      injection hint with hint
      injection hint
    have hcomputes := binary_computes (m := { m.fetched with operands := m.operands.dropTop.dropTop }) hnx hny o.symbol
    rw [hseesx, hseesy, Operand.binary_integers (hfits.holds ha) (hfits.holds hb) o hsame] at hcomputes
    refine hcomputes.answers (f := MachineM.push) hm'' ?_ fun _ _ => rfl
    rw [execute, hop, ← hsym]
    exact (bind_ok hpop).trans (bind_ok hpop')
  | @negate x a hop hsym hx ha =>
    exact hm.answers_unary hop hx ha (hsym ▸ Operand.negate_integer (hfits.holds ha))
  | @complement x a hop hsym hx ha =>
    exact hm.answers_unary hop hx ha (hsym ▸ Operand.complement_integer (hfits.holds ha))
  | @abs x a hcall ha =>
    have hpicks := apply_picks (m := m.fetched) .abs rfl (.cons ha.sees .nil)
    rw [Operand.abs_integer (hfits.holds ha)] at hpicks
    have hcall' : m.fetched.Calls i .abs [x] := ⟨hcall.operation, hcall.arity, hcall.room, hcall.above, hcall.callee⟩
    exact Computes.answers (r := .integer _) hpicks hm (hcall'.execute_eq rfl (Nat.le_succ 1)) fun _ _ => rfl
  | @min x y a b hcall ha hb =>
    have hpicks := apply_picks (m := m.fetched) .min rfl (.cons ha.sees (.cons hb.sees .nil))
    refine hcall.answers_pick rfl hpicks ?_
    rw [min_def]
    change m.Holds (if decide (a ≤ b) then x else y) _
    by_cases hab : a ≤ b
    · simpa [hab] using ha
    · simpa [hab] using hb
  | @max x y a b hcall ha hb =>
    have hpicks := apply_picks (m := m.fetched) .max rfl (.cons ha.sees (.cons hb.sees .nil))
    refine hcall.answers_pick rfl hpicks ?_
    rw [max_def']
    change m.Holds (if decide (b ≤ a) then x else y) _
    by_cases hab : b ≤ a
    · simpa [hab] using ha
    · simpa [hab] using hb

end Instruction

/-! ## Runs -/

end Tenure
