import Tenure.Proofs.Mirror.Create
import Tenure.Proofs.Mirror.Run
import Tenure.Proofs.Simulation.Program
import Tenure.Tree.Build

/-!
# The course of a run

`Course` says how a run goes on from a state of the endless machine, given only how many nodes there are: it comes to
the next state, or it ends by a limit, with an error, for want of nodes, or with a value. A machine that is in step with
the endless machine, `Tracks`, does just that, wherever its heap has put the objects: `Tracks.advance`. More nodes change
nothing about a run that has enough of them: `Course.mono`. Only where there are more nodes than addresses the machine may
leave its course, by a crash: `Machine.Strays`.
-/

set_option autoImplicit false

namespace Tenure

open Endless Machine

namespace Machine

variable {limits : Limits} {m : Machine}

/-- The machine once the instruction at hand is fetched and counted. -/
def fetched (m : Machine) : Machine := { m with pc := m.pc + 1, steps := m.steps + 1 }

/-- The error of the limit that ends a run before the instruction at hand, if one does. -/
def limit? (limits : Limits) (steps : Nat) (pc : Int) : Option RunError :=
  if 0 < limits.steps ∧ limits.steps < steps + 1 then some (.stepLimit limits.steps)
  else if limits.canceled ∧ (steps + 1) % cancelInterval = 0 then some (.canceled pc)
  else none

theorem of_limit? {steps : Nat} {pc : Int} {e : RunError} (he : limit? limits steps pc = some e) :
    e = .stepLimit limits.steps ∨ e = .canceled pc := by
  unfold limit? at he
  split at he
  · cases he
    exact .inl rfl
  · split at he
    · cases he
      exact .inr rfl
    · cases he

theorem advance_limited {i : Instr} {e : RunError} (hi : m.fetch? = some i) (he : limit? limits m.steps m.pc = some e) :
    advance limits m = .ended (.failed e) m.fetched := by
  simp only [limit?] at he
  simp only [advance, hi]
  split at he
  next hlimit =>
    rw [if_pos hlimit]
    cases he
    rfl
  next hlimit =>
    split at he
    next hcanceled =>
      rw [if_neg hlimit, if_pos hcanceled]
      cases he
      simp [fetched]
    · cases he

theorem advance_free {i : Instr} (hi : m.fetch? = some i) (he : limit? limits m.steps m.pc = none) :
    advance limits m = if i.op.operation? = some .done then .ended m.fetched.result m.fetched else executed i m.fetched := by
  simp only [limit?] at he
  simp only [advance, hi]
  split at he
  · cases he
  next hlimit =>
    split at he
    · cases he
    next hcanceled =>
      rw [if_neg hlimit, if_neg hcanceled]
      rfl

end Machine

/-- Compiled code is emitted code. -/
theorem Tree.compile_eq_ok {t : Tree} {program : Program} (h : t.compile = .ok program) :
    ∃ code, t.emissions = .ok code ∧ code.program = program := by
  rw [Tree.compile] at h
  cases hcode : t.emissions with
  | error e => simp [hcode, Except.map] at h
  | ok code => exact ⟨code, rfl, by simpa [hcode, Except.map] using h⟩

/-- A program with some number of instructions compiles. -/
theorem Tree.compile_of_length {t : Tree} {n : Nat} (h : t.compile.toOption.map List.length = some n) :
    ∃ program, t.compile = .ok program ∧ program.length = n := by
  cases hcompile : t.compile with
  | error e => simp [hcompile, Except.toOption] at h
  | ok program => exact ⟨program, rfl, by simpa [hcompile, Except.toOption] using h⟩

/-- What becomes of a run: it comes to a state, or it ends. -/
inductive Verdict where
  | goes (s : Endless)
  | ends (outcome : Outcome)

/-- How a run with a number of nodes goes on from a state of the endless machine. -/
inductive Course (limits : Limits) (code : Emissions) (nodes steps : Nat) (s : Endless) : Verdict → Prop where
  | limited {e : Emission} {err : RunError} (he : code[s.pc]? = some e) (hlimit : limit? limits steps s.pc = some err) :
    Course limits code nodes steps s (.ends (.failed err))
  | goes {e : Emission} {k : Nat} {s' : Endless} (he : code[s.pc]? = some e) (hlimit : limit? limits steps s.pc = none)
    (hfits : s.Fits e) (heff : s.step e.instr = some ⟨k, .ok s'⟩) (hk : k ≤ nodes) :
    Course limits code nodes steps s (.goes s')
  | fails {e : Emission} {k : Nat} {err : StepError} (he : code[s.pc]? = some e)
    (hlimit : limit? limits steps s.pc = none) (heff : s.step e.instr = some ⟨k, .error err⟩) (hk : k ≤ nodes) :
    Course limits code nodes steps s (.ends (.failed (.step s.pc e.instr err)))
  | exhausted {e : Emission} {eff : Effect} (he : code[s.pc]? = some e) (hlimit : limit? limits steps s.pc = none)
    (heff : s.step e.instr = some eff) (hk : nodes < eff.demand) :
    Course limits code nodes steps s (.ends (.failed (.step s.pc e.instr (.heap .exhausted))))
  | done {a : Address} {w : Host} (hdone : DoneWith code s a) (hlimit : limit? limits steps s.pc = none)
    (hw : s.hostOf? (Host.maxDepth + 1) a = some w) : Course limits code nodes steps s (.ends (.value w))

/-- The heap had no node left for an instruction. -/
def Outcome.Exhausted (o : Outcome) : Prop := ∃ pc i, o = .failed (.step pc i (.heap .exhausted))

/-- More nodes change nothing about a run that has enough of them. -/
theorem Course.mono {limits : Limits} {code : Emissions} {nodes more steps : Nat} {s : Endless} {v : Verdict}
    (h : Course limits code nodes steps s v) (hle : nodes ≤ more) (hv : ∀ o, v = .ends o → ¬ o.Exhausted) :
    Course limits code more steps s v := by
  cases h with
  | limited he hlimit => exact .limited he hlimit
  | goes he hlimit hfits heff hk => exact .goes he hlimit hfits heff (hk.trans hle)
  | fails he hlimit heff hk => exact .fails he hlimit heff (hk.trans hle)
  | exhausted he hlimit heff hk => exact absurd ⟨_, _, rfl⟩ (hv _ rfl)
  | done hdone hlimit hw => exact .done hdone hlimit hw

/-- A run of a program goes on from every state that it can come to. -/
theorem Tree.emissions_course {t : Tree} {code : Emissions} (h : t.emissions = .ok code) (hsize : code.length < 2 ^ 63)
    {steps : Nat} {s : Endless} (hs : Steps code steps Endless.initial s) (limits : Limits) (nodes : Nat) :
    ∃ v, Course limits code nodes steps s v := by
  have hprogress := Tree.emissions_progress h hsize hs
  cases hlimit : limit? limits steps s.pc with
  | some err =>
    obtain ⟨e, he⟩ : ∃ e, code[s.pc]? = some e := by
      rcases hprogress with ⟨s', hstep⟩ | ⟨a, ⟨env, he⟩, -⟩ | ⟨err, e, k, he, -⟩
      · cases hstep with
        | step he => exact ⟨_, he⟩
      · exact ⟨_, he⟩
      · exact ⟨e, he⟩
    exact ⟨_, .limited he hlimit⟩
  | none =>
    rcases hprogress with ⟨s', hstep⟩ | ⟨a, hdone⟩ | ⟨err, e, k, he, hfits, heff⟩
    · cases hstep with
      | @step _ k _ _ _ e he hfits heff hrest =>
        by_cases hk : k ≤ nodes
        · exact ⟨_, .goes he hlimit hfits heff hk⟩
        · exact ⟨_, .exhausted he hlimit heff (Nat.lt_of_not_le hk)⟩
    · obtain ⟨x, fuel, v, σ, -, -, hhost⟩ := Tree.emissions_done h hsize hs hdone
      obtain ⟨w, hw, -⟩ := hhost (Host.maxDepth + 1)
      exact ⟨_, .done hdone hlimit hw⟩
    · by_cases hk : k ≤ nodes
      · exact ⟨_, .fails he hlimit heff hk⟩
      · exact ⟨_, .exhausted he hlimit heff (Nat.lt_of_not_le hk)⟩

/-- A run ends because the free list of the heap leads out of the arena. That takes more nodes than addresses. -/
def Machine.Strays (limits : Limits) (m : Machine) : Prop :=
  Heap.addressable < m.heap.nodes.size ∧ ∃ m', Machine.advance limits m = .ended .crashed m'

/-- A machine in step with the endless machine. -/
structure Tracks (code : Emissions) (start : Machine) (φ : Address → Address) (s : Endless) (m : Machine) : Prop where
  steps : Steps code m.steps Endless.initial s
  state : Matches φ s m
  texts : Texts s.objs
  code : m.code = code.program.toArray
  size : m.heap.nodes.size = start.heap.nodes.size
  /-- The outermost environment stays where it is. -/
  outermost : (∃ o : Obj, s.objs[Endless.initial.env]? = some o ∧ o.content = .environment) ∧
    φ Endless.initial.env = start.env

namespace Tracks

variable {code : Emissions} {start m : Machine} {φ : Address → Address} {s : Endless} {limits : Limits} {e : Emission}
  {eff : Effect}

/-- A machine that was just set up is in step. -/
theorem create {digest : Text → UInt64} {words : Int} (h : Machine.create digest code.program words = .ok m) :
    ∃ φ, Tracks code m φ Endless.initial m := by
  obtain ⟨⟨φ, hm⟩, hcode, hsteps, -⟩ := Machine.create_matches h
  refine ⟨φ, ?_, hm, .prelude, hcode, rfl, ⟨_, rfl, rfl⟩, hm.registers.env.symm⟩
  rw [hsteps]
  exact .refl _

theorem pc (h : Tracks code start φ s m) : m.pc = s.pc := h.state.pc

theorem fetch? (h : Tracks code start φ s m) (he : code[s.pc]? = some e) : m.fetch? = some e.instr := by
  simp [Machine.fetch?, h.pc, h.code, Emissions.program, he]

theorem fetched (h : Tracks code start φ s m) : Matches φ s.next m.fetched := by
  refine ⟨h.state.mirrors, ⟨h.state.registers.operands, h.state.registers.env, h.state.registers.frames⟩,
    h.state.pins, ?_⟩
  simp [Machine.fetched, Endless.next, h.pc]

/-- An instruction that the endless machine does not stop at is executed. -/
theorem advance_eq (h : Tracks code start φ s m) (he : code[s.pc]? = some e) (hlimit : limit? limits m.steps s.pc = none)
    (heff : s.step e.instr = some eff) : advance limits m = executed e.instr m.fetched := by
  rw [advance_free (h.fetch? he) (h.pc ▸ hlimit), if_neg]
  intro hdone
  obtain ⟨o, ho, heff⟩ := Option.bind_eq_some_iff.mp heff
  cases ho.symm.trans hdone
  cases heff

/-- The machine does with an instruction what the endless machine does with it, or it strays. -/
theorem follows (h : Tracks code start φ s m) (he : code[s.pc]? = some e) (hlimit : limit? limits m.steps s.pc = none)
    (heff : s.step e.instr = some eff) :
    m.Strays limits ∨
    (eff.demand ≤ start.heap.nodes.size →
      match eff.outcome with
      | .ok s' => ∃ φ' m', MachineM.execute e.instr m.fetched = (.ok (), m') ∧ Matches φ' s' m' ∧ Keeps s.objs φ φ' ∧
        m.fetched.Same m'
      | .error err => ∃ m', MachineM.execute e.instr m.fetched = (.error (.failed err), m') ∧ m'.pc = m.fetched.pc ∧
        m'.steps = m.fetched.steps) ∧
    (start.heap.nodes.size < eff.demand → ∃ m', MachineM.execute e.instr m.fetched =
      (.error (.failed (.heap .exhausted)), m') ∧ m'.pc = m.fetched.pc ∧ m'.steps = m.fetched.steps) := by
  rw [← h.size]
  refine (h.fetched.execute_follows h.texts heff).imp_left ?_
  rintro ⟨m', hrun, hmany⟩
  obtain ⟨hsize, -⟩ := MachineM.execute_keeps (Heap.sized_kept _) (i := e.instr) trivial m.fetched rfl
  rw [hrun] at hsize
  exact ⟨hsize ▸ hmany, m', by rw [h.advance_eq he hlimit heff, executed, hrun]⟩

/-- As long as the demands fit, the machine stays in step. -/
theorem step (h : Tracks code start φ s m) (he : code[s.pc]? = some e) (hfits : s.Fits e)
    (hlimit : limit? limits m.steps s.pc = none) {k : Nat} {s' : Endless} (heff : s.step e.instr = some ⟨k, .ok s'⟩)
    (hk : k ≤ start.heap.nodes.size) :
    m.Strays limits ∨
    ∃ φ' m', advance limits m = .running m' ∧ m'.steps = m.steps + 1 ∧ Tracks code start φ' s' m' := by
  refine (h.follows he hlimit heff).imp_right fun hfollows => ?_
  obtain ⟨φ', m', hrun, hm', hkeeps, hsame⟩ := hfollows.1 hk
  obtain ⟨htexts, hcontents⟩ := (step_tidy h.texts heff).1 s' rfl
  obtain ⟨⟨o, ho, hc⟩, henv⟩ := h.outermost
  obtain ⟨o', ho', hc'⟩ := hcontents _ o ho
  have hsteps : m'.steps = m.steps + 1 := hsame.steps
  refine ⟨φ', m', ?_, hsteps, ?_, hm', htexts, hsame.code.trans h.code, hsame.size.trans h.size,
    ⟨o', ho', hc'.trans hc⟩, (hkeeps _ o ho (by simp [hc])).trans henv⟩
  · rw [h.advance_eq he hlimit heff, executed, hrun]
  · rw [hsteps]
    exact h.steps.trans (.single he hfits heff)

/-- The machine ends with the error of the endless machine. -/
theorem fails (h : Tracks code start φ s m) (he : code[s.pc]? = some e) (hlimit : limit? limits m.steps s.pc = none) {k : Nat}
    {err : StepError} (heff : s.step e.instr = some ⟨k, .error err⟩) (hk : k ≤ start.heap.nodes.size) :
    m.Strays limits ∨
    ∃ m', advance limits m = .ended (.failed (.step s.pc e.instr err)) m' ∧ m'.steps = m.steps + 1 := by
  refine (h.follows he hlimit heff).imp_right fun hfollows => ?_
  obtain ⟨m', hrun, hpc, hsteps⟩ := hfollows.1 hk
  refine ⟨m', ?_, hsteps⟩
  rw [h.advance_eq he hlimit heff, executed, hrun]
  simp [hpc, Machine.fetched, h.pc]

/-- A demand that does not fit exhausts the heap. -/
theorem exhausted (h : Tracks code start φ s m) (he : code[s.pc]? = some e) (hlimit : limit? limits m.steps s.pc = none)
    (heff : s.step e.instr = some eff) (hk : start.heap.nodes.size < eff.demand) :
    m.Strays limits ∨
    ∃ m', advance limits m = .ended (.failed (.step s.pc e.instr (.heap .exhausted))) m' ∧ m'.steps = m.steps + 1 := by
  refine (h.follows he hlimit heff).imp_right fun hfollows => ?_
  obtain ⟨m', hrun, hpc, hsteps⟩ := hfollows.2 hk
  refine ⟨m', ?_, hsteps⟩
  rw [h.advance_eq he hlimit heff, executed, hrun]
  simp [hpc, Machine.fetched, h.pc]

/-- At the end of the program the machine shows the host value of its only operand. -/
theorem done (h : Tracks code start φ s m) {a : Address} (hdone : DoneWith code s a) (hlimit : limit? limits m.steps s.pc = none)
    {w : Host} (hw : s.hostOf? (Host.maxDepth + 1) a = some w) : advance limits m = .ended (.value w) m.fetched := by
  obtain ⟨⟨env, he⟩, hops, -, -⟩ := hdone
  rw [advance_free (h.fetch? he) (h.pc ▸ hlimit), if_pos (by rfl)]
  have hhold : m.operands.Hold [φ a] := by simpa [hops] using h.state.registers.operands
  have htop : m.fetched.operands.top? = some (φ a) := hhold.top?
  have hhost : m.fetched.heap.toHost? (some (φ a)) = some w :=
    h.state.mirrors.host (.root (by simp [Endless.roots, hops])) hw
  rw [Machine.result, htop]
  simp only [hhost]

/-- A machine in step with the endless machine takes the course that its number of nodes allows, unless it strays. -/
theorem advance {v : Verdict} (h : Tracks code start φ s m) (hv : Course limits code start.heap.nodes.size m.steps s v) :
    m.Strays limits ∨
    match v with
    | .goes s' => ∃ φ' m', Machine.advance limits m = .running m' ∧ m'.steps = m.steps + 1 ∧ Tracks code start φ' s' m'
    | .ends o => ∃ m', Machine.advance limits m = .ended o m' ∧ m'.steps = m.steps + 1 := by
  cases hv with
  | limited he hlimit => exact .inr ⟨_, advance_limited (h.fetch? he) (h.pc ▸ hlimit), rfl⟩
  | goes he hlimit hfits heff hk => exact h.step he hfits hlimit heff hk
  | fails he hlimit heff hk => exact h.fails he hlimit heff hk
  | exhausted he hlimit heff hk => exact h.exhausted he hlimit heff hk
  | done hdone hlimit hw => exact .inr ⟨_, h.done hdone hlimit hw, rfl⟩

/-- No machine strays that has an address for every node. -/
theorem not_strays (h : Tracks code start φ s m) (hfew : start.heap.nodes.size ≤ Heap.addressable) :
    ¬ m.Strays limits := fun hstrays => absurd (h.size ▸ hstrays.1) (Nat.not_lt.mpr hfew)

end Tracks

/-- A run comes from one machine to another. -/
inductive Machine.Reaches (limits : Limits) (start : Machine) : Machine → Prop where
  | refl : Machine.Reaches limits start start
  | next {m m' : Machine} (h : Machine.Reaches limits start m) (h' : Machine.advance limits m = .running m') :
    Machine.Reaches limits start m'

theorem Machine.advance_ended {limits : Limits} {m m' : Machine} {outcome : Outcome}
    (h : advance limits m = .ended outcome m') : outcome ≠ .unfinished := by
  rintro rfl
  unfold advance at h
  split at h
  · cases h
  simp only at h
  split at h
  · cases h
  split at h
  · cases h
  split at h
  · injection h with hresult
    unfold result at hresult
    split at hresult
    · cases hresult
    · split at hresult <;> cases hresult
  · unfold executed at h
    split at h <;> cases h

/-- A run that has not ended when it is looked at has come to the machine it shows. -/
theorem Machine.Reaches.of_run {limits : Limits} {fuel : Nat} {start m m' : Machine} (h : Reaches limits start m)
    (hrun : run limits fuel m = (.unfinished, m')) : Reaches limits start m' := by
  induction fuel generalizing m with
  | zero =>
    cases hrun
    exact h
  | succ fuel ih =>
    rw [run] at hrun
    split at hrun
    next m'' hadvance => exact ih (h.next hadvance) hrun
    next outcome m'' hadvance =>
      cases hrun
      exact absurd rfl (advance_ended hadvance)

/-- Whether the run of a program in a heap of a size comes to a machine with a property after a number of steps. -/
def Machine.comesTo (program : Program) (words : Int) (steps : Nat) (p : Machine → Bool) : Bool :=
  match create Heap.defaultDigest program words with
  | .ok start =>
    match run {} steps start with
    | (.unfinished, m) => p m
    | _ => false
  | .error _ => false

theorem Machine.of_comesTo {program : Program} {words : Int} {steps : Nat} {p : Machine → Bool}
    (h : comesTo program words steps p = true) :
    ∃ start m, create Heap.defaultDigest program words = .ok start ∧ Reaches {} start m ∧ p m = true := by
  unfold comesTo at h
  split at h
  next start hstart =>
    split at h
    next m hrun => exact ⟨start, m, hstart, .of_run .refl hrun, h⟩
    · cases h
  · cases h

/-- Whether the run of a program in a heap of a size ends with a given kind of outcome. -/
def Machine.endsWith (program : Program) (words : Int) (fuel : Nat) (p : Outcome → Bool) : Bool :=
  match create Heap.defaultDigest program words with
  | .ok start => p (run {} fuel start).1
  | .error _ => false

theorem Machine.of_endsWith {program : Program} {words : Int} {fuel : Nat} {p : Outcome → Bool}
    (h : endsWith program words fuel p = true) :
    ∃ start, create Heap.defaultDigest program words = .ok start ∧ p (run {} fuel start).1 = true := by
  unfold endsWith at h
  split at h
  next start hstart => exact ⟨start, hstart, h⟩
  · cases h

/-- Whether a run ended with a text. -/
def Outcome.shows (s : Text) : Outcome → Bool
  | .value (.str r) => r = s
  | _ => false

theorem Outcome.shows_iff {s : Text} {o : Outcome} : o.shows s = true ↔ o = .value (.str s) := by
  constructor
  · intro h
    unfold shows at h
    split at h
    next r => rw [of_decide_eq_true h]
    · cases h
  · rintro rfl
    exact decide_eq_true rfl

/-- A program in which a function with an early return is called on a value that was changed through a reference. -/
def Tree.chooser : Tree :=
  crate
    [function "pick" [{ name := "b", type := "bool" }] "char" (block
      [statement (conditional (path "b") (block [statement (returning (char 121))]) .absent), char 110]),
     function "main" [] "char" (block
      [letStatement "r" true "bool" (bool false),
       statement (assignment (dereference (borrowMutable (path "r"))) (bool true)),
       call (path "pick") [path "r"]])]

/-- It compiles, and in a heap of a hundred nodes its run gives `y`. -/
theorem Tree.chooser_shows : ∃ program start, chooser.compile = .ok program ∧ program.length = 44 ∧
    create Heap.defaultDigest program 1000 = .ok start ∧ (run {} 100 start).1 = .value (.str "y") := by
  obtain ⟨program, hprogram, hall⟩ := Tree.compile_of_any (t := chooser)
    (p := fun program => endsWith program 1000 100 (·.shows "y") && program.length = 44) (by decide +kernel)
  obtain ⟨hends, hlength⟩ := Bool.and_eq_true_iff.mp hall
  obtain ⟨start, hstart, hshows⟩ := of_endsWith hends
  exact ⟨program, start, hprogram, of_decide_eq_true hlength, hstart, Outcome.shows_iff.mp hshows⟩

/-- A program stays in step with the endless machine from its start on. -/
theorem Machine.Reaches.tracks {t : Tree} {code : Emissions} (h : t.emissions = .ok code) (hsize : code.length < 2 ^ 63)
    {digest : Text → UInt64} {words : Int} {start m : Machine} {limits : Limits}
    (hstart : Machine.create digest code.program words = .ok start) (hm : Machine.Reaches limits start m) :
    ∃ φ s, Tracks code start φ s m := by
  induction hm with
  | refl =>
    obtain ⟨φ, htracks⟩ := Tracks.create hstart
    exact ⟨φ, _, htracks⟩
  | @next m m' _ hadvance ih =>
    obtain ⟨φ, s, htracks⟩ := ih
    obtain ⟨v, hv⟩ := Tree.emissions_course h hsize htracks.steps limits start.heap.nodes.size
    have hcourse := htracks.advance hv
    cases v with
    | goes s' =>
      obtain ⟨-, m'', hrun⟩ | ⟨φ', m'', hrun, -, htracks'⟩ := hcourse
      · cases hadvance.symm.trans hrun
      · cases hadvance.symm.trans hrun
        exact ⟨φ', s', htracks'⟩
    | ends o =>
      obtain ⟨-, m'', hrun⟩ | ⟨m'', hrun, -⟩ := hcourse <;> cases hadvance.symm.trans hrun

end Tenure
