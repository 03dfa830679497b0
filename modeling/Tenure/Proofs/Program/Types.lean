import Tenure.Proofs.Program.Structure
import Tenure.Proofs.Typing.Paths

/-!
# The types of a run

The checker keeps what it promises: a program in normal form that it accepts never makes the machine fail because an
operand, a callee, an argument list or a reference is not what an instruction calls for. The machine fails where the
evaluation of the program does, and evaluation keeps types.
-/

set_option autoImplicit false

namespace Tenure

open Endless Machine

/-- A run ends because a value was not of the type that an instruction needs. -/
def Outcome.IsTypeError : Outcome → Prop
  | .failed (.step _ _ e) => e.isTypeError = true
  | _ => False

theorem Outcome.IsTypeError.step {o : Outcome} (h : o.IsTypeError) :
    ∃ pc i e, o = .failed (.step pc i e) ∧ e.isTypeError = true := by
  unfold Outcome.IsTypeError at h
  split at h
  next pc i e => exact ⟨pc, i, e, rfl, h⟩
  · exact h.elim

section Failures

variable {t : Tree} {code : Emissions} {n : Nat} {s : Endless} {err : StepError}

/-- A state fails with one error only. -/
theorem Endless.FailsAt.unique {err' : StepError} (h : FailsAt code s err) (h' : FailsAt code s err') : err = err' := by
  obtain ⟨e, k, hcode, -, hstep⟩ := h
  obtain ⟨e', k', hcode', -, hstep'⟩ := h'
  cases hcode.symm.trans hcode'
  cases hstep.symm.trans hstep'
  rfl

/-- A run that fails is that of a failing guarded evaluation, unless the code has dropped the slot that an unguarded
access reads. Nothing relates the errors where a guard stops the evaluation. -/
theorem Tree.emissions_fails_guarded (h : t.emissions = .ok code) (hsize : code.length < 2 ^ 63) (g : Guard)
    (hs : Steps code n Endless.initial s) (hfails : FailsAt code s err) :
    ((∃ pos, err = .unassigned pos) ∧ ∃ e, code[s.pc]? = some e ∧ g.Unguarded e.instr) ∨
      ∃ x fuel err' σ, t.term? = some x ∧ x.guarded g fuel [0] [0] Store.initial = .error (.failed err') σ ∧
        (err = err' ∨ g.Refuses err') := by
  obtain ⟨x, hx, hsim⟩ := Tree.emissions_guarded h hsize
  rcases hsim g n with ⟨-, m, s', e, pos, hsteps, hdropped, he, hfree⟩ | hsim
  · obtain rfl := hs.end_unique hfails.stuck hsteps hdropped.stuck
    exact .inl ⟨⟨pos, hfails.unique hdropped⟩, e, he, hfree⟩
  cases hev : x.guarded g n [0] [0] Store.initial with
  | ok v σ =>
    rw [hev] at hsim
    obtain ⟨m, W, s', a, hsteps, hdone, -⟩ := hsim
    obtain rfl := hs.end_unique hfails.stuck hsteps hdone.stuck
    obtain ⟨⟨env, hcode⟩, -⟩ := hdone
    obtain ⟨e, k, hcode', -, hstep⟩ := hfails
    cases hcode.symm.trans hcode'
    cases hstep
  | error b σ =>
    rw [hev] at hsim
    cases b with
    | returned v => exact hsim.elim
    | failed err' =>
      refine .inr ⟨x, n, err', σ, hx, hev, ?_⟩
      rcases hsim with ⟨m, s', hsteps, hfails'⟩ | hrefused
      · obtain rfl := hs.end_unique hfails.stuck hsteps hfails'.stuck
        exact .inl (hfails.unique hfails')
      · exact .inr hrefused
    | timeout =>
      obtain ⟨m, s', hlt, hsteps⟩ := hsim
      rcases hs.of_stuck hfails.stuck hsteps with hlt' | ⟨heq, -⟩ <;> omega

/-- A run that fails is that of a failing evaluation, unless the code has dropped the slot that it reads. -/
theorem Tree.emissions_fails (h : t.emissions = .ok code) (hsize : code.length < 2 ^ 63)
    (hs : Steps code n Endless.initial s) (hfails : FailsAt code s err) :
    (∃ pos, err = .unassigned pos) ∨
      ∃ x fuel σ, t.term? = some x ∧ x.eval fuel [0] Store.initial = .error (.failed err) σ := by
  rcases Tree.emissions_fails_guarded h hsize {} hs hfails with ⟨hpos, -⟩ | ⟨x, fuel, err', σ, hx, hev, heq⟩
  · exact .inl hpos
  · obtain rfl := heq.resolve_right (Guard.not_refuses_none err')
    exact .inr ⟨x, fuel, σ, hx, by rwa [Term.guarded_none] at hev⟩

/-- A run that ends with the error of an instruction has run out of nodes, or it has come to a state that fails with this
error at this instruction. -/
theorem Tracks.run_error (h : t.emissions = .ok code) (hsize : code.length < 2 ^ 63) {start m : Machine}
    {φ : Address → Address} {limits : Limits} {fuel : Nat} (hm : Tracks code start φ s m) {pc : Int} {i : Instr}
    (hrun : (run limits fuel m).1 = .failed (.step pc i err)) :
    err = .heap .exhausted ∨
      ∃ n s', Steps code n Endless.initial s' ∧ FailsAt code s' err ∧ ∃ e, code[s'.pc]? = some e ∧ e.instr = i := by
  induction fuel generalizing s m φ with
  | zero => cases hrun
  | succ fuel ih =>
    obtain ⟨v, hv⟩ := Tree.emissions_course h hsize hm.steps limits start.heap.nodes.size
    have hcourse := hm.advance hv
    cases v with
    | goes s' =>
      obtain ⟨-, m', hadvance⟩ | ⟨φ', m', hadvance, -, hm'⟩ := hcourse
      · simp only [run, hadvance] at hrun
        cases hrun
      · simp only [run, hadvance] at hrun
        exact ih hm' hrun
    | ends o =>
      obtain ⟨-, m', hadvance⟩ | ⟨m', hadvance, -⟩ := hcourse
      · simp only [run, hadvance] at hrun
        cases hrun
      simp only [run, hadvance] at hrun
      subst hrun
      cases hv with
      | limited he hlimit => rcases of_limit? hlimit with hstep | hstep <;> cases hstep
      | fails he hlimit heff hk =>
        obtain ⟨e, he', hfits⟩ := Tree.emissions_fits h hsize hm.steps
        cases he.symm.trans he'
        exact .inr ⟨m.steps, s, hm.steps, ⟨_, _, he, hfits, heff⟩, _, he, rfl⟩
      | exhausted => exact .inl rfl

end Failures

/-- Accepted programs keep their types. Let a crate in normal form compile, whose functions all stand in the crate and
whose conditionals all have two branches, and let the function at which it starts have no parameters and be named by no
path, as in `Tree.entryUnnamed_of_paths`. Then in a heap of any size no run fails because of the type of an operand, a
callee that is no function, a wrong number of arguments, a dereference of something else than a reference, a change
through a reference that allows none, or an operator that is not known. -/
theorem Tree.run_well_typed {t : Tree} {program : Program} (hnormal : t.Normal) (hentry : t.EntryWithoutParameters)
    (hunnamed : t.EntryUnnamed) (h : t.compile = .ok program) (hsize : program.length < 2 ^ 63)
    {digest : Text → UInt64} {words : Int} {start : Machine} (hstart : create digest program words = .ok start)
    (limits : Limits) (fuel : Nat) : ¬ (run limits fuel start).1.IsTypeError := by
  obtain ⟨code, hcode, rfl⟩ := Tree.compile_eq_ok h
  replace hsize : code.length < 2 ^ 63 := by simpa [Emissions.program] using hsize
  obtain ⟨φ, htracks⟩ := Tracks.create hstart
  intro htype
  obtain ⟨pc, i, err, hrun, herr⟩ := htype.step
  rcases htracks.run_error hcode hsize hrun with rfl | ⟨n, s, hs, hfails, -⟩
  · cases herr
  rcases Tree.emissions_fails hcode hsize hs hfails with ⟨pos, rfl⟩ | ⟨x, fuel', σ, hx, heval⟩
  · cases herr
  · rw [Tree.eval_typed hnormal hentry hunnamed hcode hx heval] at herr
    cases herr

/-- A program in which a function with an early return is called on a value that was changed through a reference. Both
ways of its conditional are written out. -/
def Tree.selector : Tree :=
  crate
    [function "pick" [{ name := "b", type := "bool" }] "char" (block
      [conditional (path "b") (block [statement (returning (char 121))]) (block [char 110])]),
     function "main" [] "char" (block
      [letStatement "r" true "bool" (bool false),
       statement (assignment (dereference (borrowMutable (path "r"))) (bool true)),
       call (path "pick") [path "r"]])]

theorem Tree.selector_normal : selector.Normal := by
  have hpath : ∀ name, (path name).Expression := fun name => .leaf (.inr rfl)
  have hchar : ∀ code, (char code).Expression := fun code => .leaf (.inl rfl)
  have hbool : ∀ b, (bool b).Expression := fun b => .leaf (.inl rfl)
  have hreturn : (returning (char 121)).Expression :=
    .node (f := .returning) rfl (Nat.le_refl 1) (List.forall_mem_singleton.mpr (hchar _))
  have hthen : (block [statement (returning (char 121))]).Expression :=
    .block rfl (List.forall_mem_singleton.mpr (.expressionStatement rfl rfl hreturn))
  have helse : (block [char 110]).Expression := .block rfl (List.forall_mem_singleton.mpr (.expression (hchar _)))
  have hchange : (assignment (dereference (borrowMutable (path "r"))) (bool true)).Expression := by
    refine .node (f := .assignment) rfl rfl (List.forall_mem_cons.mpr ⟨?_, List.forall_mem_singleton.mpr (hbool _)⟩)
    exact .node (f := .dereference) rfl rfl (List.forall_mem_singleton.mpr (.borrow rfl (hpath _)))
  refine ⟨List.forall_mem_cons.mpr ⟨rfl, List.forall_mem_singleton.mpr rfl⟩,
    List.forall_mem_cons.mpr ⟨fun body hbody => ?_, List.forall_mem_singleton.mpr fun body hbody => ?_⟩⟩
  · cases hbody
    refine .block rfl (List.forall_mem_singleton.mpr (.expression (.node (f := .conditional) rfl rfl ?_)))
    exact List.forall_mem_cons.mpr ⟨hpath _, List.forall_mem_cons.mpr ⟨hthen, List.forall_mem_singleton.mpr helse⟩⟩
  · cases hbody
    refine .block rfl (List.forall_mem_cons.mpr ⟨.letStatement rfl fun e he => ?_, List.forall_mem_cons.mpr
      ⟨.expressionStatement rfl rfl hchange, List.forall_mem_singleton.mpr (.expression ?_)⟩⟩)
    · cases he
      exact hbool _
    · exact .node (f := .call) rfl (Nat.le_succ 1) (List.forall_mem_cons.mpr
        ⟨hpath _, List.forall_mem_singleton.mpr (hpath _)⟩)

theorem Tree.selector_entry : selector.EntryWithoutParameters := by
  refine List.forall_mem_cons.mpr ⟨fun hname => ?_, List.forall_mem_singleton.mpr fun _ => ?_⟩
  · cases hname
  · rfl

/-- No path of the selecting program has the name of the function at which it starts, and in a heap of a hundred nodes the
program keeps its types. -/
theorem Tree.run_well_typed_selector : selector.Normal ∧ selector.EntryWithoutParameters ∧ selector.EntryUnnamed ∧
    ∃ program start, selector.compile = .ok program ∧ create Heap.defaultDigest program 1000 = .ok start ∧
      ∀ limits fuel, ¬ (run limits fuel start).1.IsTypeError := by
  have hunnamed := Tree.entryUnnamed_of_paths Tree.selector_normal (by decide)
  obtain ⟨program, hprogram, hlength⟩ := Tree.compile_of_length (t := selector) (n := 44) (by decide +kernel)
  obtain ⟨start, hstart⟩ := create_ok Heap.defaultDigest program 1000 (by decide) (by decide)
  exact ⟨Tree.selector_normal, Tree.selector_entry, hunnamed, program, start, hprogram, hstart,
    Tree.run_well_typed Tree.selector_normal Tree.selector_entry hunnamed hprogram (by omega) hstart⟩

end Tenure
