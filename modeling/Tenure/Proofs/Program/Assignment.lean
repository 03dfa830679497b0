import Tenure.Proofs.Assignment.Programs
import Tenure.Proofs.Program.Types

/-!
# Slots without a value

A run reads a slot where it loads a variable and where it dereferences. The code of an orderly program never loads a slot
without a value: neither one that was not given a value yet, nor one that was dropped when its block was left. Where no
reference outlives the block of the variable that it leads to, no dereference finds such a slot either; programs that hand
references inward are of this kind. The machine fails where the guarded evaluation of the program does, and that follows which
slots have a value and which frames are open.

Other programs get past code generation too, and their runs may find a slot without a value: a variable may be taken for
having a value that only a loop would give it, and a borrow may be forgotten while its reference is still in use.
-/

set_option autoImplicit false

namespace Tenure

open Endless Machine

/-- Whether a run ends because an operation reads a slot without a value. -/
def Outcome.unassignedAt (op : Operation) : Outcome → Bool
  | .failed (.step _ i (.unassigned _)) => i.op.operation? = some op
  | _ => false

theorem Outcome.unassignedAt_iff {op : Operation} {o : Outcome} : o.unassignedAt op = true ↔
    ∃ pc i pos, o = .failed (.step pc i (.unassigned pos)) ∧ i.op.operation? = some op := by
  constructor
  · intro h
    unfold unassignedAt at h
    split at h
    next pc i pos => exact ⟨pc, i, pos, rfl, of_decide_eq_true h⟩
    · cases h
  · rintro ⟨pc, i, pos, rfl, hop⟩
    exact decide_eq_true hop

/-- What compiles is a crate. -/
theorem Tree.form_of_emissions {t : Tree} {code : Emissions} (h : t.emissions = .ok code) :
    Form.ofTag t.tag = .crate := by
  unfold Tree.emissions at h
  split at h
  · cases h
  · split at h
    · cases h
    · cases h
    · split at h
      · assumption
      · cases h

section Runs

variable {t : Tree} {digest : Text → UInt64} {words : Int} {start : Machine} {limits : Limits} {fuel : Nat}

/-- A run ends at a slot without a value only where a guarded evaluation comes to such a slot or to a frame that is not
open, or where the access is not guarded. -/
theorem Tree.guarded_of_unassigned {code : Emissions} (h : t.emissions = .ok code) (hsize : code.length < 2 ^ 63)
    (hstart : create digest code.program words = .ok start) (g : Guard) {pc : Int} {i : Instr} {pos : Position}
    (hrun : (run limits fuel start).1 = .failed (.step pc i (.unassigned pos))) :
    g.Unguarded i ∨ ∃ x fuel err σ, t.term? = some x ∧
      x.guarded g fuel [0] [0] Store.initial = .error (.failed err) σ ∧
      (err = .unassigned pos ∨ ∃ pos', err = .unboundSlot pos') := by
  obtain ⟨φ, htracks⟩ := Tracks.create hstart
  rcases htracks.run_error h hsize hrun with hheap | ⟨n, s, hs, hfails, e, he, rfl⟩
  · cases hheap
  rcases Tree.emissions_fails_guarded h hsize g hs hfails with
    ⟨-, e', he', hfree⟩ | ⟨x, fuel', err, σ, hx, heval, herr⟩
  · cases he.symm.trans he'
    exact .inl hfree
  · exact .inr ⟨x, fuel', err, σ, hx, heval, herr.imp Eq.symm And.right⟩

/-- The items of an orderly program are orderly. -/
theorem Tree.orderly_items {code : Emissions} (h : t.emissions = .ok code) (horderly : t.orderly false [] = true) :
    ∀ e ∈ t.children, e.orderly false [] = true :=
  fun _ he => Tree.orderly_of_mem horderly (by rw [Tree.form_of_emissions h]; decide) he

variable {program : Program}

/-- Every load of an orderly program finds a value, in a heap of any size: variables that branches give a value, that are
moved and given another one, and that blocks drop when they are left are all followed along every way that a run may
take. -/
theorem Tree.run_loads_assigned (horderly : t.orderly false [] = true) (h : t.compile = .ok program)
    (hsize : program.length < 2 ^ 63) (hstart : create digest program words = .ok start) (limits : Limits) (fuel : Nat) :
    (run limits fuel start).1.unassignedAt .load = false := by
  obtain ⟨code, hcode, rfl⟩ := Tree.compile_eq_ok h
  replace hsize : code.length < 2 ^ 63 := by simpa [Emissions.program] using hsize
  by_contra hends
  obtain ⟨pc, i, pos, hrun, hload⟩ := Outcome.unassignedAt_iff.mp (Bool.eq_true_of_not_eq_false hends)
  rcases Tree.guarded_of_unassigned hcode hsize hstart .onlyLoads hrun with
    (⟨-, hloads⟩ | ⟨hdereference, -⟩) | ⟨x, fuel', err, σ, hx, heval, herr⟩
  · cases hloads
  · cases hload.symm.trans hdereference
  · obtain ⟨hassigned, hopen⟩ := Tree.guarded_assigned hcode (Tree.orderly_items hcode horderly) hx heval
    rcases herr with rfl | ⟨pos', rfl⟩
    · exact hassigned pos rfl
    · exact hopen rfl pos' rfl

end Runs

/-- A program in which both branches of a conditional give a variable its value, and a loop moves another one out and
assigns it again. -/
def Tree.settling : Tree :=
  crate
    [function "settle" [{ name := "b", type := "bool" }] "bool" (block
      [letStatement "x" false "bool" .absent,
       statement (conditional (path "b") (block [statement (assignment (path "x") (bool false)), bool true])
         (block [statement (returning (path "b"))])),
       letStatement "y" true "" (bool true),
       statement (loop (path "y") (block [statement (assignment (path "y") (bool false))])),
       path "x"]),
     function "main" [] "bool" (block [call (path "settle") [bool true]])]

theorem Tree.run_loads_assigned_settling : settling.orderly false [] = true ∧
    ∃ program start, settling.compile = .ok program ∧ create Heap.defaultDigest program 1000 = .ok start ∧
      ∀ limits fuel, (run limits fuel start).1.unassignedAt .load = false := by
  have horderly : settling.orderly false [] = true := by decide
  obtain ⟨program, hprogram, hlength⟩ := Tree.compile_of_length (t := settling) (n := 60) (by decide +kernel)
  obtain ⟨start, hstart⟩ := create_ok Heap.defaultDigest program 1000 (by decide) (by decide)
  exact ⟨horderly, program, start, hprogram, hstart,
    Tree.run_loads_assigned horderly hprogram (by omega) hstart⟩

/-- A program that reads a variable which only the body of a loop gives a value, and that body never runs. -/
def Tree.gainingInLoop : Tree :=
  crate
    [function "main" [] "bool" (block
      [letStatement "x" true "bool" .absent,
       statement (loop (bool false) (block [statement (assignment (path "x") (bool true))])),
       path "x"])]

/-- It compiles, and its run ends because the variable has no value. -/
theorem Tree.gainingInLoop_unassigned : ∃ program start, gainingInLoop.compile = .ok program ∧
    create Heap.defaultDigest program 1000 = .ok start ∧ (run {} 100 start).1.unassignedAt .load = true := by
  obtain ⟨program, hprogram, hends⟩ := Tree.compile_of_any (t := gainingInLoop)
    (p := fun program => endsWith program 1000 100 (Outcome.unassignedAt .load)) (by decide +kernel)
  obtain ⟨start, hstart, hends⟩ := of_endsWith hends
  exact ⟨program, start, hprogram, hstart, hends⟩

/-- Every dereference of an orderly program finds a value, in a heap of any size, as long as no reference outlives the block
of the variable that it leads to: the evaluation reads only variables of blocks and calls that have not been left. References
may be assigned, returned, and given by blocks and branches. -/
theorem Tree.run_dereferences_assigned {t : Tree} {program : Program} (horderly : t.orderly false [] = true)
    (hopen : ∀ fuel, t.staysOpen fuel = true) (h : t.compile = .ok program) (hsize : program.length < 2 ^ 63)
    {digest : Text → UInt64} {words : Int} {start : Machine} (hstart : create digest program words = .ok start)
    (limits : Limits) (fuel : Nat) : (run limits fuel start).1.unassignedAt .dereference = false := by
  obtain ⟨code, hcode, rfl⟩ := Tree.compile_eq_ok h
  replace hsize : code.length < 2 ^ 63 := by simpa [Emissions.program] using hsize
  by_contra hends
  obtain ⟨pc, i, pos, hrun, -⟩ := Outcome.unassignedAt_iff.mp (Bool.eq_true_of_not_eq_false hends)
  rcases Tree.guarded_of_unassigned hcode hsize hstart .all hrun with
    (⟨-, hloads⟩ | ⟨-, hreferences⟩) | ⟨x, fuel', err, σ, hx, heval, herr⟩
  · cases hloads
  · cases hreferences
  · rcases herr with rfl | ⟨pos', rfl⟩
    · exact (Tree.guarded_assigned hcode (Tree.orderly_items hcode horderly) hx heval).1 pos rfl
    · exact Tree.not_refused_of_staysOpen (hopen fuel') hx heval pos' rfl

/-- A program in which a block and a branch give references to variables further out, a function returns the reference that
it is given, and a variable is assigned one reference after another. -/
def Tree.lendingBack : Tree :=
  crate
    [function "same" [{ name := "r", type := "&bool" }] "&bool" (block [path "r"]),
     function "main" [] "bool" (block
      [letStatement "x" false "" (bool true),
       letStatement "y" false "" (bool false),
       letStatement "r" true "" (block [letStatement "t" false "" (borrow (path "x")), path "t"]),
       letStatement "s" true "" (conditional (dereference (path "r")) (block [borrow (path "y")]) (block [path "r"])),
       statement (assignment (path "s") (call (path "same") [borrow (path "x")])),
       dereference (path "s")])]

theorem Tree.run_dereferences_assigned_lendingBack :
    lendingBack.orderly false [] = true ∧ (∀ fuel, lendingBack.staysOpen fuel = true) ∧
    ∃ program start, lendingBack.compile = .ok program ∧ create Heap.defaultDigest program 1000 = .ok start ∧
      ∀ limits fuel, (run limits fuel start).1.unassignedAt .dereference = false := by
  have horderly : lendingBack.orderly false [] = true := by decide
  have hends : lendingBack.endsOpen 2 = true := by decide +kernel
  have hopen : ∀ fuel, lendingBack.staysOpen fuel = true := Tree.staysOpen_of_endsOpen hends
  obtain ⟨program, hprogram, hlength⟩ := Tree.compile_of_length (t := lendingBack) (n := 56) (by decide +kernel)
  obtain ⟨start, hstart⟩ := create_ok Heap.defaultDigest program 1000 (by decide) (by decide)
  exact ⟨horderly, hopen, program, start, hprogram, hstart,
    Tree.run_dereferences_assigned horderly hopen hprogram (by omega) hstart⟩

/-- A program in which a reference to a variable is assigned to one further out, inside a block of its own. -/
def Tree.lendingOutward : Tree :=
  crate
    [function "main" [] "bool" (block
      [letStatement "a" false "" (bool false),
       letStatement "r" true "" (borrow (path "a")),
       statement (block
         [letStatement "x" false "" (bool true),
          statement (block [statement (assignment (path "r") (borrow (path "x")))])]),
       dereference (path "r")])]

theorem Tree.lendingOutward_ends : ∃ program, lendingOutward.compile = .ok program ∧
    endsWith program 1000 100 (Outcome.unassignedAt .dereference) = true :=
  Tree.compile_of_any (by decide +kernel)

/-- It compiles, and its run ends because the variable was dropped before the reference to it is dereferenced. -/
theorem Tree.lendingOutward_unassigned : ∃ program start, lendingOutward.compile = .ok program ∧
    create Heap.defaultDigest program 1000 = .ok start ∧ (run {} 100 start).1.unassignedAt .dereference = true := by
  obtain ⟨program, hprogram, hends⟩ := lendingOutward_ends
  obtain ⟨start, hstart, hends⟩ := of_endsWith hends
  exact ⟨program, start, hprogram, hstart, hends⟩

end Tenure
