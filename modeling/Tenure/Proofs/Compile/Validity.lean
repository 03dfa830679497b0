import Tenure.Code.Image
import Tenure.Proofs.Compile.Resolution
import Tenure.Proofs.Mirror.Course

/-!
# Emitted code and the check of images

Code that is laid out for a term inside frames that fit in heap nodes consists of few forms of instructions,
`Instr.Emitted`: targets stay inside the code because they are computed from the lengths of its parts, positions and
scopes stay small because no frame is opened that would not fit. All of these pass the check of images but calls. The
number of arguments of a call is not limited by any frame, since a function type may have any number of parameters. So a
compiled program passes the check exactly if none of its calls has more arguments than a frame has slots:
`Tree.compile_valid_iff`.
-/

set_option autoImplicit false

namespace Tenure

/-- Frames and an environment that fit in heap nodes. -/
structure Fitting (shape : List Nat) : Prop where
  length : shape.length ≤ maxFrames
  slots : ∀ n ∈ shape, n ≤ maxFrameSlots

/-- One more frame fits wherever the compiler opens one. -/
theorem Fitting.open {shape : List Nat} {n : Nat} (h : Fitting shape) (hopens : Opens shape n) :
    Fitting (shape ++ [n]) where
  length := by simpa using hopens.2
  slots m hm := by
    rcases List.mem_append.1 hm with hm | hm
    · exact h.slots m hm
    · exact List.mem_singleton.1 hm ▸ hopens.1

/-- What the check of images asks of an instruction of an operation. -/
theorem Instr.validate_eq_ok_iff {i : Instr} {o : Operation} (ho : i.op.operation? = some o) (size : Nat) :
    i.validate size = .ok () ↔
      (o.usesAddress = true → 0 ≤ i.addr ∧ i.addr ≤ size) ∧
      (o.usesPosition = true →
        0 ≤ i.pos.frame ∧ i.pos.frame < maxFrames ∧ 0 ≤ i.pos.slot ∧ i.pos.slot < maxFrameSlots) ∧
      (o = .enterScope → 0 ≤ i.num ∧ i.num ≤ maxFrameSlots) ∧ (o = .call → 0 ≤ i.arity ∧ i.arity ≤ maxFrameSlots) := by
  simp only [validate, ho]
  split
  next h => exact iff_of_false nofun fun hall => by have := hall.1 h.1; omega
  split
  next h => exact iff_of_false nofun fun hall => by have := hall.2.1 h.1; omega
  split
  next h => exact iff_of_false nofun fun hall => by have := hall.2.2.1 h.1; omega
  split
  next h => exact iff_of_false nofun fun hall => by have := hall.2.2.2 h.1; omega
  next haddress hposition hscope hcall =>
    refine iff_of_true rfl ⟨fun h => ?_, fun h => ?_, fun h => ?_, fun h => ?_⟩
    · have := not_and.1 haddress h
      omega
    · have := not_and.1 hposition h
      omega
    · have := not_and.1 hscope h
      omega
    · have := not_and.1 hcall h
      omega

/-- A position of a slot of a frame that fits in a heap node, in an environment that does. -/
def Position.Fits (p : Position) : Prop :=
  ∃ frame slot : Nat, p = Environment.positionOf frame slot ∧ frame < maxFrames ∧ slot < maxFrameSlots

/-- A slot inside frames that fit has such a position. -/
theorem Fitting.position {shape : List Nat} {frame slot : Nat} (h : Fitting shape) (hwithin : Within shape frame slot) :
    (Environment.positionOf frame slot).Fits := by
  obtain ⟨n, hn, hslot⟩ := hwithin
  exact ⟨frame, slot, rfl, (List.getElem?_eq_some_iff.1 hn).1.trans_le h.length,
    hslot.trans_le (h.slots n (List.mem_of_getElem? hn))⟩

/-- The operations that are emitted without operands. -/
def Operation.isBare : Operation → Bool
  | .pop | .reset | .exitScope | .dereference | .updateReference | .done => true
  | _ => false

/-- The forms of the instructions of a program of a size. -/
inductive Instr.Emitted (size : Nat) : Instr → Prop where
  | bare {o : Operation} (ho : o.isBare = true) : Emitted size (.plain o)
  | constant {l : Literal} (hl : l.Known) : Emitted size (.loadConstant l)
  | load {p : Position} (hp : p.Fits) : Emitted size (.load p)
  | assign {p : Position} (hp : p.Fits) : Emitted size (.assign p)
  | drop {p : Position} (hp : p.Fits) : Emitted size (.drop p)
  | reference {p : Position} {mutable : Bool} (hp : p.Fits) : Emitted size (.reference p mutable)
  | unary {symbol : Text} : Emitted size (.unary symbol)
  | binary {symbol : Text} : Emitted size (.binary symbol)
  | jumpUnless {target : Nat} (htarget : target ≤ size) : Emitted size (.jumpUnless target)
  | jump {target : Nat} (htarget : target ≤ size) : Emitted size (.jump target)
  | loadFunction {arity entry : Nat} (harity : arity ≤ maxFrameSlots) (hentry : entry ≤ size) :
      Emitted size (.loadFunction arity entry)
  | enterScope {slots : Nat} (hslots : slots ≤ maxFrameSlots) : Emitted size (.enterScope slots)
  /-- A call has its arguments computed in front of it. -/
  | call {arity : Nat} (harity : arity ≤ size) : Emitted size (.call arity)

/-- An instruction passes the check of images, unless it is a call with too many arguments. -/
def Instr.Passes (i : Instr) (size : Nat) : Prop :=
  i.validate size = .ok () ∨ ∃ n : Nat, maxFrameSlots < n ∧ i = .call n

namespace Instr.Passes

variable {size : Nat}

/-- An instruction without operands to check. -/
theorem of_operation {i : Instr} {o : Operation} (ho : i.op.operation? = some o) (haddress : o.usesAddress = false)
    (hposition : o.usesPosition = false) (hscope : o ≠ .enterScope) (hcall : o ≠ .call) : i.Passes size := by
  left
  rw [validate_eq_ok_iff ho]
  simp [haddress, hposition, hscope, hcall]

/-- An instruction whose address is in the code or right after it. -/
theorem of_target {i : Instr} {o : Operation} {target : Nat} (ho : i.op.operation? = some o)
    (haddress : o.usesAddress = true) (haddr : i.addr = target) (htarget : target ≤ size) : i.Passes size := by
  left
  rw [validate_eq_ok_iff ho, haddr]
  cases o with
  | jumpUnless | jump | loadFunction => simpa [haddress, Operation.usesPosition] using htarget
  | _ => cases haddress

/-- An instruction with a position of a slot that fits. -/
theorem of_position {i : Instr} {o : Operation} (ho : i.op.operation? = some o) (hposition : o.usesPosition = true)
    (hpos : i.pos.Fits) : i.Passes size := by
  left
  obtain ⟨frame, slot, hpos, hframe, hslot⟩ := hpos
  rw [validate_eq_ok_iff ho, hpos]
  cases o with
  | load | assign | drop | reference =>
    simp [Operation.usesAddress, Operation.isJump, Environment.positionOf, hframe, hslot]
  | _ => cases hposition

theorem enterScope {n : Nat} (h : n ≤ maxFrameSlots) : (Instr.enterScope n).Passes size := by
  left
  rw [validate_eq_ok_iff (o := .enterScope) rfl]
  simpa [Operation.usesAddress, Operation.isJump, Operation.usesPosition, Instr.enterScope] using h

theorem call (n : Nat) : (Instr.call n).Passes size := by
  by_cases h : n ≤ maxFrameSlots
  · left
    rw [validate_eq_ok_iff (o := .call) rfl]
    simpa [Operation.usesAddress, Operation.isJump, Operation.usesPosition, Instr.call] using h
  · exact .inr ⟨n, by omega, rfl⟩

end Instr.Passes

/-- What is emitted passes. -/
theorem Instr.Emitted.passes {i : Instr} {size : Nat} (h : i.Emitted size) : i.Passes size := by
  cases h with
  | @bare o ho =>
    cases o with
    | pop => exact .of_operation (o := .pop) rfl rfl rfl nofun nofun
    | reset => exact .of_operation (o := .reset) rfl rfl rfl nofun nofun
    | exitScope => exact .of_operation (o := .exitScope) rfl rfl rfl nofun nofun
    | dereference => exact .of_operation (o := .dereference) rfl rfl rfl nofun nofun
    | updateReference => exact .of_operation (o := .updateReference) rfl rfl rfl nofun nofun
    | done => exact .of_operation (o := .done) rfl rfl rfl nofun nofun
    | _ => cases ho
  | constant hl => exact .of_operation (o := .loadConstant) rfl rfl rfl nofun nofun
  | load hp => exact .of_position (o := .load) rfl rfl hp
  | assign hp => exact .of_position (o := .assign) rfl rfl hp
  | drop hp => exact .of_position (o := .drop) rfl rfl hp
  | reference hp => exact .of_position (o := .reference) rfl rfl hp
  | unary => exact .of_operation (o := .unary) rfl rfl rfl nofun nofun
  | binary => exact .of_operation (o := .binary) rfl rfl rfl nofun nofun
  | jumpUnless htarget => exact .of_target (o := .jumpUnless) rfl rfl rfl htarget
  | jump htarget => exact .of_target (o := .jump) rfl rfl rfl htarget
  | loadFunction harity hentry => exact .of_target (o := .loadFunction) rfl rfl rfl hentry
  | enterScope hslots => exact .enterScope hslots
  | call harity => exact .call _

namespace Layout

variable {shape : List Nat} {size : Nat}

theorem emitted_drops {code : Emissions} (hshape : Fitting shape) (h : Drops shape code) :
    ∀ e ∈ code, e.instr.Emitted size := by
  intro e he
  obtain ⟨-, slot, hwithin, hinstr⟩ := h e he
  exact hinstr ▸ .drop (hshape.position hwithin)

/-- All code of a term is emitted into a program that is at least as long as the code reaches. -/
theorem emitted {n : Nat} {t : Term n} {start : Nat} {code : Emissions} (h : Layout t shape start code)
    (hshape : Fitting shape) (hsize : start + code.length ≤ size) : ∀ e ∈ code, e.instr.Emitted size := by
  -- Each case splits the code into the parts that the layout names; the parts are inside the program as the whole is.
  induction t generalizing shape start code with
  | nothing =>
    obtain rfl : code = [] := h
    simp
  | seq first rest ihf ihr | also first rest ihf ihr =>
    obtain ⟨one, two, rfl, hone, htwo⟩ := h
    rw [List.length_append] at hsize
    exact List.forall_mem_append.2 ⟨ihf hone hshape (by omega), ihr htwo hshape (by omega)⟩
  | constant l =>
    obtain ⟨hl, env, rfl⟩ := h
    exact List.forall_mem_singleton.2 (.constant hl)
  | load frame slot =>
    obtain ⟨hwithin, env, -, rfl⟩ := h
    exact List.forall_mem_singleton.2 (.load (hshape.position hwithin))
  | store frame slot value ih =>
    obtain ⟨hwithin, one, env, env', rfl, -, hone⟩ := h
    rw [List.length_append] at hsize
    exact List.forall_mem_append.2 ⟨ih hone hshape (by omega), List.forall_mem_cons.2
      ⟨.assign (hshape.position hwithin), List.forall_mem_singleton.2 (.bare rfl)⟩⟩
  | discard value ih =>
    obtain ⟨one, env, rfl, hone⟩ := h
    rw [List.length_append] at hsize
    exact List.forall_mem_append.2 ⟨ih hone hshape (by omega), List.forall_mem_singleton.2 (.bare rfl)⟩
  | unary symbol operand ih =>
    obtain ⟨one, env, rfl, hone⟩ := h
    rw [List.length_append] at hsize
    exact List.forall_mem_append.2 ⟨ih hone hshape (by omega), List.forall_mem_singleton.2 .unary⟩
  | binary symbol left right ihl ihr =>
    obtain ⟨one, two, env, rfl, hone, htwo⟩ := h
    simp only [List.length_append] at hsize
    simp only [List.forall_mem_append, List.forall_mem_singleton]
    exact ⟨⟨ihl hone hshape (by omega), ihr htwo hshape (by omega)⟩, .binary⟩
  | conditional condition thenBranch elseBranch ihc iht ihe =>
    obtain ⟨test, one, two, env, env', rfl, htest, hone, htwo⟩ := h
    simp only [List.length_append, List.length_cons, List.length_nil] at hsize
    simp only [List.forall_mem_append, List.forall_mem_singleton]
    exact ⟨⟨⟨⟨ihc htest hshape (by omega), .jumpUnless (by omega)⟩, iht hone hshape (by omega)⟩, .jump (by omega)⟩,
      ihe htwo hshape (by omega)⟩
  | loop condition body ihc ihb =>
    obtain ⟨test, one, env, env', env'', env''', rfl, htest, hone⟩ := h
    simp only [List.length_append, List.length_cons, List.length_nil] at hsize
    simp only [List.forall_mem_append, List.forall_mem_cons, List.not_mem_nil, false_imp_iff, implies_true, and_true]
    exact ⟨⟨⟨ihc htest hshape (by omega), .jumpUnless (by omega)⟩, ihb hone hshape (by omega)⟩, .bare rfl,
      .jump (by omega), .constant .unit⟩
  | call callee arguments ihc iha =>
    obtain ⟨one, two, env, rfl, hone, htwo⟩ := h
    have harguments := htwo.width_le
    simp only [List.length_append] at hsize
    simp only [List.forall_mem_append, List.forall_mem_singleton]
    exact ⟨⟨ihc hone hshape (by omega), iha htwo hshape (by omega)⟩, .call (by omega)⟩
  | returning value ih =>
    obtain ⟨one, env, rfl, hone⟩ := h
    rw [List.length_append] at hsize
    exact List.forall_mem_append.2 ⟨ih hone hshape (by omega), List.forall_mem_singleton.2 (.bare rfl)⟩
  | borrow frame slot mutable =>
    obtain ⟨hwithin, env, -, rfl⟩ := h
    exact List.forall_mem_singleton.2 (.reference (hshape.position hwithin))
  | dereference reference ih =>
    obtain ⟨one, env, rfl, hone⟩ := h
    rw [List.length_append] at hsize
    exact List.forall_mem_append.2 ⟨ih hone hshape (by omega), List.forall_mem_singleton.2 (.bare rfl)⟩
  | update reference value ihr ihv =>
    obtain ⟨one, two, env, rfl, hone, htwo⟩ := h
    simp only [List.length_append] at hsize
    simp only [List.forall_mem_append, List.forall_mem_singleton]
    exact ⟨⟨ihr hone hshape (by omega), ihv htwo hshape (by omega)⟩, .bare rfl⟩
  | scope slots body ih =>
    obtain ⟨hopens, one, drops, env, env', rfl, hone, hdrops⟩ := h
    have hinner := hshape.open hopens
    simp only [List.length_append, List.length_cons, List.length_nil] at hsize
    simp only [List.forall_mem_append, List.forall_mem_singleton]
    exact ⟨⟨⟨.enterScope hopens.1, ih hone hinner (by omega)⟩, emitted_drops hinner hdrops⟩, .bare rfl⟩
  | closure arity body ih =>
    obtain ⟨hopens, one, drops, env, env', env'', rfl, hone, hdrops⟩ := h
    have hinner := hshape.open hopens
    simp only [List.length_append, List.length_cons, List.length_nil] at hsize
    simp only [List.forall_mem_append, List.forall_mem_cons, List.not_mem_nil, false_imp_iff, implies_true, and_true]
    refine ⟨⟨.loadFunction hopens.1 (by omega), .jump ?_⟩,
      ⟨ih hone hinner (by omega), emitted_drops hinner hdrops⟩, .bare rfl⟩
    simp only [List.length_append, List.length_cons, List.length_nil]
    omega

end Layout

/-- The forms of the instructions of a compiled program. -/
theorem Tree.emissions_emitted {t : Tree} {code : Emissions} (h : t.emissions = .ok code) :
    ∀ e ∈ code, e.instr.Emitted code.length := by
  obtain ⟨x, one, env, -, rfl, hlayout, -⟩ := Tree.emissions_layout h
  have hshape : Fitting [Builtin.names.length] := ⟨by decide, by decide⟩
  exact List.forall_mem_append.2 ⟨hlayout.emitted hshape (by simp), List.forall_mem_singleton.2 (.bare rfl)⟩

theorem Tree.compile_emitted {t : Tree} {program : Program} (h : t.compile = .ok program) :
    ∀ i ∈ program, i.Emitted program.length := by
  obtain ⟨code, hcode, rfl⟩ := Tree.compile_eq_ok h
  have hlength : code.program.length = code.length := by simp [Emissions.program]
  intro i hi
  obtain ⟨e, he, rfl⟩ := List.mem_map.1 hi
  exact hlength ▸ Tree.emissions_emitted hcode e he

/-- A compiled program passes the check of images, instruction by instruction, exactly if no call in it has more
arguments than a frame has slots. Opcodes, targets, positions and the sizes of scopes always pass. -/
theorem Tree.compile_valid_iff {t : Tree} {program : Program} (h : t.compile = .ok program) :
    (∀ i ∈ program, i.validate program.length = .ok ()) ↔ ∀ n : Nat, Instr.call n ∈ program → n ≤ maxFrameSlots := by
  constructor
  · intro hvalid n hn
    have hcall := (Instr.validate_eq_ok_iff (o := .call) rfl _).1 (hvalid _ hn)
    exact Int.ofNat_le.1 (hcall.2.2.2 rfl).2
  · intro hcalls i hi
    rcases (Tree.compile_emitted h i hi).passes with hvalid | ⟨n, hn, hcall⟩
    · exact hvalid
    · exact absurd (hcalls n (hcall ▸ hi)) (Nat.not_le.2 hn)

/-- The choosing program passes the check of images. -/
theorem Tree.chooser_valid : ∃ program, chooser.compile = .ok program ∧
    ∀ i ∈ program, i.validate program.length = .ok () := by
  obtain ⟨program, hprogram, hcalls⟩ := Tree.compile_of_any (t := chooser)
    (p := fun program => program.all fun i => i.arity ≤ maxFrameSlots) (by decide +kernel)
  refine ⟨program, hprogram, (Tree.compile_valid_iff hprogram).2 fun n hn => ?_⟩
  have harity := of_decide_eq_true (List.all_eq_true.1 hcalls _ hn)
  exact Int.ofNat_le.1 harity

/-- A program that calls a function of ten parameters. No item can be such a function, but a parameter can have its
type. -/
def Tree.wideCall : Tree :=
  crate
    [function "apply" [{ name := "f", type := "fn(i32, i32, i32, i32, i32, i32, i32, i32, i32, i32) -> i32" }] "i32"
      (block [call (path "f") ((List.range 10).map fun n => int n)]),
     function "main" [] "i32" (block [int 0])]

/-- The program with a call of ten arguments compiles to code that does not pass the check of images. -/
theorem Tree.wideCall_not_valid : ∃ program, wideCall.compile = .ok program ∧
    ∃ i ∈ program, i.validate program.length = .error (.arity 10) := by
  obtain ⟨program, hprogram, hcall⟩ := Tree.compile_of_any (t := wideCall)
    (p := fun program => program.contains (.call 10)) (by decide +kernel)
  exact ⟨program, hprogram, .call 10, by simpa using hcall, rfl⟩

end Tenure
