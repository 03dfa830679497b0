import Tenure.Proofs.Simulation.Instructions

/-!
# Code simulates the evaluation of its term

The code of a term, executed by the endless machine, does what the guarded evaluation of the term does, whatever the
guard. There is one lemma for each form of terms; `Term.guardedWith_correct` puts them together by induction on the
term, and `Term.guarded_correct` adds the induction on the fuel, which calls and the rounds of loops use up. The frame
of a scope and that of a call are open until their slots are dropped.
-/

set_option autoImplicit false

namespace Tenure

open Endless

/-- A state at the start of code, in an environment of frames and inside a function. -/
structure Ready (code : Emissions) (opened : List Nat) (base : Base) (W : World) (σ : Store) (s : Endless)
    (env shape : List Nat) (start : Nat) : Prop where
  agrees : W.Agrees code opened σ s.objs
  env : W.EnvAt s.objs env shape s.env
  pc : s.pc = start
  inside : Inside base s

/-- The state at the end of the code of a term, with its values on top of the operands. -/
def Leaves {n : Nat} (code : Emissions) (s : Endless) (stop : Nat) (vs : Values n) (W' : World) (_ : Store)
    (s' : Endless) : Prop :=
  s'.pc = stop ∧ s'.env = s.env ∧ s'.frames = s.frames ∧
    ∃ as, List.Forall₂ (W'.Shows code s'.objs) vs.toList as ∧ s'.operands = as.reverse ++ s.operands

/-- The code of a term simulates an evaluation of it in an environment, while some frames are open. -/
def Correct (code : Emissions) (g : Guard) (fuel : Nat) {n : Nat} (t : Term n)
    (x : List Nat → List Nat → Eval (Values n)) : Prop :=
  ∀ ⦃shape start piece opened base W σ s env⦄, Layout t shape start piece → Segment code start piece →
    Ready code opened base W σ s env shape start →
    Simulates code g opened base fuel W σ s (x env opened) (Leaves code s (start + piece.length))

variable {code : Emissions} {g : Guard} {opened : List Nat} {base : Base} {fuel : Nat} {W W' : World} {σ σ' : Store}
  {s s' : Endless} {env shape : List Nat} {start : Nat}

/-- Fewer frames may be open. -/
theorem Ready.close {inner : List Nat} (h : Ready code inner base W σ s env shape start) (hsub : opened ⊆ inner) :
    Ready code opened base W σ s env shape start :=
  ⟨h.agrees.close hsub, h.env, h.pc, h.inside⟩

theorem Inside.mono (h : Inside base s) (hg : Grows s.objs s'.objs) (ho : s.operands <:+ s'.operands)
    (hf : s'.frames = s.frames) : Inside base s' := by
  obtain ⟨hops, blocks, hblocks, hb⟩ := h
  refine ⟨hops.trans ho, blocks, hf.trans hblocks, fun b hmem => ?_⟩
  obtain ⟨links, hl⟩ := hb b hmem
  exact ⟨links, hg.get hl (by simp)⟩

/-- A later state in the same environment and function. -/
theorem Ready.later (h : Ready code opened base W σ s env shape start) (s' : Endless)
    (he : Extends code opened W s.objs W' σ' s'.objs) (henv : s'.env = s.env) (hframes : s'.frames = s.frames)
    (hops : s.operands <:+ s'.operands) {stop : Nat} (hpc : s'.pc = stop) : Ready code opened base W' σ' s' env shape stop where
  agrees := he.agrees
  env := henv ▸ h.env.mono he.le he.grows
  pc := hpc
  inside := h.inside.mono he.grows hops hframes

namespace Leaves

variable {stop : Nat}

theorem one {vs : Values 1} : Leaves code s stop vs W' σ' s' ↔
    s'.pc = stop ∧ s'.env = s.env ∧ s'.frames = s.frames ∧
      ∃ a, W'.Shows code s'.objs vs.head a ∧ s'.operands = a :: s.operands := by
  have htoList : vs.toList = [vs.head] := by
    rw [← List.Vector.cons_head_tail vs, List.Vector.toList_cons]
    simp
  unfold Leaves
  rw [htoList]
  constructor
  · rintro ⟨hpc, henv, hframes, as, has, hops⟩
    obtain ⟨a, _, ha, hrest, rfl⟩ := List.forall₂_cons_left_iff.mp has
    cases hrest
    exact ⟨hpc, henv, hframes, a, ha, by simpa using hops⟩
  · rintro ⟨hpc, henv, hframes, a, ha, hops⟩
    exact ⟨hpc, henv, hframes, [a], .cons ha .nil, by simpa using hops⟩

theorem zero {vs : Values 0} : Leaves code s stop vs W' σ' s' ↔
    s'.pc = stop ∧ s'.env = s.env ∧ s'.frames = s.frames ∧ s'.operands = s.operands := by
  have htoList : vs.toList = [] := List.eq_nil_of_length_eq_zero vs.toList_length
  unfold Leaves
  rw [htoList]
  constructor
  · rintro ⟨hpc, henv, hframes, as, has, hops⟩
    cases has
    exact ⟨hpc, henv, hframes, by simpa using hops⟩
  · rintro ⟨hpc, henv, hframes, hops⟩
    exact ⟨hpc, henv, hframes, [], .nil, by simpa using hops⟩

/-- The state after one term is ready for the next one. -/
theorem ready {n : Nat} {vs : Values n} (h : Leaves code s stop vs W' σ' s')
    (hr : Ready code opened base W σ s env shape start) (he : Extends code opened W s.objs W' σ' s'.objs) :
    Ready code opened base W' σ' s' env shape stop := by
  obtain ⟨hpc, henv, hframes, as, -, hops⟩ := h
  exact hr.later s' he henv hframes ⟨as.reverse, hops.symm⟩ hpc

end Leaves

variable {lower : Term 1 → List Nat → List Nat → Eval (Values 1)}

/-! ## Sequences -/

theorem nothing_correct : Correct code g fuel .nothing (Term.nothing.guardedWith g lower) := by
  rintro shape start _ opened base W σ s env rfl - hr
  exact .pure hr.agrees (Leaves.zero.mpr ⟨by simpa using hr.pc, rfl, rfl, rfl⟩)

theorem seq_correct {n : Nat} {first : Term 0} {rest : Term n}
    (hf : Correct code g fuel first (first.guardedWith g lower))
    (hs : Correct code g fuel rest (rest.guardedWith g lower)) :
    Correct code g fuel (.seq first rest) ((Term.seq first rest).guardedWith g lower) := by
  rintro shape start _ opened base W σ s env ⟨one, two, rfl, hone, htwo⟩ hseg hr
  rw [Segment.append] at hseg
  refine (hf hone hseg.1 hr).bind fun v W₁ σ₁ s₁ he₁ h₁ => ?_
  refine (hs htwo hseg.2 (h₁.ready hr he₁)).imp fun vs W₂ σ₂ s₂ he₂ h₂ => ?_
  obtain ⟨-, henv₁, hframes₁, hops₁⟩ := Leaves.zero.mp h₁
  obtain ⟨hpc, henv, hframes, as, has, hops⟩ := h₂
  refine ⟨by rw [hpc, List.length_append, Nat.add_assoc], henv.trans henv₁, hframes.trans hframes₁, as, has, ?_⟩
  rw [hops, hops₁]

theorem also_correct {n : Nat} {first : Term 1} {rest : Term n}
    (hf : Correct code g fuel first (first.guardedWith g lower))
    (hs : Correct code g fuel rest (rest.guardedWith g lower)) :
    Correct code g fuel (.also first rest) ((Term.also first rest).guardedWith g lower) := by
  rintro shape start _ opened base W σ s env ⟨one, two, rfl, hone, htwo⟩ hseg hr
  rw [Segment.append] at hseg
  refine (hf hone hseg.1 hr).bind fun v W₁ σ₁ s₁ he₁ h₁ => ?_
  refine (hs htwo hseg.2 (h₁.ready hr he₁)).bind fun vs W₂ σ₂ s₂ he₂ h₂ => ?_
  obtain ⟨-, henv₁, hframes₁, a, ha, hops₁⟩ := Leaves.one.mp h₁
  obtain ⟨hpc, henv, hframes, as, has, hops⟩ := h₂
  refine .pure he₂.agrees ⟨by rw [hpc, List.length_append, Nat.add_assoc], henv.trans henv₁, hframes.trans hframes₁,
    a :: as, ?_, ?_⟩
  · rw [List.Vector.toList_cons]
    exact .cons (ha.mono he₂.le he₂.grows) has
  · rw [hops, hops₁]
    simp

/-! ## Values -/

/-- An instruction that gives a value, as the end of the code of a term. -/
theorem gives_leaves {x : Eval Value} {t : Endless} {stop : Nat} (s' : Endless)
    (h : Simulates code g opened base fuel W σ s x (Gives code t)) (hpc : t.pc = stop) (henv : t.env = s'.env)
    (hframes : t.frames = s'.frames) (hops : t.operands = s'.operands) :
    Simulates code g opened base fuel W σ s (do return .cons (← x) .nil : Eval (Values 1)) (Leaves code s' stop) := by
  refine h.bind fun v W₁ σ₁ s₁ he₁ h₁ => .pure he₁.agrees (Leaves.one.mpr ?_)
  obtain ⟨hpc₁, henv₁, hframes₁, a, ha, hops₁⟩ := h₁
  exact ⟨hpc₁.trans hpc, henv₁.trans henv, hframes₁.trans hframes, a, by simpa using ha, by rw [hops₁, hops]⟩

theorem constant_correct {l : Literal} : Correct code g fuel (.constant l) ((Term.constant l).guardedWith g lower) := by
  rintro shape start _ opened base W σ s env ⟨hl, env', rfl⟩ hseg hr
  rw [Segment.cons, ← hr.pc] at hseg
  exact gives_leaves s (literal_simulates hl hseg.1 hr.agrees) (by simp [next, hr.pc]) rfl rfl rfl

theorem load_correct {frame slot : Nat} :
    Correct code g fuel (.load frame slot) ((Term.load frame slot).guardedWith g lower) := by
  rintro shape start _ opened base W σ s env ⟨hw, env', hshape, rfl⟩ hseg hr
  rw [Segment.cons, ← hr.pc] at hseg
  obtain ⟨c, hc, hl⟩ := hr.env.locates hw
  have hload : Simulates code g opened base fuel W σ s
      (Eval.readOpen g.loads opened c (Environment.positionOf frame slot)) (Gives code s.next) :=
    load_simulates hseg.1 (hr.env.fits hshape) (step_of (o := .load) rfl) rfl hr.agrees hl .inl fun h => .inl ⟨rfl, h⟩
  simp only [Term.guardedWith, hc, pure_bind]
  exact gives_leaves s hload (by simp [next, hr.pc]) rfl rfl rfl

/-- The topmost operand is thrown away. -/
theorem pop_steps {e : Emission} {here : Nat} {a : Address} {rest : List Address} (hpc : s.pc = here)
    (hcode : code[here]? = some e) (he : e.instr = .plain .pop) (hops : s.operands = a :: rest) :
    Steps code 1 s { s.next with operands := rest } := by
  subst hpc
  refine .single (k := 0) hcode (.of_plain (o := .pop) (by rw [he]; rfl) rfl) ?_
  rw [he, step_of (o := .pop) rfl, stepOperation, hops]
  rfl

theorem discard_correct {value : Term 1} (hv : Correct code g fuel value (value.guardedWith g lower)) :
    Correct code g fuel (.discard value) ((Term.discard value).guardedWith g lower) := by
  rintro shape start _ opened base W σ s env ⟨one, env', rfl, hone⟩ hseg hr
  rw [Segment.append, Segment.cons] at hseg
  refine (hv hone hseg.1 hr).bind fun v W₁ σ₁ s₁ he₁ h₁ => ?_
  obtain ⟨hpc, henv, hframes, a, -, hops⟩ := Leaves.one.mp h₁
  have hext : Extends code opened W₁ s₁.objs W₁ σ₁ ({ s₁.next with operands := s.operands } : Endless).objs :=
    .refl he₁.agrees
  refine .ok rfl (pop_steps hpc hseg.2.1 rfl hops) hext (Leaves.zero.mpr ⟨?_, henv, hframes, rfl⟩)
  simp [next, hpc, Nat.add_assoc]

theorem store_correct {frame slot : Nat} {value : Term 1} (hv : Correct code g fuel value (value.guardedWith g lower)) :
    Correct code g fuel (.store frame slot value) ((Term.store frame slot value).guardedWith g lower) := by
  rintro shape start _ opened base W σ s env ⟨hw, one, env', env'', rfl, hshape, hone⟩ hseg hr
  rw [Segment.append, Segment.cons, Segment.cons] at hseg
  refine (hv hone hseg.1 hr).bind fun v W₁ σ₁ s₁ he₁ h₁ => ?_
  have hr₁ := h₁.ready hr he₁
  obtain ⟨hpc, henv, hframes, a, ha, hops⟩ := Leaves.one.mp h₁
  rw [← hpc] at hseg
  obtain ⟨c, hc, hl⟩ := hr₁.env.locates hw
  obtain ⟨σ₂, later, hset, hwrite, hext⟩ := setCell?_of_locates (t := s₁.next) hr₁.agrees hl ha
  -- the value stays on top of the operands after the assignment
  have hassign : Steps code 1 s₁ { s₁.next with objs := later } := by
    refine .single (k := 0) hseg.2.1 (hr₁.env.fits hshape) ?_
    rw [step_of (o := .assign) rfl, stepOperation, hops]
    simp [Instr.assign, hset, Effect.ok]
  have hpop : Steps code 1 { s₁.next with objs := later } _ := pop_steps rfl hseg.2.2.1 rfl hops
  refine .ok (a := .nil) (n := 2) ?_ (hassign.trans hpop) hext (Leaves.zero.mpr ⟨?_, henv, hframes, rfl⟩)
  · simp only [hc, pure_bind]
    show EStateM.bind _ _ _ = _
    rw [EStateM.bind, hwrite]
    rfl
  · simp [next, hpc, Nat.add_assoc]

theorem unary_correct {symbol : Text} {operand : Term 1}
    (hv : Correct code g fuel operand (operand.guardedWith g lower)) :
    Correct code g fuel (.unary symbol operand) ((Term.unary symbol operand).guardedWith g lower) := by
  rintro shape start _ opened base W σ s env ⟨one, env', rfl, hone⟩ hseg hr
  rw [Segment.append, Segment.cons] at hseg
  refine (hv hone hseg.1 hr).bind fun v W₁ σ₁ s₁ he₁ h₁ => ?_
  obtain ⟨hpc, henv, hframes, a, ha, hops⟩ := Leaves.one.mp h₁
  rw [← hpc] at hseg
  have hstep : s₁.step (.unary symbol) =
      some (({ s₁.next with operands := s.operands } : Endless).result (Operand.unary symbol v.head.operand)) := by
    rw [step_of (o := .unary) rfl, stepOperation, hops]
    simp [Instr.unary, operand?_of_shows he₁.agrees ha]
  refine gives_leaves s (result_simulates hseg.2.1 (.of_plain (o := .unary) rfl rfl) hstep rfl he₁.agrees) ?_ henv
    hframes rfl
  simp [next, hpc, Nat.add_assoc]

theorem binary_correct {symbol : Text} {left right : Term 1} (hl : Correct code g fuel left (left.guardedWith g lower))
    (hr' : Correct code g fuel right (right.guardedWith g lower)) :
    Correct code g fuel (.binary symbol left right) ((Term.binary symbol left right).guardedWith g lower) := by
  rintro shape start _ opened base W σ s env ⟨one, two, env', rfl, hone, htwo⟩ hseg hr
  rw [Segment.append, Segment.append, Segment.cons] at hseg
  refine (hl hone hseg.1.1 hr).bind fun v W₁ σ₁ s₁ he₁ h₁ => ?_
  refine (hr' htwo hseg.1.2 (h₁.ready hr he₁)).bind fun w W₂ σ₂ s₂ he₂ h₂ => ?_
  obtain ⟨-, henv₁, hframes₁, a, ha, hops₁⟩ := Leaves.one.mp h₁
  obtain ⟨hpc, henv, hframes, b, hb, hops⟩ := Leaves.one.mp h₂
  replace ha := ha.mono he₂.le he₂.grows
  rw [List.length_append, ← Nat.add_assoc, ← hpc] at hseg
  have hstep : s₂.step (.binary symbol) = some (({ s₂.next with operands := s.operands } : Endless).result
      (Operand.binary symbol (v.head.same w.head) v.head.operand w.head.operand)) := by
    rw [step_of (o := .binary) rfl, stepOperation, hops, hops₁, ← binary_of_shows he₂.agrees symbol ha hb]
    simp [Instr.binary, operand?_of_shows he₂.agrees ha, operand?_of_shows he₂.agrees hb]
  refine gives_leaves s (result_simulates hseg.2.1 (.of_plain (o := .binary) rfl rfl) hstep rfl he₂.agrees) ?_
    (henv.trans henv₁) (hframes.trans hframes₁) rfl
  simp [next, hpc, Nat.add_assoc]

theorem borrow_correct {frame slot : Nat} {mutable : Bool} :
    Correct code g fuel (.borrow frame slot mutable) ((Term.borrow frame slot mutable).guardedWith g lower) := by
  rintro shape start _ opened base W σ s env ⟨hw, env', hshape, rfl⟩ hseg hr
  rw [Segment.cons, ← hr.pc] at hseg
  obtain ⟨c, hc, hl⟩ := hr.env.locates hw
  obtain ⟨f, links, cells, cell, a, hf, -, ho, -, -, ha, -, hslot⟩ := hl.slot hr.agrees
  have hcell : s.cell? s.env (Environment.positionOf frame slot) = some a := by
    simp [cell?, hf, ho, Obj.link?, hslot, ha]
  have hstep : s.step (.reference (Environment.positionOf frame slot) mutable) =
      some (.made (s.next.create ⟨.reference (Environment.positionOf frame slot) mutable, [s.env]⟩)) := by
    rw [step_of (o := .reference) rfl, stepOperation]
    simp [Instr.reference, hcell]
  have hcreate : Simulates code g opened base fuel W σ s
      (do return .reference (← Eval.stamp) mutable c (Environment.positionOf frame slot) : Eval Value)
      (Gives code s.next) :=
    create_simulates (v := .reference σ.stamps mutable c (Environment.positionOf frame slot)) hseg.1
      (hr.env.fits hshape) hstep rfl rfl hr.agrees (by simp)
      fun W' later hle hg hs ho => ⟨hs, s.env, ho, hl.mono hle hg⟩
  have hleaves : Simulates code g opened base fuel W σ s _ (Leaves code s (start + 1)) :=
    gives_leaves s hcreate (by simp [next, hr.pc]) rfl rfl rfl
  simp only [Term.guardedWith, hc, pure_bind, bind_assoc] at hleaves ⊢
  exact hleaves

/-- A machine that finds no reference where it needs one says so. -/
theorem dereference_fails {v : Value} {a : Address} {rest : List Address} (hA : W.Agrees code opened σ s.objs)
    (ha : W.Shows code s.objs v a) (hops : s.operands = a :: rest) (hv : v.kind ≠ .reference) :
    s.dereference = some (.fail (.notReference v.kind)) := by
  obtain ⟨⟨c, links⟩, ho, hkind⟩ := kind_of_shows hA ha
  rw [← hkind] at hv ⊢
  rw [dereference, hops]
  simp only [ho, Option.bind_eq_bind, Option.bind_some]
  cases c with
  | reference pos mutable => exact absurd rfl hv
  | _ => rfl

theorem updateReference_fails {v : Value} {a b : Address} {rest : List Address} (hA : W.Agrees code opened σ s.objs)
    (ha : W.Shows code s.objs v a) (hops : s.operands = b :: a :: rest) (hv : v.kind ≠ .reference) :
    s.updateReference = some (.fail (.notReference v.kind)) := by
  obtain ⟨⟨c, links⟩, ho, hkind⟩ := kind_of_shows hA ha
  rw [← hkind] at hv ⊢
  rw [updateReference, hops]
  simp only [ho, Option.bind_eq_bind, Option.bind_some]
  cases c with
  | reference pos mutable => exact absurd rfl hv
  | _ => rfl

theorem dereference_correct {reference : Term 1} (hv : Correct code g fuel reference (reference.guardedWith g lower)) :
    Correct code g fuel (.dereference reference) ((Term.dereference reference).guardedWith g lower) := by
  rintro shape start _ opened base W σ s env ⟨one, env', rfl, hone⟩ hseg hr
  rw [Segment.append, Segment.cons] at hseg
  refine (hv hone hseg.1 hr).bind fun v W₁ σ₁ s₁ he₁ h₁ => ?_
  obtain ⟨hpc, henv, hframes, a, ha, hops⟩ := Leaves.one.mp h₁
  rw [← hpc] at hseg
  have hfits : s₁.Fits ⟨.plain .dereference, env'⟩ := .of_plain (o := .dereference) rfl rfl
  have hstep : s₁.step (.plain .dereference) = s₁.next.dereference := step_of (o := .dereference) rfl
  have hfail : v.head.kind ≠ .reference → Fails code s₁ (.notReference v.head.kind) := fun hk =>
    ⟨0, s₁, .refl s₁, _, 0, hseg.2.1, hfits, hstep.trans (dereference_fails (s := s₁.next) he₁.agrees ha hops hk)⟩
  cases hhead : v.head with
  | reference stamp mutable c pos =>
    rw [hhead] at ha
    obtain ⟨-, link, ho, hl⟩ := ha
    have hload : s₁.step (.plain .dereference) = load { s₁.next with operands := s.operands } link pos := by
      rw [hstep, dereference, show s₁.next.operands = _ from hops]
      simp [show s₁.next.objs[a]? = _ from ho]
    have hread : Simulates code g opened base fuel W₁ σ₁ s₁ (Eval.readOpen g.references opened c pos)
        (Gives code { s₁.next with operands := s.operands }) :=
      load_simulates hseg.2.1 hfits hload rfl he₁.agrees hl .inr fun h => .inr ⟨rfl, h⟩
    exact gives_leaves s hread (by simp [next, hpc, Nat.add_assoc]) henv hframes rfl
  | bool b =>
    rw [hhead] at hfail
    exact .failed rfl (hfail (by cases b <;> simp [Value.kind]))
  | _ =>
    rw [hhead] at hfail
    exact .failed rfl (hfail (by simp [Value.kind]))

theorem update_correct {reference value : Term 1} (hv : Correct code g fuel reference (reference.guardedWith g lower))
    (hw : Correct code g fuel value (value.guardedWith g lower)) :
    Correct code g fuel (.update reference value) ((Term.update reference value).guardedWith g lower) := by
  rintro shape start _ opened base W σ s env ⟨one, two, env', rfl, hone, htwo⟩ hseg hr
  rw [Segment.append, Segment.append, Segment.cons] at hseg
  refine (hv hone hseg.1.1 hr).bind fun v W₁ σ₁ s₁ he₁ h₁ => ?_
  refine (hw htwo hseg.1.2 (h₁.ready hr he₁)).bind fun w W₂ σ₂ s₂ he₂ h₂ => ?_
  obtain ⟨-, henv₁, hframes₁, a, ha, hops₁⟩ := Leaves.one.mp h₁
  obtain ⟨hpc, henv, hframes, b, hb, hops⟩ := Leaves.one.mp h₂
  replace ha := ha.mono he₂.le he₂.grows
  rw [hops₁] at hops
  rw [List.length_append, ← Nat.add_assoc, ← hpc] at hseg
  have hfits : s₂.Fits ⟨.plain .updateReference, env'⟩ := .of_plain (o := .updateReference) rfl rfl
  have hstep : s₂.step (.plain .updateReference) = s₂.next.updateReference := step_of (o := .updateReference) rfl
  have hfail : v.head.kind ≠ .reference → Fails code s₂ (.notReference v.head.kind) := fun hk =>
    ⟨0, s₂, .refl s₂, _, 0, hseg.2.1, hfits, hstep.trans (updateReference_fails (s := s₂.next) he₂.agrees ha hops hk)⟩
  cases hhead : v.head with
  | reference stamp mutable c pos =>
    rw [hhead] at ha
    obtain ⟨-, link, ho, hl⟩ := ha
    rw [updateReference, show s₂.next.operands = _ from hops] at hstep
    simp only [show s₂.next.objs[a]? = _ from ho, Option.bind_eq_bind, Option.bind_some] at hstep
    cases mutable with
    | false => exact .failed rfl ⟨0, s₂, .refl s₂, _, 0, hseg.2.1, hfits, hstep⟩
    | true =>
      obtain ⟨σ₃, later, hset, hwrite, hext⟩ :=
        setCell?_of_locates (t := { s₂.next with operands := b :: s.operands }) he₂.agrees hl hb
      simp only [if_pos, List.getElem?_cons_zero, Option.bind_some, hset] at hstep
      refine .ok (a := w) ?_ (.single hseg.2.1 hfits hstep) hext (Leaves.one.mpr ⟨by simp [next, hpc, Nat.add_assoc],
        henv.trans henv₁, hframes.trans hframes₁, b, hb.mono (.refl _) hext.grows, rfl⟩)
      show EStateM.bind _ _ _ = _
      rw [EStateM.bind, hwrite]
      rfl
  | bool b =>
    rw [hhead] at hfail
    exact .failed rfl (hfail (by cases b <;> simp [Value.kind]))
  | _ =>
    rw [hhead] at hfail
    exact .failed rfl (hfail (by simp [Value.kind]))

theorem jump_steps {e : Emission} {here target : Nat} (hpc : s.pc = here) (hcode : code[here]? = some e)
    (he : e.instr = .jump target) : Steps code 1 s { s with pc := target } := by
  subst hpc
  refine .single (k := 0) hcode (.of_plain (o := .jump) (by rw [he]; rfl) rfl) ?_
  rw [he, step_of (o := .jump) rfl, stepOperation, Instr.jump]
  simp [Effect.ok]

theorem closure_correct {arity : Nat} {body : Term 1} :
    Correct code g fuel (.closure arity body) ((Term.closure arity body).guardedWith g lower) := by
  rintro shape start _ opened base W σ s env ⟨hopens, one, drops, env₁, env₂, env₃, rfl, hone, hdrops⟩ hseg hr
  rw [Segment.append, Segment.cons, Segment.cons] at hseg
  obtain ⟨⟨hload, hjump, -⟩, hbody⟩ := hseg
  have hbody' : BodyAt code shape arity body (start + 2) := ⟨hopens, one, drops, env₃, hbody, hone, hdrops⟩
  have hclosure : Simulates code g opened base fuel W σ s
      (do return .closure (← Eval.stamp) arity body env : Eval Value) (Gives code s.next) := by
    refine create_simulates (v := .closure σ.stamps arity body env) (hr.pc ▸ hload)
      (.of_plain (o := .loadFunction) rfl rfl) (step_of (o := .loadFunction) rfl) rfl rfl hr.agrees (by simp)
      fun W' later hle hg hs ho => ?_
    exact ⟨hs, start + 2, s.env, shape, by simpa [Instr.loadFunction, hr.pc] using ho, hr.env.mono hle hg, hbody'⟩
  -- the jump leads over the body
  refine (gives_leaves s hclosure rfl rfl rfl rfl).after (List.Subset.refl _) fun vs W₁ σ₁ s₁ he₁ h₁ => ?_
  obtain ⟨hpc, henv, hframes, a, ha, hops⟩ := Leaves.one.mp h₁
  have hpc' : s₁.pc = start + 1 := by simp [hpc, next, hr.pc]
  refine ⟨1, _, jump_steps hpc' hjump rfl, .refl he₁.agrees, Leaves.one.mpr ⟨?_, henv, hframes, a, ha, hops⟩⟩
  simp only [List.length_append, List.length_cons, List.length_nil]
  omega

/-! ## Control -/

/-- A conditional jump: it goes on if the condition holds, jumps if it does not, and fails at anything else. -/
theorem branch_simulates {n : Nat} {e : Emission} {here target : Nat} {v : Value} {a : Address} {rest : List Address}
    {x y : Eval (Values n)} {Q : Values n → World → Store → Endless → Prop} (hpc : s.pc = here)
    (hcode : code[here]? = some e) (he : e.instr = .jumpUnless target) (hA : W.Agrees code opened σ s.objs)
    (hv : W.Shows code s.objs v a) (hops : s.operands = a :: rest)
    (hx : Simulates code g opened base fuel W σ (next { s with operands := rest }) x Q)
    (hy : Simulates code g opened base fuel W σ { s with operands := rest, pc := target } y Q) :
    Simulates code g opened base fuel W σ s
      (match v with
        | .bool true => x
        | .bool false => y
        | v => Eval.fail (.conditionKind v.kind)) Q := by
  subst hpc
  have hfits : s.Fits e := .of_plain (o := .jumpUnless) (by rw [he]; rfl) rfl
  have hstep : s.step e.instr = s.jumpUnless target := by
    rw [he, step_of (o := .jumpUnless) rfl, stepOperation, Instr.jumpUnless]
    simp
  rw [jumpUnless, hops] at hstep
  have hfail : (∀ b, v ≠ .bool b) → Fails code s (.conditionKind v.kind) := by
    intro hb
    obtain ⟨o, ho, hkind⟩ := kind_of_shows hA hv
    -- the truth values are the only values at their addresses
    have hnot : ∀ b, a ≠ Heap.ofBool b := by
      rintro b rfl
      have hsame := same_of_shows hA hv (w := .bool b) rfl
      cases v <;> simp [Value.same] at hsame
      exact hb _ rfl
    have hf : a ≠ Heap.falsity := hnot false
    have ht : a ≠ Heap.truth := hnot true
    simp only [if_neg hf, if_neg ht, ho, Option.bind_eq_bind, Option.bind_some, hkind] at hstep
    exact ⟨0, s, .refl s, e, 0, hcode, hfits, hstep⟩
  cases v with
  | bool b =>
    obtain rfl : a = Heap.ofBool b := hv
    cases b with
    | true => exact .of_steps (.single hcode hfits hstep) (.refl hA) hx (Nat.le_add_right _ _)
    | false => exact .of_steps (.single hcode hfits hstep) (.refl hA) hy (Nat.le_add_right _ _)
  | _ => exact .failed rfl (hfail (by simp))

theorem conditional_correct {condition thenBranch elseBranch : Term 1}
    (hc : Correct code g fuel condition (condition.guardedWith g lower))
    (ht : Correct code g fuel thenBranch (thenBranch.guardedWith g lower))
    (he : Correct code g fuel elseBranch (elseBranch.guardedWith g lower)) :
    Correct code g fuel (.conditional condition thenBranch elseBranch)
      ((Term.conditional condition thenBranch elseBranch).guardedWith g lower) := by
  rintro shape start _ opened base W σ s env ⟨test, one, two, env₁, env₂, rfl, htest, hone, htwo⟩ hseg hr
  simp only [Segment.append, Segment.cons, Segment.nil, and_true, List.length_append, List.length_cons,
    List.length_nil, ← Nat.add_assoc, Nat.add_zero] at hseg
  obtain ⟨⟨⟨⟨htestAt, hjof⟩, honeAt⟩, hjump⟩, htwoAt⟩ := hseg
  refine (hc htest htestAt hr).bind fun v W₁ σ₁ s₁ he₁ h₁ => ?_
  obtain ⟨hpc, henv, hframes, a, ha, hops⟩ := Leaves.one.mp h₁
  refine branch_simulates hpc hjof rfl he₁.agrees ha hops ?_ ?_
  · have hr₁ : Ready code opened base W₁ σ₁ _ env shape (start + test.length + 1) :=
      hr.later (next { s₁ with operands := s.operands }) he₁ henv hframes (List.suffix_refl _) (by simp [next, hpc])
    refine (ht hone honeAt hr₁).after (List.Subset.refl _) fun w W₂ σ₂ s₂ he₂ h₂ => ?_
    obtain ⟨hpc₂, henv₂, hframes₂, b, hb, hops₂⟩ := Leaves.one.mp h₂
    refine ⟨1, _, jump_steps hpc₂ hjump rfl, .refl he₂.agrees,
      Leaves.one.mpr ⟨?_, henv₂.trans henv, hframes₂.trans hframes, b, hb, hops₂⟩⟩
    simp only [List.length_append, List.length_cons, List.length_nil]
    omega
  · have hr₁ := hr.later { s₁ with operands := s.operands, pc := start + test.length + 1 + one.length + 1 } he₁ henv
      hframes (List.suffix_refl _) rfl
    refine (he htwo htwoAt hr₁).imp fun w W₂ σ₂ s₂ he₂ h₂ => ?_
    obtain ⟨hpc₂, henv₂, hframes₂, b, hb, hops₂⟩ := Leaves.one.mp h₂
    refine Leaves.one.mpr ⟨?_, henv₂.trans henv, hframes₂.trans hframes, b, hb, hops₂⟩
    rw [hpc₂]
    simp only [List.length_append, List.length_cons, List.length_nil]
    omega

theorem loop_correct {condition body : Term 1}
    (hlower : Correct code g fuel (.loop condition body) (lower (.loop condition body)))
    (hc : Correct code g (fuel + 1) condition (condition.guardedWith g lower))
    (hb : Correct code g (fuel + 1) body (body.guardedWith g lower)) :
    Correct code g (fuel + 1) (.loop condition body) ((Term.loop condition body).guardedWith g lower) := by
  rintro shape start piece opened base W σ s env hlayout hsegment hr
  obtain ⟨test, one, env₁, env₂, env₃, env₄, rfl, htest, hone⟩ := hlayout
  have hseg := hsegment
  simp only [Segment.append, Segment.cons, Segment.nil, and_true, List.length_append, List.length_cons,
    List.length_nil, ← Nat.add_assoc, Nat.add_zero] at hseg
  obtain ⟨⟨⟨htestAt, hjof⟩, honeAt⟩, hpop, hjump, hunit⟩ := hseg
  refine (hc htest htestAt hr).bind fun v W₁ σ₁ s₁ he₁ h₁ => ?_
  obtain ⟨hpc, henv, hframes, a, ha, hops⟩ := Leaves.one.mp h₁
  refine branch_simulates hpc hjof rfl he₁.agrees ha hops ?_ ?_
  · have hr₁ : Ready code opened base W₁ σ₁ _ env shape (start + test.length + 1) :=
      hr.later (next { s₁ with operands := s.operands }) he₁ henv hframes (List.suffix_refl _) (by simp [next, hpc])
    refine (hb hone honeAt hr₁).bind fun w W₂ σ₂ s₂ he₂ h₂ => ?_
    obtain ⟨hpc₂, henv₂, hframes₂, b, -, hops₂⟩ := Leaves.one.mp h₂
    -- back to the condition, for the rounds that are left
    have hsteps := (pop_steps hpc₂ hpop rfl hops₂).trans
      (jump_steps (s := { s₂.next with operands := s.operands }) (by simp [next, hpc₂]) hjump rfl)
    have hr₂ := hr.later { s₂.next with operands := s.operands, pc := start } (he₁.trans he₂) (henv₂.trans henv)
      (hframes₂.trans hframes) (List.suffix_refl _) rfl
    refine .of_steps hsteps (.refl he₂.agrees) ((hlower ⟨test, one, _, _, _, _, rfl, htest, hone⟩ hsegment hr₂).imp
      fun vs W₃ σ₃ s₃ he₃ h₃ => ?_) (by omega)
    obtain ⟨hpc₃, henv₃, hframes₃, c, hc₃, hops₃⟩ := Leaves.one.mp h₃
    exact Leaves.one.mpr ⟨hpc₃, henv₃.trans (henv₂.trans henv), hframes₃.trans (hframes₂.trans hframes), c, hc₃, hops₃⟩
  · have hcode : code[(start + test.length + one.length + 3 : Nat)]? = some ⟨Compile.pushUnit, env₄⟩ := by
      rw [← hunit]
      congr 1
      omega
    have hunit' : Simulates code g opened base (fuel + 1) W₁ σ₁
        { s₁ with operands := s.operands, pc := start + test.length + one.length + 3 } (Eval.literal .unit)
        (Gives code (next { s₁ with operands := s.operands, pc := start + test.length + one.length + 3 })) :=
      literal_simulates .unit hcode he₁.agrees
    refine gives_leaves s hunit' ?_ henv hframes rfl
    simp only [next, List.length_append, List.length_cons, List.length_nil]
    omega

theorem returning_correct {value : Term 1} (hv : Correct code g fuel value (value.guardedWith g lower)) :
    Correct code g fuel (.returning value) ((Term.returning value).guardedWith g lower) := by
  rintro shape start _ opened base W σ s env ⟨one, env', rfl, hone⟩ hseg hr
  rw [Segment.append, Segment.cons] at hseg
  refine (hv hone hseg.1 hr).bind fun v W₁ σ₁ s₁ he₁ h₁ => .inr ?_
  obtain ⟨hpc, henv, hframes, a, ha, hops⟩ := Leaves.one.mp h₁
  have hinside : Inside base { s₁ with operands := s.operands } :=
    hr.inside.mono he₁.grows (List.suffix_refl _) hframes
  exact ⟨0, W₁, s₁, .refl s₁, .refl he₁.agrees, a, s.operands, _, hops, ha, hinside, hpc ▸ hseg.2.1, rfl⟩

/-! ## Scopes -/

theorem cell_frame {frame slot : Nat} {c : Cell} (h : Eval.cell env frame slot = pure c) :
    env[frame]? = some c.frame := by
  unfold Eval.cell at h
  cases hf : env[frame]? with
  | none =>
    rw [hf] at h
    cases congrFun h ⟨[], 0⟩
  | some f =>
    rw [hf] at h
    cases congrFun h ⟨[], 0⟩
    rfl

/-- Drops empty slots of the innermost frame, which is no longer open, and change nothing else. -/
theorem drops_steps {drops : Emissions} (hd : Drops shape drops) (hseg : Segment code start drops)
    (hr : Ready code opened base W σ s env shape start) (hclosed : ∀ id, env.getLast? = some id → id ∉ opened) :
    ∃ n later, Steps code n s { s with pc := start + drops.length, objs := later } ∧
      Extends code opened W s.objs W σ later := by
  induction drops generalizing s start with
  | nil =>
    refine ⟨0, s.objs, ?_, .refl hr.agrees⟩
    simpa [← hr.pc] using Steps.refl s
  | cons e rest ih =>
    rw [Segment.cons] at hseg
    obtain ⟨hshape, slot, hw, hinstr⟩ := hd e (by simp)
    obtain ⟨c, hc, hl⟩ := hr.env.locates hw
    have hlast : env.getLast? = some c.frame := by
      obtain ⟨fs, -, hids, hslots⟩ := hr.env
      rw [List.getLast?_eq_getElem?, hids.length_eq, hslots.length_eq]
      exact cell_frame hc
    obtain ⟨later, hset, hext⟩ := setCell?_unassigned (t := s.next) hr.agrees hl
      ⟨e, List.mem_of_getElem? hseg.1, by rw [hinstr]; rfl⟩ (hclosed _ hlast)
    have hstep : Steps code 1 s { s.next with objs := later } := by
      refine .single (k := 0) (hr.pc ▸ hseg.1) (hr.env.fits hshape) ?_
      rw [hinstr, step_of (o := .drop) rfl, stepOperation]
      simp [Instr.drop, hset, Effect.ok]
    have hr' := hr.later { s.next with objs := later } hext rfl rfl (List.suffix_refl _) rfl
    obtain ⟨n, later', hsteps, hext'⟩ := ih (fun e he => hd e (by simp [he])) (by simpa [next, hr.pc] using hseg.2) hr'
    refine ⟨1 + n, later', ?_, hext.trans hext'⟩
    have hpc : s.next.pc + rest.length = start + (e :: rest).length := by
      simp only [next, hr.pc, List.length_cons]
      omega
    rw [← hpc]
    exact hstep.trans hsteps

/-- New nodes, one of which is the next frame of the evaluation, which is open. -/
theorem frame_extends {objs more : List Obj} {f : Address} {links : List Address} {cells : List (Option Value)}
    (hA : W.Agrees code opened σ objs) (hmore : ∀ o ∈ more, ∀ t, o.content ≠ .string t) (hf : objs.length ≤ f)
    (ho : (objs ++ more)[f]? = some ⟨.frame, links⟩) (hcells : List.Forall₂ (W.Holds code objs False) cells links) :
    Extends code (opened ++ [σ.frames.length]) W objs { W with frames := W.frames ++ [f] }
      { σ with frames := σ.frames ++ [cells] } (objs ++ more) where
  le := ⟨List.prefix_append _ _, List.prefix_rfl⟩
  grows := .append _ _
  agrees := by
    have hnew : f ∉ W.frames := fun hm => absurd (hA.frame_lt hm) (Nat.not_lt.mpr hf)
    exact (hA.append hmore).frame ho hnew (hcells.imp fun _ _ h => h.mono (.refl W) (.append _ _))

/-- The environment that has one frame more than another one. -/
theorem World.EnvAt.append {objs later : List Obj} {a b : Address} {fs : List Address} {id slots : Nat} {f : Address}
    (hE : W.EnvAt objs env shape a) (ha : objs[a]? = some ⟨.environment, fs⟩) (hW : W.Le W')
    (hg : Grows objs later) (hb : later[b]? = some ⟨.environment, fs ++ [f]⟩) (hid : W'.frames[id]? = some f)
    (hf : IsFrame later f slots) : W'.EnvAt later (env ++ [id]) (shape ++ [slots]) b := by
  obtain ⟨fs', ha', hids, hshape⟩ := hE.mono hW hg
  obtain rfl : fs = fs' := by simpa using (hg.get ha (by simp)).symm.trans ha'
  exact ⟨fs ++ [f], hb, List.rel_append hids (.cons hid .nil), List.rel_append hshape (.cons hf .nil)⟩

/-- The frame that a store gets next is not open yet. -/
theorem not_mem_opened (hA : W.Agrees code opened σ s.objs) (env : List Nat) :
    ∀ id, (env ++ [σ.frames.length]).getLast? = some id → id ∉ opened := by
  intro id hid hmem
  rw [List.getLast?_concat, Option.some.injEq] at hid
  exact absurd (hA.opened_lt id hmem) (by omega)

theorem scope_correct {slots : Nat} {body : Term 1} (hb : Correct code g fuel body (body.guardedWith g lower)) :
    Correct code g fuel (.scope slots body) ((Term.scope slots body).guardedWith g lower) := by
  rintro shape start _ opened base W σ s env ⟨hopens, one, drops, env₁, env₂, rfl, hone, hdrops⟩ hseg hr
  simp only [Segment.append, Segment.cons, Segment.nil, and_true, List.length_append, List.length_cons,
    List.length_nil, ← Nat.add_assoc, Nat.zero_add] at hseg
  obtain ⟨⟨⟨henter, honeAt⟩, hdropsAt⟩, hexit⟩ := hseg
  obtain ⟨fs, ho, -, hshape⟩ := id hr.env
  -- the state inside the new frame
  let more : List Obj := [⟨.blockframe, [s.env]⟩, ⟨.frame, List.replicate slots Heap.unassigned⟩,
    ⟨.environment, fs ++ [s.objs.length + 1]⟩]
  let inner : Endless :=
    { s.next with objs := s.objs ++ more, env := s.objs.length + 2, frames := s.objs.length :: s.frames }
  have hdepth : fs.length + 1 ≤ maxFrames := hshape.length_eq ▸ hopens.2
  have hstep : Steps code 1 s inner := by
    refine .single (k := s.next.live + 3) (hr.pc ▸ henter) (.of_plain (o := .enterScope) rfl rfl) ?_
    rw [step_of (o := .enterScope) rfl, stepOperation, enterScope]
    simp [Instr.enterScope, next, ho, hopens.1, Nat.lt_of_succ_le hdepth, inner, more]
  have hframe : inner.objs[s.objs.length + 1]? = some ⟨.frame, List.replicate slots Heap.unassigned⟩ := by
    simp [inner, more]
  have hcells : List.Forall₂ (W.Holds code s.objs False) (List.replicate slots none)
      (List.replicate slots Heap.unassigned) := by
    clear hopens hone hdrops more inner hstep hframe henter
    induction slots with
    | zero => exact .nil
    | succ k ih => exact .cons (.inl ⟨rfl, .inl rfl⟩) ih
  have hext := frame_extends hr.agrees (by simp [more]) (Nat.le_succ _) hframe hcells
  have hid : (W.frames ++ [s.objs.length + 1])[σ.frames.length]? = some (s.objs.length + 1) := by
    rw [← hr.agrees.frames_length]
    simp
  have hready : Ready code (opened ++ [σ.frames.length]) base { W with frames := W.frames ++ [s.objs.length + 1] }
      { σ with frames := σ.frames ++ [List.replicate slots none] } inner (env ++ [σ.frames.length])
      (shape ++ [slots]) (start + 1) := by
    refine ⟨hext.agrees, ?_, by simp [inner, next, hr.pc], hr.inside.1, ?_⟩
    · exact hr.env.append ho hext.le hext.grows (by simp [inner, more]) hid ⟨_, hframe, by simp⟩
    · obtain ⟨blocks, hblocks, hb⟩ := hr.inside.2
      refine ⟨s.objs.length :: blocks, by simp [inner, hblocks], ?_⟩
      intro b hmem
      rcases List.mem_cons.mp hmem with rfl | hmem
      · exact ⟨[s.env], by simp [inner, more]⟩
      · obtain ⟨links, hl⟩ := hb b hmem
        exact ⟨links, hext.grows.get hl (by simp)⟩
  have hrun : (Term.scope slots body).guardedWith g lower env opened σ =
      body.guardedWith g lower (env ++ [σ.frames.length]) (opened ++ [σ.frames.length])
        { σ with frames := σ.frames ++ [List.replicate slots none] } := rfl
  have hsub : opened ⊆ opened ++ [σ.frames.length] := List.subset_append_left ..
  refine .of_rest hrun hstep (hext.close hsub)
    ((hb hone honeAt hready).after hsub fun vs W₂ σ₂ s₂ he₂ h₂ => ?_) (Nat.le_add_right _ _)
  have hr₂ := (h₂.ready hready he₂).close hsub
  obtain ⟨-, henv₂, hframes₂, a, ha, hops₂⟩ := Leaves.one.mp h₂
  -- what is left is to drop slots and to close the frame
  obtain ⟨n, later, hdropped, hext₃⟩ := drops_steps hdrops hdropsAt hr₂ (not_mem_opened hr.agrees env)
  have hblock : later[s.objs.length]? = some ⟨.blockframe, [s.env]⟩ :=
    (he₂.grows.trans hext₃.grows).get (by simp [inner, more]) (by simp)
  have hleave : Steps code 1 { s₂ with pc := start + 1 + one.length + drops.length, objs := later }
      { s₂ with
        pc := start + 1 + one.length + drops.length + 1
        objs := later
        env := s.env
        frames := s.frames } := by
    refine .single (k := 0) hexit (.of_plain (o := .exitScope) rfl rfl) ?_
    rw [step_of (o := .exitScope) rfl, stepOperation, exitScope]
    simp [next, hframes₂, inner, hblock, Effect.ok]
  refine ⟨n + 1, _, hdropped.trans hleave, hext₃, Leaves.one.mpr ⟨?_, rfl, rfl, a, ha.mono hext₃.le hext₃.grows, hops₂⟩⟩
  simp only [List.length_append, List.length_cons, List.length_nil]
  omega

/-! ## Calls -/

/-- A return closes all blocks inside the innermost call and then ends the call. -/
theorem reset_steps {e : Emission} {blocks frames rest operands : List Address} {call a link : Address} {back : Nat}
    (hcode : code[s.pc]? = some e) (he : e.instr = .plain .reset) (hframes : s.frames = blocks ++ call :: frames)
    (hblocks : ∀ b ∈ blocks, ∃ links, s.objs[b]? = some ⟨.blockframe, links⟩)
    (hcall : s.objs[call]? = some ⟨.callframe back rest.length, [link]⟩) (hops : s.operands = a :: operands)
    (hrest : rest <:+ operands) :
    ∃ n, Steps code n s { s with pc := back, operands := a :: rest, env := link, frames := frames } := by
  have hfits : s.Fits e := .of_plain (o := .reset) (by rw [he]; rfl) rfl
  induction blocks generalizing s with
  | nil =>
    refine ⟨1, .single (k := 0) hcode hfits ?_⟩
    obtain ⟨extra, rfl⟩ := hrest
    rw [he, step_of (o := .reset) rfl, stepOperation, reset]
    have hlen : extra.length + rest.length + 1 - rest.length = extra.length + 1 := by omega
    have hle : (rest.length : Int) ≤ extra.length + rest.length + 1 := by omega
    simp [hframes, hcall, hops, Effect.ok, hlen, hle]
  | cons b blocks ih =>
    obtain ⟨links, hb⟩ := hblocks b (by simp)
    have hstep : Steps code 1 s { s with frames := blocks ++ call :: frames } := by
      refine .single (k := 0) hcode hfits ?_
      rw [he, step_of (o := .reset) rfl, stepOperation, reset]
      simp [hframes, hb, Effect.ok]
    obtain ⟨n, hn⟩ := ih (s := { s with frames := blocks ++ call :: frames }) hcode rfl
      (fun b hmem => hblocks b (by simp [hmem])) hcall hops (.of_plain (o := .reset) (by rw [he]; rfl) rfl)
    exact ⟨1 + n, hstep.trans hn⟩

/-- What a call finds below its arguments. -/
theorem call_eq {arguments rest : List Address} {f : Address} {o : Obj}
    (hops : s.operands = arguments.reverse ++ f :: rest) (ho : s.objs[f]? = some o)
    (hsize : arguments.length < 0x7fffffffffffffff) :
    s.call arguments.length = match o.content with
      | .builtin id => do
        let b ← Builtin.ofSlot? id
        if b.arity ≠ arguments.length then
          some (.fail (.builtinArity (Text.ofString b.name) b.arity arguments.length))
        else s.callBuiltin b arguments rest
      | .closure expected entry => do
        if expected ≠ arguments.length then some (.fail (.functionArity expected arguments.length))
        else s.callClosure entry (← o.links[0]?) arguments rest
      | c => some (.fail (.notCallable c.kind)) := by
  have hlen : arguments.length = arguments.reverse.length := by simp
  have hget : s.operands[arguments.length]? = some f := by
    rw [hops, hlen, List.getElem?_append_right (Nat.le_refl _)]
    simp
  have htake : (s.operands.take arguments.length).reverse = arguments := by
    rw [hops, hlen, List.take_left]
    simp
  have hdrop : s.operands.drop (arguments.length + 1) = rest := by
    rw [hops, hlen, ← List.drop_drop, List.drop_left]
    simp
  have hnot : ¬((arguments.length : Int) < 0 ∨ (arguments.length : Int) = 0x7fffffffffffffff) := by omega
  have hcallee : ∀ next : Obj → Option Effect, (s.objs[f]?).bind next = next o := fun next => by
    rw [ho, Option.bind_some]
  rw [call, if_neg hnot]
  simp only [Int.toNat_natCast, hget, htake, hdrop, Option.bind_eq_bind, Option.bind_some]
  exact hcallee _

theorem mapM_operand? (hA : W.Agrees code opened σ s.objs) {vs : List Value} {as : List Address}
    (h : List.Forall₂ (W.Shows code s.objs) vs as) : as.mapM s.operand? = some (vs.map Value.operand) := by
  induction h with
  | nil => rfl
  | cons hv _ ih => simp [List.mapM_cons, operand?_of_shows hA hv, ih]

/-- A builtin that gives one of its arguments has two of them. -/
theorem Operand.builtin_inl {b : Builtin} {xs : List Operand} {first : Bool}
    (h : Operand.builtin b xs = .ok (.inl first)) : xs.length = 2 := by
  unfold Operand.builtin at h
  split at h
  next x => cases hx : x.toNumber .abs <;> simp [hx, Except.map] at h
  · rfl
  · rfl
  next x => cases hx : x.toNumber .sqrt <;> simp [hx, Except.map] at h
  · cases h

theorem callBuiltin_simulates {e : Emission} {b : Builtin} {vs : List Value} {as rest : List Address}
    (hcode : code[s.pc]? = some e) (hfits : s.Fits e) (hA : W.Agrees code opened σ s.objs)
    (has : List.Forall₂ (W.Shows code s.objs) vs as) (harity : b.arity = vs.length)
    (hstep : s.step e.instr = s.next.callBuiltin b as rest) :
    Simulates code g opened base fuel W σ s (Term.apply (Term.opening lower opened) (.builtin b) vs)
      (Gives code { s.next with operands := rest }) := by
  have hmap : as.mapM s.next.operand? = some (vs.map Value.operand) := mapM_operand? (s := s.next) hA has
  rw [callBuiltin, hmap, Option.bind_eq_bind, Option.bind_some] at hstep
  simp only [Term.apply, harity, ne_eq, not_true_eq_false, if_false]
  cases hb : Operand.builtin b (vs.map Value.operand) with
  | error err =>
    rw [hb] at hstep
    exact .failed rfl ⟨0, s, .refl s, e, 0, hcode, hfits, hstep⟩
  | ok r =>
    cases r with
    | inl first =>
      rw [hb] at hstep
      have hlen : vs.length = 2 := by simpa using Operand.builtin_inl hb
      have hlt : (if first then 0 else 1) < vs.length := by
        rw [hlen]
        split <;> omega
      obtain ⟨a, ha, hv⟩ := forall₂_getElem?_left has (List.getElem?_eq_getElem hlt)
      simp only [ha, Option.bind_eq_bind, Option.bind_some] at hstep
      refine push_simulates (t := { s.next with operands := rest }) hcode hfits hstep rfl ?_ hA hv
      show EStateM.Result.ok (vs.getD _ _) σ = _
      rw [List.getD_eq_getElem?_getD, List.getElem?_eq_getElem hlt]
      rfl
    | inr n =>
      rw [hb] at hstep
      exact create_simulates (v := .number σ.stamps n) hcode hfits hstep rfl rfl hA (by simp)
        fun _ _ _ _ hs ho => ⟨hs, ho⟩

theorem callClosure_simulates {e : Emission} {body : Term 1} {vs : List Value} {as rest : List Address}
    {entry : Nat} {link : Address} (hlower : Correct code g fuel body (lower body)) (hcode : code[s.pc]? = some e)
    (hfits : s.Fits e) (hA : W.Agrees code opened σ s.objs) (has : List.Forall₂ (W.Shows code s.objs) vs as)
    (hE : W.EnvAt s.objs env shape link) (hbody : BodyAt code shape vs.length body entry)
    (hstep : s.step e.instr = s.next.callClosure entry link as rest) :
    Simulates code g opened base (fuel + 1) W σ s
      (do
        let f ← Eval.frame (vs.map some)
        Eval.catchReturn (Term.opening lower opened body (env ++ [f])))
      (Gives code { s.next with operands := rest }) := by
  obtain ⟨hopens, one, drops, env', hseg, hone, hdrops⟩ := hbody
  rw [Segment.append, Segment.append, Segment.cons] at hseg
  obtain ⟨fs, ho, -, hshape⟩ := id hE
  -- the state at the entry of the function
  let more : List Obj := [⟨.frame, as⟩, ⟨.callframe (s.pc + 1 : Nat) rest.length, [s.env]⟩,
    ⟨.environment, fs ++ [s.objs.length]⟩]
  let inner : Endless :=
    { objs := s.objs ++ more
      pc := entry
      operands := rest
      env := s.objs.length + 2
      frames := (s.objs.length + 1) :: s.frames }
  have hargs : as.length ≤ maxFrameSlots := has.length_eq ▸ hopens.1
  have hdepth : fs.length + 1 ≤ maxFrames := hshape.length_eq ▸ hopens.2
  have hsteps : Steps code 1 s inner := by
    refine .single (k := s.next.live + 3) hcode hfits (hstep.trans ?_)
    simp [callClosure, next, ho, hargs, Nat.lt_of_succ_le hdepth, inner, more]
  have hframe : inner.objs[s.objs.length]? = some ⟨.frame, as⟩ := by simp [inner, more]
  have hcells : List.Forall₂ (W.Holds code s.objs False) (vs.map some) as :=
    List.forall₂_map_left_iff.mpr (has.imp fun v _ h => .inr ⟨v, rfl, h⟩)
  have hext := frame_extends hA (by simp [more]) (Nat.le_refl _) hframe hcells
  have hid : (W.frames ++ [s.objs.length])[σ.frames.length]? = some s.objs.length := by
    rw [← hA.frames_length]
    simp
  have hready : Ready code (opened ++ [σ.frames.length]) ⟨rest, inner.frames⟩
      { W with frames := W.frames ++ [s.objs.length] } { σ with frames := σ.frames ++ [vs.map some] } inner
      (env ++ [σ.frames.length]) (shape ++ [vs.length]) entry :=
    ⟨hext.agrees, hE.append ho hext.le hext.grows (by simp [inner, more]) hid ⟨as, hframe, has.length_eq.symm⟩, rfl,
      List.suffix_refl _, [], rfl, by simp⟩
  have hcall : ∀ {later : List Obj}, Grows inner.objs later →
      later[s.objs.length + 1]? = some ⟨.callframe (s.pc + 1 : Nat) rest.length, [s.env]⟩ :=
    fun hg => hg.get (by simp [inner, more]) (by simp)
  have hopening : Term.opening lower opened body (env ++ [σ.frames.length]) =
      lower body (env ++ [σ.frames.length]) (opened ++ [σ.frames.length]) := by
    rw [Term.opening, List.getLast?_concat]
    rfl
  have hrun : (do
      let f ← Eval.frame (vs.map some)
      Eval.catchReturn (Term.opening lower opened body (env ++ [f])) : Eval Value) σ =
      Eval.catchReturn (lower body (env ++ [σ.frames.length]) (opened ++ [σ.frames.length]))
        { σ with frames := σ.frames ++ [vs.map some] } := by
    rw [← hopening]
    rfl
  have hsub : opened ⊆ opened ++ [σ.frames.length] := List.subset_append_left ..
  refine .of_rest hrun hsteps (hext.close hsub)
    (Simulates.catchReturn hsub (hlower hone hseg.1.1 hready) ?_ ?_) (Nat.le_refl _)
  · -- the end of the body: drops, then a return without open blocks
    intro ws W₁ σ₁ s₁ he₁ h₁
    have hr₁ := (h₁.ready hready he₁).close hsub
    obtain ⟨-, -, hframes₁, a, ha, hops₁⟩ := Leaves.one.mp h₁
    obtain ⟨n, later, hdropped, hext₂⟩ := drops_steps hdrops hseg.1.2 hr₁ (not_mem_opened hA env)
    have hnone : ∀ b ∈ ([] : List Address), ∃ links, later[b]? = some ⟨.blockframe, links⟩ := by simp
    obtain ⟨m, hm⟩ := reset_steps (s := { s₁ with pc := entry + one.length + drops.length, objs := later })
      (by simpa [Nat.add_assoc] using hseg.2.1) rfl hframes₁ hnone
      (hcall (he₁.grows.trans hext₂.grows)) hops₁ (List.suffix_refl _)
    exact ⟨n + m, _, hdropped.trans hm, hext₂, rfl, rfl, rfl, a, ha.mono hext₂.le hext₂.grows, rfl⟩
  · -- a return somewhere in the body
    rintro v W₁ σ₁ s₁ he₁ ⟨a, operands, e₁, hops₁, ha, ⟨hrest, blocks, hframes₁, hblocks⟩, hcode₁, hreset⟩
    obtain ⟨m, hm⟩ := reset_steps hcode₁ hreset hframes₁ hblocks (hcall he₁.grows) hops₁ hrest
    exact ⟨m, _, hm, .refl (he₁.agrees.close hsub), rfl, rfl, rfl, a, ha, rfl⟩

theorem apply_simulates {e : Emission} {f : Address} {callee : Value} {vs : List Value} {as rest : List Address}
    (hlower : ∀ body, Correct code g fuel body (lower body)) (hcode : code[s.pc]? = some e)
    (he : e.instr = .call vs.length) (hsize : vs.length < 0x7fffffffffffffff) (hA : W.Agrees code opened σ s.objs)
    (hf : W.Shows code s.objs callee f) (has : List.Forall₂ (W.Shows code s.objs) vs as)
    (hops : s.operands = as.reverse ++ f :: rest) :
    Simulates code g opened base (fuel + 1) W σ s (Term.apply (Term.opening lower opened) callee vs)
      (Gives code { s.next with operands := rest }) := by
  have hfits : s.Fits e := .of_plain (o := .call) (by rw [he]; rfl) rfl
  have hcall : s.step e.instr = s.next.call as.length := by
    rw [he, ← has.length_eq]
    exact step_of (o := .call) rfl
  have hstep := fun (o : Obj) (ho : s.objs[f]? = some o) =>
    hcall.trans (call_eq (s := s.next) hops ho (has.length_eq ▸ hsize))
  have hfail : ∀ {err : StepError}, s.step e.instr = some (.fail err) → Fails code s err := fun h =>
    ⟨0, s, .refl s, e, 0, hcode, hfits, h⟩
  have hother : callee.kind ≠ .builtin → callee.kind ≠ .closure → Fails code s (.notCallable callee.kind) := by
    intro hb hc
    obtain ⟨⟨c, links⟩, ho, hkind⟩ := kind_of_shows hA hf
    rw [← hkind] at hb hc ⊢
    refine hfail ((hstep _ ho).trans ?_)
    cases c with
    | builtin id => exact absurd rfl hb
    | closure arity entry => exact absurd rfl hc
    | _ => rfl
  cases callee with
  | builtin b =>
    obtain rfl : f = builtinAt b := hf
    obtain ⟨id, ho, hid⟩ : ∃ id, s.objs[builtinAt b]? = some ⟨.builtin id, []⟩ ∧ Builtin.ofSlot? id = some b := by
      cases b
      · exact ⟨0, hA.permanent (c := .builtin 0) rfl (by simp), rfl⟩
      · exact ⟨1, hA.permanent (c := .builtin 1) rfl (by simp), rfl⟩
      · exact ⟨2, hA.permanent (c := .builtin 2) rfl (by simp), rfl⟩
      · exact ⟨3, hA.permanent (c := .builtin 3) rfl (by simp), rfl⟩
    have hb := hstep _ ho
    simp only [hid, Option.bind_eq_bind, Option.bind_some] at hb
    by_cases harity : b.arity = vs.length
    · rw [← has.length_eq, if_neg (not_not.mpr harity)] at hb
      exact callBuiltin_simulates hcode hfits hA has harity hb
    · rw [← has.length_eq, if_pos harity] at hb
      refine .failed (τ := σ) ?_ (hfail hb)
      simp only [Term.apply, if_pos harity]
      rfl
  | closure stamp arity body env =>
    obtain ⟨-, entry, link, shape, ho, hE, hbody⟩ := hf
    have hc := hstep _ ho
    simp only [List.getElem?_cons_zero, Option.bind_eq_bind, Option.bind_some, ← has.length_eq] at hc
    by_cases harity : arity = vs.length
    · subst harity
      simp only [ne_eq, not_true_eq_false, if_false] at hc
      simp only [Term.apply, ne_eq, not_true_eq_false, if_false]
      exact callClosure_simulates (hlower body) hcode hfits hA has hE hbody hc
    · have hne : (arity : Int) ≠ vs.length := by simpa using harity
      rw [if_pos hne] at hc
      refine .failed (τ := σ) ?_ (hfail hc)
      simp only [Term.apply, if_pos (show arity ≠ vs.length from harity)]
      rfl
  | bool b => exact .failed rfl (hother (by cases b <;> simp [Value.kind]) (by cases b <;> simp [Value.kind]))
  | _ => exact .failed rfl (hother (by simp [Value.kind]) (by simp [Value.kind]))

theorem call_correct {n : Nat} {callee : Term 1} {arguments : Term n} (hsize : code.length < 2 ^ 63)
    (hlower : ∀ body, Correct code g fuel body (lower body))
    (hf : Correct code g (fuel + 1) callee (callee.guardedWith g lower))
    (ha : Correct code g (fuel + 1) arguments (arguments.guardedWith g lower)) :
    Correct code g (fuel + 1) (.call callee arguments) ((Term.call callee arguments).guardedWith g lower) := by
  rintro shape start _ opened base W σ s env ⟨one, two, env', rfl, hone, htwo⟩ hseg hr
  rw [Segment.append, Segment.append, Segment.cons, List.length_append, ← Nat.add_assoc] at hseg
  obtain ⟨⟨honeAt, htwoAt⟩, hcall, -⟩ := hseg
  refine (hf hone honeAt hr).bind fun f W₁ σ₁ s₁ he₁ h₁ => ?_
  refine (ha htwo htwoAt (h₁.ready hr he₁)).bind fun vs W₂ σ₂ s₂ he₂ h₂ => ?_
  obtain ⟨-, henv₁, hframes₁, a, hfa, hops₁⟩ := Leaves.one.mp h₁
  obtain ⟨hpc, henv, hframes, as, has, hops⟩ := h₂
  -- there are fewer arguments than instructions
  have hn : n + 1 < 2 ^ 63 := by
    have hwidth := htwo.width_le
    have hlt := (List.getElem?_eq_some_iff.mp hcall).1
    omega
  rw [← hpc] at hcall
  have hlen : vs.toList.length = n := vs.toList_length
  have happly : Simulates code g opened base (fuel + 1) W₂ σ₂ s₂
      (Term.apply (Term.opening lower opened) f.head vs.toList) (Gives code { s₂.next with operands := s.operands }) :=
    apply_simulates hlower hcall (by rw [hlen]) (by omega) he₂.agrees (hfa.mono he₂.le he₂.grows) has
      (by rw [hops, hops₁])
  refine gives_leaves s happly ?_ (henv.trans henv₁) (hframes.trans hframes₁) rfl
  simp [next, hpc, Nat.add_assoc]

/-! ## All terms -/

/-- The code of every term simulates its guarded evaluation, if it does so for the bodies of functions and the further
rounds of loops with less fuel. -/
theorem Term.guardedWith_correct (hsize : code.length < 2 ^ 63) (hlower : ∀ t, Correct code g fuel t (lower t))
    {n : Nat} (t : Term n) : Correct code g (fuel + 1) t (t.guardedWith g lower) := by
  induction t with
  | nothing => exact nothing_correct
  | seq _ _ hf hr => exact seq_correct hf hr
  | also _ _ hf hr => exact also_correct hf hr
  | constant l => exact constant_correct
  | load frame slot => exact load_correct
  | store _ _ _ hv => exact store_correct hv
  | discard _ hv => exact discard_correct hv
  | unary _ _ hv => exact unary_correct hv
  | binary _ _ _ hl hr => exact binary_correct hl hr
  | conditional _ _ _ hc ht he => exact conditional_correct hc ht he
  | loop _ _ hc hb => exact loop_correct (hlower _) hc hb
  | call _ _ hf ha => exact call_correct hsize hlower hf ha
  | returning _ hv => exact returning_correct hv
  | borrow frame slot mutable => exact borrow_correct
  | dereference _ hv => exact dereference_correct hv
  | update _ _ hr hv => exact update_correct hr hv
  | scope _ _ hb => exact scope_correct hb
  | closure _ _ _ => exact closure_correct

/-- The code of every term simulates its guarded evaluation with any fuel. -/
theorem Term.guarded_correct (hsize : code.length < 2 ^ 63) (fuel : Nat) (t : Term 1) :
    Correct code g (fuel + 1) t (t.guarded g fuel) := by
  induction fuel generalizing t with
  | zero =>
    refine Term.guardedWith_correct hsize (fun t => ?_) t
    intro shape start piece opened base W σ s env _ _ _
    exact .inr ⟨0, s, Nat.le_refl _, .refl s⟩
  | succ fuel ih => exact Term.guardedWith_correct hsize ih t

end Tenure
