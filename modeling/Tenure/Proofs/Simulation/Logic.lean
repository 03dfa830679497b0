import Tenure.Proofs.Semantics.Guarded
import Tenure.Proofs.Simulation.World

/-!
# Simulating evaluations

`Simulates … x Q` says that the endless machine, from a state that agrees with a store, does what the evaluation `x`
does: where `x` gives a value, the machine reaches a state with `Q`; where `x` returns from a function, the machine
comes to a return inside that function; where `x` fails, it fails with the same error, unless a guard stopped `x`; and
where `x` runs out of fuel, it goes on for as many instructions. The one exception is a slot that the code drops too
early: an access to it that is not guarded fails, whatever `x` does.
-/

set_option autoImplicit false

namespace Tenure

open Endless

/-- What lies below the operands and around the open blocks of a function that is being executed. -/
structure Base where
  operands : List Address
  frames : List Address

/-- A state inside a function: operands above its base, and open blocks inside it. -/
def Inside (base : Base) (s : Endless) : Prop :=
  base.operands <:+ s.operands ∧ ∃ blocks, s.frames = blocks ++ base.frames ∧
    ∀ b ∈ blocks, ∃ links, s.objs[b]? = some ⟨.blockframe, links⟩

/-- A state about to return a value from a function. -/
def Returns (code : Emissions) (base : Base) (W : World) (v : Value) (s : Endless) : Prop :=
  ∃ a rest e, s.operands = a :: rest ∧ W.Shows code s.objs v a ∧ Inside base { s with operands := rest } ∧
    code[s.pc]? = some e ∧ e.instr = .plain .reset

/-- A later world, store and heap, while some frames are open. -/
structure Extends (code : Emissions) (opened : List Nat) (W : World) (objs : List Obj) (W' : World) (σ : Store)
    (later : List Obj) : Prop where
  le : W.Le W'
  grows : Grows objs later
  agrees : W'.Agrees code opened σ later

/-- An instruction that reads a slot without being guarded. -/
def Guard.Unguarded (g : Guard) (i : Instr) : Prop :=
  (i.op.operation? = some .load ∧ g.loads = false) ∨ (i.op.operation? = some .dereference ∧ g.references = false)

/-- A run leads to an unguarded access that finds its slot dropped. -/
def FailsDropped (code : Emissions) (g : Guard) (s : Endless) : Prop :=
  code.HasDrop ∧ ∃ n s' e pos, Steps code n s s' ∧ FailsAt code s' (.unassigned pos) ∧ code[s'.pc]? = some e ∧
    g.Unguarded e.instr

/-- The machine does what a guarded evaluation does, or fails at a dropped slot. -/
def Simulates {α : Type} (code : Emissions) (g : Guard) (opened : List Nat) (base : Base) (fuel : Nat) (W : World)
    (σ : Store) (s : Endless) (x : Eval α) (Q : α → World → Store → Endless → Prop) : Prop :=
  FailsDropped code g s ∨
    match x σ with
    | .ok a σ' => ∃ n W' s', Steps code n s s' ∧ Extends code opened W s.objs W' σ' s'.objs ∧ Q a W' σ' s'
    | .error (.returned v) σ' =>
      ∃ n W' s', Steps code n s s' ∧ Extends code opened W s.objs W' σ' s'.objs ∧ Returns code base W' v s'
    | .error (.failed e) _ => Fails code s e ∨ g.Refuses e
    | .error .timeout _ => ∃ n s', fuel ≤ n ∧ Steps code n s s'

variable {α β : Type} {code : Emissions} {g : Guard} {opened inner : List Nat} {base : Base} {fuel : Nat}
  {W W' W'' : World} {σ σ' σ'' : Store} {s s' s'' : Endless}

theorem FailsDropped.of_steps {n : Nat} (hs : Steps code n s s') (h : FailsDropped code g s') :
    FailsDropped code g s := by
  obtain ⟨hd, m, t, e, pos, hsteps, hfails⟩ := h
  exact ⟨hd, n + m, t, e, pos, hs.trans hsteps, hfails⟩

namespace Extends

theorem trans {objs later latest : List Obj} (h : Extends code opened W objs W' σ' later)
    (h' : Extends code opened W' later W'' σ'' latest) : Extends code opened W objs W'' σ'' latest :=
  ⟨h.le.trans h'.le, h.grows.trans h'.grows, h'.agrees⟩

/-- Fewer frames may be open. -/
theorem close {objs later : List Obj} (h : Extends code inner W objs W' σ' later) (hsub : opened ⊆ inner) :
    Extends code opened W objs W' σ' later :=
  ⟨h.le, h.grows, h.agrees.close hsub⟩

theorem refl {objs : List Obj} (h : W.Agrees code opened σ objs) : Extends code opened W objs W σ objs :=
  ⟨.refl W, .refl objs, h⟩

end Extends

namespace Simulates

variable {x : Eval α} {f : α → Eval β} {P : α → World → Store → Endless → Prop} {Q : β → World → Store → Endless → Prop}

theorem dropped (h : FailsDropped code g s) : Simulates code g opened base fuel W σ s x P := .inl h

theorem ok {a : α} {n : Nat} (hx : x σ = .ok a σ') (hs : Steps code n s s')
    (he : Extends code opened W s.objs W' σ' s'.objs) (hp : P a W' σ' s') :
    Simulates code g opened base fuel W σ s x P := by
  refine .inr ?_
  rw [hx]
  exact ⟨n, W', s', hs, he, hp⟩

theorem pure {a : α} (h : W.Agrees code opened σ s.objs) (hp : P a W σ s) :
    Simulates code g opened base fuel W σ s (pure a) P :=
  .ok rfl (.refl s) (.refl h) hp

theorem failed {e : StepError} {τ : Store} (hx : x σ = .error (.failed e) τ) (h : Fails code s e) :
    Simulates code g opened base fuel W σ s x P := by
  refine .inr ?_
  rw [hx]
  exact .inl h

/-- Nothing is said of the machine where a guard stops the evaluation. -/
theorem refused {e : StepError} {τ : Store} (hx : x σ = .error (.failed e) τ) (h : g.Refuses e) :
    Simulates code g opened base fuel W σ s x P := by
  refine .inr ?_
  rw [hx]
  exact .inr h

/-- The machine may take steps before it simulates what is left of an evaluation; they count towards its fuel. -/
theorem of_rest {y : Eval α} {fuel' n : Nat} (hxy : x σ = y σ') (hs : Steps code n s s')
    (he : Extends code opened W s.objs W' σ' s'.objs) (h : Simulates code g opened base fuel' W' σ' s' y P)
    (hfuel : fuel ≤ fuel' + n) : Simulates code g opened base fuel W σ s x P := by
  rcases h with h | h
  · exact dropped (h.of_steps hs)
  refine .inr ?_
  rw [hxy]
  split at h
  · obtain ⟨m, W'', s'', hm, he', hp⟩ := h
    exact ⟨n + m, W'', s'', hs.trans hm, he.trans he', hp⟩
  · obtain ⟨m, W'', s'', hm, he', hp⟩ := h
    exact ⟨n + m, W'', s'', hs.trans hm, he.trans he', hp⟩
  · exact h.imp_left (.of_steps hs)
  · obtain ⟨m, s'', hle, hm⟩ := h
    exact ⟨n + m, s'', by omega, hs.trans hm⟩

theorem of_steps {fuel' n : Nat} (hs : Steps code n s s') (he : Extends code opened W s.objs W' σ s'.objs)
    (h : Simulates code g opened base fuel' W' σ s' x P) (hfuel : fuel ≤ fuel' + n) :
    Simulates code g opened base fuel W σ s x P :=
  of_rest rfl hs he h hfuel

/-- One evaluation after the other. -/
theorem bind (h : Simulates code g opened base fuel W σ s x P)
    (hf : ∀ a W' σ' s', Extends code opened W s.objs W' σ' s'.objs → P a W' σ' s' →
      Simulates code g opened base fuel W' σ' s' (f a) Q) :
    Simulates code g opened base fuel W σ s (x >>= f) Q := by
  rcases h with h | h
  · exact dropped h
  cases hx : x σ with
  | ok a σ' =>
    rw [hx] at h
    obtain ⟨n, W', s', hs, he, hp⟩ := h
    have hbind : (x >>= f) σ = f a σ' := by
      show EStateM.bind x f σ = f a σ'
      rw [EStateM.bind, hx]
    exact of_rest hbind hs he (hf a W' σ' s' he hp) (Nat.le_add_right _ _)
  | error b σ' =>
    have hbind : (x >>= f) σ = .error b σ' := by
      show EStateM.bind x f σ = _
      rw [EStateM.bind, hx]
    refine .inr ?_
    rw [hbind]
    cases b with
    | returned v => simpa [hx] using h
    | failed e => simpa [hx] using h
    | timeout => simpa [hx] using h

/-- The machine may take steps after it has simulated an evaluation, in which more frames may have been open. -/
theorem after {P' : α → World → Store → Endless → Prop} (hsub : opened ⊆ inner)
    (h : Simulates code g inner base fuel W σ s x P)
    (hp : ∀ a W' σ' s', Extends code inner W s.objs W' σ' s'.objs → P a W' σ' s' →
      ∃ n s'', Steps code n s' s'' ∧ Extends code opened W' s'.objs W' σ' s''.objs ∧ P' a W' σ' s'') :
    Simulates code g opened base fuel W σ s x P' := by
  rcases h with h | h
  · exact dropped h
  refine .inr ?_
  split at h
  · obtain ⟨n, W', s', hs, he, ha⟩ := h
    obtain ⟨m, s'', hm, he', hp'⟩ := hp _ _ _ _ he ha
    exact ⟨n + m, W', s'', hs.trans hm, (he.close hsub).trans he', hp'⟩
  · obtain ⟨n, W', s', hs, he, hr⟩ := h
    exact ⟨n, W', s', hs, he.close hsub, hr⟩
  · exact h
  · exact h

theorem imp {P' : α → World → Store → Endless → Prop} (h : Simulates code g opened base fuel W σ s x P)
    (hp : ∀ a W' σ' s', Extends code opened W s.objs W' σ' s'.objs → P a W' σ' s' → P' a W' σ' s') :
    Simulates code g opened base fuel W σ s x P' :=
  h.after (List.Subset.refl _) fun a W' σ' s' he h => ⟨0, s', .refl s', .refl he.agrees, hp a W' σ' s' he h⟩

/-- The body of a function, in which more frames are open, and what the machine does to leave it, by reaching its end or
by a return. -/
theorem catchReturn {called : Base} {y : Eval (Values 1)} {P : Values 1 → World → Store → Endless → Prop}
    {P' : Value → World → Store → Endless → Prop} (hsub : opened ⊆ inner)
    (h : Simulates code g inner called fuel W σ s y P)
    (hok : ∀ vs W' σ' s', Extends code inner W s.objs W' σ' s'.objs → P vs W' σ' s' →
      ∃ n s'', Steps code n s' s'' ∧ Extends code opened W' s'.objs W' σ' s''.objs ∧ P' vs.head W' σ' s'')
    (hreturned : ∀ v W' σ' s', Extends code inner W s.objs W' σ' s'.objs → Returns code called W' v s' →
      ∃ n s'', Steps code n s' s'' ∧ Extends code opened W' s'.objs W' σ' s''.objs ∧ P' v W' σ' s'') :
    Simulates code g opened base fuel W σ s (Eval.catchReturn y) P' := by
  rcases h with h | h
  · exact dropped h
  cases hy : y σ with
  | ok vs σ' =>
    rw [hy] at h
    obtain ⟨n, W', s', hs, he, hp⟩ := h
    obtain ⟨m, s'', hm, he', hp'⟩ := hok vs W' σ' s' he hp
    exact .ok (by rw [Eval.catchReturn, hy]) (hs.trans hm) ((he.close hsub).trans he') hp'
  | error b σ' =>
    rw [hy] at h
    cases b with
    | returned v =>
      obtain ⟨n, W', s', hs, he, hr⟩ := h
      obtain ⟨m, s'', hm, he', hp'⟩ := hreturned v W' σ' s' he hr
      exact .ok (by rw [Eval.catchReturn, hy]) (hs.trans hm) ((he.close hsub).trans he') hp'
    | failed e =>
      rcases h with h | h
      · exact .failed (by rw [Eval.catchReturn, hy]) h
      · exact .refused (by rw [Eval.catchReturn, hy]) h
    | timeout =>
      refine .inr ?_
      rw [Eval.catchReturn, hy]
      exact h

end Simulates

end Tenure
