import Tenure.Proofs.Compile.Layout

/-!
# Steps of code generation and of name resolution

What a step of code generation that succeeds says about the parts it is made of, and what the steps of resolving names
compute.
-/

set_option autoImplicit false

namespace Tenure

namespace Compile

variable {α β : Type} {s s' : CompileState}

/-! ## Steps of code generation that succeed -/

theorem bind_ok {x : Compile α} {f : α → Compile β} {b : β} :
    (x >>= f) s = .ok (b, s') ↔ ∃ a s₁, x s = .ok (a, s₁) ∧ f a s₁ = .ok (b, s') := by
  show (x s >>= fun p => f p.1 p.2) = .ok (b, s') ↔ _
  cases h : x s with
  | error e => simp [bind, Except.bind]
  | ok p =>
    obtain ⟨a, s₁⟩ := p
    simp [bind, Except.bind]

theorem pure_ok {a b : α} : (pure a : Compile α) s = .ok (b, s') ↔ a = b ∧ s = s' := by
  show Except.ok (a, s) = .ok (b, s') ↔ _
  simp

theorem get_ok {t : CompileState} : (get : Compile CompileState) s = .ok (t, s') ↔ s = t ∧ s = s' := by
  show Except.ok (s, s) = .ok (t, s') ↔ _
  simp

theorem modify_ok {f : CompileState → CompileState} {u : PUnit} :
    (modify f : Compile PUnit) s = .ok (u, s') ↔ f s = s' := by
  show Except.ok (PUnit.unit, f s) = .ok (u, s') ↔ _
  simp

theorem lift_ok {x : Inspect α} {a : α} : (liftM x : Compile α) s = .ok (a, s') ↔ x = .ok a ∧ s = s' := by
  cases x with
  | ok b =>
    show Except.ok (b, s) = .ok (a, s') ↔ _
    simp
  | error e =>
    cases e
    show (Except.error Stop.crashed : Except _ _) = .ok (a, s') ↔ _
    simp

theorem throw_ok {e : Stop CompileError} {a : α} : ¬(throw e : Compile α) s = .ok (a, s') := by
  show ¬(Except.error e : Except _ _) = .ok (a, s')
  simp

theorem fail_ok {e : CompileError} {a : α} : ¬(fail e : Compile α) s = .ok (a, s') := throw_ok

theorem fail_bind_ok {e : CompileError} {f : α → Compile β} {b : β} : ¬(fail e >>= f) s = .ok (b, s') := by
  rw [bind_ok]
  rintro ⟨a, s₁, h, -⟩
  exact fail_ok h

theorem unsupported_ok {what : Unsupported} {a : α} : ¬(unsupported what : Compile α) s = .ok (a, s') := throw_ok

theorem onEnv_ok {f : Environment → Environment} {u : Unit} :
    onEnv f s = .ok (u, s') ↔ { s with env := f s.env } = s' := modify_ok

theorem setLent_ok {id : Option Nat} {u : Unit} : setLent id s = .ok (u, s') ↔ { s with lent := id } = s' := modify_ok

theorem setDiverged_ok {b : Bool} {u : Unit} : setDiverged b s = .ok (u, s') ↔ { s with diverged := b } = s' :=
  modify_ok

theorem emit_ok {code : Program} {c : Emissions} :
    emit code s = .ok (c, s') ↔ (code.map fun i => ⟨i, s.env⟩) = c ∧ s = s' := by
  unfold emit
  simp only [bind_ok, get_ok, pure_ok]
  constructor
  · rintro ⟨a, s₁, ⟨rfl, rfl⟩, h, rfl⟩
    exact ⟨h, rfl⟩
  · rintro ⟨h, rfl⟩
    exact ⟨s, s, ⟨rfl, rfl⟩, h, rfl⟩

end Compile

/-- A program that compiles to code with a given property. -/
theorem Tree.compile_of_any {t : Tree} {p : Program → Bool} (h : t.compile.toOption.any p = true) :
    ∃ program, t.compile = .ok program ∧ p program = true := by
  cases hcompile : t.compile with
  | error e => simp [hcompile, Except.toOption] at h
  | ok program => exact ⟨program, rfl, by simpa [hcompile, Except.toOption] using h⟩

namespace Resolve

variable {α β : Type} {p p' : Places}

@[simp] theorem bind_apply (x : Resolve α) (f : α → Resolve β) : (x >>= f) p = (x p).bind fun r => f r.1 r.2 := rfl

@[simp] theorem pure_apply (a : α) : (pure a : Resolve α) p = some (a, p) := rfl

@[simp] theorem get_apply : (get : Resolve Places) p = some (p, p) := rfl

@[simp] theorem modify_apply (f : Places → Places) : (modify f : Resolve PUnit) p = some (PUnit.unit, f p) := rfl

theorem lift_apply {x : Inspect α} {a : α} (h : x = .ok a) : (liftM x : Resolve α) p = some (a, p) := by
  subst h
  rfl

@[simp] theorem map_apply (x : Resolve α) (f : α → β) : (f <$> x) p = (x p).map fun r => (f r.1, r.2) := by
  show ((x p).bind fun r => some (f r.1, r.2)) = _
  cases x p <;> rfl

theorem bind_some {x : Resolve α} {f : α → Resolve β} {b : β} :
    (x >>= f) p = some (b, p') ↔ ∃ a p₁, x p = some (a, p₁) ∧ f a p₁ = some (b, p') := by
  rw [bind_apply]
  constructor
  · intro h
    obtain ⟨⟨a, p₁⟩, hx, hf⟩ := Option.bind_eq_some_iff.mp h
    exact ⟨a, p₁, hx, hf⟩
  · rintro ⟨a, p₁, hx, hf⟩
    rw [hx]
    exact hf

theorem pure_some {a b : α} : (pure a : Resolve α) p = some (b, p') ↔ a = b ∧ p = p' := by
  rw [pure_apply]
  simp

end Resolve

end Tenure
