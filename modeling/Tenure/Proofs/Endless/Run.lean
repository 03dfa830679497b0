import Tenure.Proofs.Endless.Machine

/-!
# Runs of the endless machine

`Steps code n s s'` is a run of `n` instructions, none of which fails. Every state of it fits its instruction: where an
instruction carries a position, the environment has exactly the frames and slots of the one in which the instruction
was emitted.
-/

set_option autoImplicit false

namespace Tenure

namespace Endless

/-- The environment has the shape of the one in which an instruction was emitted, if that carries a position. -/
def Fits (s : Endless) (e : Emission) : Prop :=
  e.instr.op.has Operation.usesPosition = true → s.shape? = some e.env.shape

/-- A number of instructions leads from one state to another. -/
inductive Steps (code : Emissions) : Nat → Endless → Endless → Prop where
  | refl (s : Endless) : Steps code 0 s s
  | step {n k : Nat} {s s' s'' : Endless} {e : Emission} (hcode : code[s.pc]? = some e) (hfits : s.Fits e)
    (hstep : s.step e.instr = some ⟨k, .ok s'⟩) (hrest : Steps code n s' s'') : Steps code (n + 1) s s''

/-- The instruction at hand fails with an error. -/
def FailsAt (code : Emissions) (s : Endless) (err : StepError) : Prop :=
  ∃ e k, code[s.pc]? = some e ∧ s.Fits e ∧ s.step e.instr = some ⟨k, .error err⟩

/-- A run leads to an instruction that fails with an error. -/
def Fails (code : Emissions) (s : Endless) (err : StepError) : Prop := ∃ n s', Steps code n s s' ∧ FailsAt code s' err

variable {code : Emissions} {s s' s'' : Endless} {err : StepError} {m n : Nat}

theorem Steps.trans (h : Steps code m s s') (h' : Steps code n s' s'') : Steps code (m + n) s s'' := by
  induction h with
  | refl s => simpa using h'
  | @step m k s _ _ e hcode hfits hstep hrest ih =>
    rw [Nat.add_right_comm]
    exact .step hcode hfits hstep (ih h')

theorem Steps.single {e : Emission} {k : Nat} (hcode : code[s.pc]? = some e) (hfits : s.Fits e)
    (hstep : s.step e.instr = some ⟨k, .ok s'⟩) : Steps code 1 s s' :=
  .step hcode hfits hstep (.refl s')

theorem Fails.of_steps (h : Steps code n s s') : Fails code s' err → Fails code s err := by
  rintro ⟨m, t, hsteps, hfails⟩
  exact ⟨n + m, t, h.trans hsteps, hfails⟩

/-- A run that is at least as long as another one goes through its last state. -/
theorem Steps.split (h : Steps code m s s') (h' : Steps code (m + n) s s'') : Steps code n s' s'' := by
  induction h with
  | refl s => simpa using h'
  | @step m k s t _ e hcode hfits hstep hrest ih =>
    rw [Nat.add_right_comm] at h'
    cases h' with
    | @step _ k' _ t' _ e' hcode' hfits' hstep' hrest' =>
      obtain rfl : e = e' := Option.some.inj (hcode.symm.trans hcode')
      obtain rfl : t = t' := by
        have := hstep.symm.trans hstep'
        simp only [Option.some.injEq, Effect.mk.injEq, Except.ok.injEq] at this
        exact this.2
      exact ih hrest'

/-- The first instructions of a run are a run. -/
theorem Steps.take (h : Steps code (m + n) s s') : ∃ t, Steps code m s t ∧ Steps code n t s' := by
  induction m generalizing s with
  | zero => exact ⟨s, .refl s, by simpa using h⟩
  | succ m ih =>
    rw [Nat.add_right_comm] at h
    cases h with
    | step hcode hfits hstep hrest =>
      obtain ⟨t, ht, hn⟩ := ih hrest
      exact ⟨t, .step hcode hfits hstep ht, hn⟩

/-- No instruction leads on from a state. -/
def Stuck (code : Emissions) (s : Endless) : Prop := ∀ s', ¬ Steps code 1 s s'

theorem FailsAt.stuck (h : FailsAt code s err) : Stuck code s := by
  obtain ⟨e, k, hcode, -, hstep⟩ := h
  intro s' h
  cases h with
  | step hcode' hfits' hstep' hrest' =>
    cases hcode.symm.trans hcode'
    cases hstep.symm.trans hstep'

/-- No run goes beyond a state from which no instruction leads on. -/
theorem Steps.of_stuck (h : Steps code m s s') (hs : Stuck code s') (h' : Steps code n s s'') :
    n < m ∨ n = m ∧ s'' = s' := by
  by_cases hlt : n < m
  · exact .inl hlt
  · obtain ⟨k, rfl⟩ : ∃ k, n = m + k := ⟨n - m, by omega⟩
    have hrest := h.split h'
    cases k with
    | zero =>
      cases hrest
      exact .inr ⟨rfl, rfl⟩
    | succ k =>
      rw [Nat.add_comm k 1] at hrest
      obtain ⟨t, hone, -⟩ := hrest.take
      exact absurd hone (hs t)

/-- Runs end in one state only. -/
theorem Steps.end_unique (h : Steps code m s s') (hs : Stuck code s') (h' : Steps code n s s'') (hs' : Stuck code s'') :
    s' = s'' := by
  rcases h.of_stuck hs h' with hlt | ⟨-, rfl⟩
  · rcases h'.of_stuck hs' h with hlt' | ⟨-, rfl⟩
    · omega
    · rfl
  · rfl

end Endless

end Tenure
