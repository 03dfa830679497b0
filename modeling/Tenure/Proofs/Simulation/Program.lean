import Tenure.Proofs.Compile.Resolution
import Tenure.Proofs.Endless.Host
import Tenure.Proofs.Simulation.Terms

/-!
# Programs on the endless machine

The endless machine, started on the code of a program, does what the evaluation of the program's term does:
`Tree.emissions_simulate`. Hence it never reaches for something that is not there: after any number of instructions it
is either still running, or it has come to the end with one operand and nothing else open, or it has failed with an
error that the program itself is to blame for (`Tree.emissions_run`).
-/

set_option autoImplicit false

namespace Tenure

open Endless

/-- The machine is at the end of the program: it holds one operand, everything that was opened is closed, and the
environment is the outermost one again. -/
def Endless.DoneWith (code : Emissions) (s : Endless) (a : Address) : Prop :=
  (∃ env, code[s.pc]? = some ⟨.plain .done, env⟩) ∧ s.operands = [a] ∧ s.frames = [] ∧ s.env = Endless.initial.env

theorem Endless.DoneWith.stuck {code : Emissions} {s : Endless} {a : Address} (h : DoneWith code s a) :
    Stuck code s := by
  obtain ⟨⟨env, hcode⟩, -⟩ := h
  intro s' h
  cases h with
  | step hcode' hfits' hstep' hrest' =>
    cases hcode.symm.trans hcode'
    cases hstep'

/-! ## A crate does not return -/

/-- An evaluation never returns from the function around it. -/
def Eval.Stays {α : Type} (x : Eval α) : Prop := ∀ σ v σ', x σ ≠ .error (.returned v) σ'

namespace Eval.Stays

variable {α β : Type} {x : Eval α} {f : α → Eval β}

theorem bind (hx : x.Stays) (hf : ∀ a, (f a).Stays) : Eval.Stays (x >>= f) := by
  intro σ v σ' h
  replace h : EStateM.bind x f σ = .error (.returned v) σ' := h
  rw [EStateM.bind] at h
  cases hxσ : x σ with
  | ok a σ₁ =>
    rw [hxσ] at h
    exact hf a σ₁ v σ' h
  | error b σ₁ =>
    rw [hxσ] at h
    simp only [EStateM.Result.error.injEq] at h
    exact hx σ v σ₁ (by rw [hxσ, h.1])

theorem of_ok {g : Store → α × Store} (h : ∀ σ, x σ = .ok (g σ).1 (g σ).2) : x.Stays := by
  intro σ v σ' hx
  rw [h] at hx
  cases hx

theorem pure (a : α) : Eval.Stays (pure a) := of_ok (g := fun σ => (a, σ)) fun _ => rfl

theorem fail (e : StepError) : (Eval.fail e : Eval α).Stays := by
  intro σ v σ' h
  cases h

theorem catchReturn (body : Eval (Values 1)) : (Eval.catchReturn body).Stays := by
  intro σ v σ' h
  unfold Eval.catchReturn at h
  split at h
  · cases h
  · cases h
  next e σ₁ hne _ =>
    simp only [EStateM.Result.error.injEq] at h
    exact hne v h.1

theorem cell (env : List Nat) (frame slot : Nat) : (Eval.cell env frame slot).Stays := by
  unfold Eval.cell
  split
  · exact pure _
  · exact fail _

theorem read (c : Cell) (pos : Position) : (Eval.read c pos).Stays := by
  refine bind (of_ok (g := fun σ => (σ, σ)) fun _ => rfl) fun σ => ?_
  split
  · exact pure _
  · exact fail _
  · exact fail _

theorem readOpen (guarded : Bool) (opened : List Nat) (c : Cell) (pos : Position) :
    (Eval.readOpen guarded opened c pos).Stays := by
  unfold Eval.readOpen
  split
  · exact fail _
  · exact read c pos

theorem write (c : Cell) (v : Value) : (Eval.write c v).Stays :=
  of_ok (g := fun σ => ((), { σ with frames := σ.frames.modify c.frame fun cells => cells.set c.slot (some v) }))
    fun _ => rfl

theorem frame (cells : List (Option Value)) : (Eval.frame cells).Stays :=
  of_ok (g := fun σ => (σ.frames.length, { σ with frames := σ.frames ++ [cells] })) fun _ => rfl

theorem stamp : Eval.stamp.Stays :=
  of_ok (g := fun σ => (σ.stamps, { σ with stamps := σ.stamps + 1 })) fun _ => rfl

theorem number (n : Number) : (Eval.number n).Stays := stamp.bind fun _ => pure _

/-- A call catches the returns of its function. -/
theorem apply (lower : Term 1 → List Nat → Eval (Values 1)) (callee : Value) (arguments : List Value) :
    (Term.apply lower callee arguments).Stays := by
  unfold Term.apply
  split
  · split
    · exact fail _
    · split
      · exact pure _
      · exact number _
      · exact fail _
  · split
    · exact fail _
    · exact (frame _).bind fun _ => catchReturn _
  · exact fail _

theorem items {t : Term 0} (h : t.Items) (g : Guard) (lower : Term 1 → List Nat → List Nat → Eval (Values 1))
    (env opened : List Nat) :
    (t.guardedWith g lower env opened).Stays := by
  induction h with
  | nothing => exact pure _
  | function h ih =>
    refine bind (bind (stamp.bind fun _ => pure _) fun v => ?_) fun _ => ih
    exact (cell _ _ _).bind fun c => (write c _).bind fun _ => pure _

/-- The evaluation of a crate does not return from a function around it: there is none. -/
theorem crate {t : Term 1} (h : t.IsCrate) (g : Guard) (lower : Term 1 → List Nat → List Nat → Eval (Values 1))
    (env opened : List Nat) :
    (t.guardedWith g lower env opened).Stays := by
  obtain ⟨slots, closures, frame', slot, rfl, hitems⟩ := h
  refine (frame _).bind fun f => (items hitems g lower _ _).bind fun _ => ?_
  refine bind (bind (cell _ _ _) fun c => (readOpen _ _ c _).bind fun _ => pure _) fun callee => ?_
  exact (pure _).bind fun arguments => (apply _ _ _).bind fun _ => pure _

end Eval.Stays

/-! ## The state before a program -/

/-- The world in which only the frame of the builtins is known. -/
def World.initial : World := ⟨[6], []⟩

theorem World.initial_agrees (code : Emissions) : World.initial.Agrees code [0] Store.initial Endless.initial.objs where
  based := .refl _
  texts := .prelude
  stamps_length := rfl
  stamps_nodup := by simp [initial]
  stamps_lt := by simp [initial]
  frames_length := rfl
  frames_nodup := by simp [initial]
  frames id cells f hcells hf := by
    match id, hcells, hf with
    | 0, hcells, hf =>
      cases hcells
      cases hf
      exact ⟨[7, 8, 9, 10], rfl, .cons (.inr ⟨_, rfl, rfl⟩) (.cons (.inr ⟨_, rfl, rfl⟩)
        (.cons (.inr ⟨_, rfl, rfl⟩) (.cons (.inr ⟨_, rfl, rfl⟩) .nil)))⟩
    | id + 1, hcells, hf => simp [initial] at hf
  opened_lt id hmem := by
    rw [List.mem_singleton.mp hmem]
    exact Nat.zero_lt_one

theorem World.initial_ready (code : Emissions) :
    Ready code [0] ⟨[], []⟩ World.initial Store.initial Endless.initial [0] [Builtin.names.length] 0 :=
  ⟨World.initial_agrees code, ⟨[6], rfl, .cons rfl .nil, .cons ⟨[7, 8, 9, 10], rfl, rfl⟩ .nil⟩, rfl,
    List.suffix_refl _, [], rfl, by simp⟩

/-! ## Host values -/

/-- A value in the heap has a host value, which is a reference only if the value is one, and its own otherwise. -/
theorem World.Shows.hostOf? {W : World} {code : Emissions} {opened : List Nat} {σ : Store} {s : Endless}
    (hA : W.Agrees code opened σ s.objs)
    {v : Value} {a : Address} (h : W.Shows code s.objs v a) (depth : Nat) :
    ∃ w, s.hostOf? depth a = some w ∧ (0 < depth → v.host? = w.plain?) := by
  induction depth generalizing v a with
  | zero => exact ⟨_, rfl, fun h => absurd h (Nat.lt_irrefl 0)⟩
  | succ depth ih =>
    -- a value that is no reference is followed no further
    have hflat : ∀ {o : Obj} {w : Host}, s.objs[a]? = some o → o.content.host? = some w → v.host? = w.plain? →
        ∃ w, s.hostOf? (depth + 1) a = some w ∧ (0 < depth + 1 → v.host? = w.plain?) := by
      intro o w ho hw hv
      refine ⟨w, ?_, fun _ => hv⟩
      rw [Endless.hostOf?, ho, Option.bind_eq_bind, Option.bind_some]
      split
      next hc => simp [hc, Content.host?] at hw
      · exact hw
    cases v with
    | unit =>
      cases h
      exact hflat (hA.permanent (c := .undefined) rfl (by simp)) rfl rfl
    | bool b =>
      cases h
      cases b with
      | false => exact hflat (hA.permanent (c := .falsity) rfl (by simp)) rfl rfl
      | true => exact hflat (hA.permanent (c := .truth) rfl (by simp)) rfl rfl
    | number stamp n => exact hflat h.2 rfl (by cases n <;> rfl)
    | char c => exact hflat h rfl rfl
    | text t =>
      obtain ⟨links, ho⟩ := h
      exact hflat ho rfl rfl
    | builtin b =>
      cases h
      cases b with
      | abs => exact hflat (hA.permanent (c := .builtin 0) rfl (by simp)) rfl rfl
      | min => exact hflat (hA.permanent (c := .builtin 1) rfl (by simp)) rfl rfl
      | max => exact hflat (hA.permanent (c := .builtin 2) rfl (by simp)) rfl rfl
      | sqrt => exact hflat (hA.permanent (c := .builtin 3) rfl (by simp)) rfl rfl
    | closure stamp arity body env =>
      obtain ⟨-, entry, link, shape, ho, -⟩ := h
      exact hflat ho rfl rfl
    | reference stamp mutable cell pos =>
      obtain ⟨-, link, ho, hl⟩ := h
      obtain ⟨f, links, cells, cell', target, hf, -, hframe, -, -, ha, hholds, hslot⟩ := hl.slot hA
      have hcell : s.cell? link pos = some target := by simp [cell?, hf, hframe, Obj.link?, hslot, ha]
      obtain ⟨w, hw⟩ : ∃ w, s.hostOf? depth target = some w := by
        rcases hholds with ⟨rfl, -⟩ | ⟨u, -, hu⟩
        · cases depth with
          | zero => exact ⟨_, rfl⟩
          | succ depth =>
            have hun := hA.permanent (c := .unassigned) (a := Heap.unassigned) rfl (by simp)
            exact ⟨.str "<unassigned>", by simp [Endless.hostOf?, hun, Content.host?]⟩
        · obtain ⟨w, hw, -⟩ := ih hu
          exact ⟨w, hw⟩
      refine ⟨.ref mutable w, ?_, fun _ => rfl⟩
      simp [Endless.hostOf?, ho, hcell, hw]

/-! ## Programs -/

/-- The endless machine does what the guarded evaluation of a program does, with whatever fuel: it comes to the end with
the program's value, fails with the program's error, or runs for at least as many instructions as there is fuel. Only an
unguarded access to a slot that the code has dropped makes it fail otherwise, and nothing is said of it where the guard
stops the evaluation. -/
theorem Tree.emissions_guarded {t : Tree} {code : Emissions} (h : t.emissions = .ok code)
    (hsize : code.length < 2 ^ 63) :
    ∃ x, t.term? = some x ∧ ∀ g fuel, FailsDropped code g Endless.initial ∨
      match x.guarded g fuel [0] [0] Store.initial with
      | .ok v σ => ∃ (n : Nat) (W : World) (s : Endless) (a : Address), Steps code n Endless.initial s ∧
          DoneWith code s a ∧ W.Agrees code [0] σ s.objs ∧ W.Shows code s.objs v.head a
      | .error (.returned _) _ => False
      | .error (.failed e) _ => Fails code Endless.initial e ∨ g.Refuses e
      | .error .timeout _ => ∃ n s, fuel < n ∧ Steps code n Endless.initial s := by
  obtain ⟨x, one, env, hx, rfl, hlayout, hcrate⟩ := Tree.emissions_layout h
  refine ⟨x, hx, fun g fuel => ?_⟩
  have hseg := Segment.append.mp (Segment.refl (one ++ [⟨.plain .done, env⟩]))
  rcases Term.guarded_correct (g := g) hsize fuel x hlayout hseg.1 (World.initial_ready _) with hdropped | hsim
  · exact .inl hdropped
  refine .inr ?_
  have hstays : (x.guarded g fuel [0] [0]).Stays := by
    cases fuel <;> exact Eval.Stays.crate hcrate _ _ _ _
  cases hev : x.guarded g fuel [0] [0] Store.initial with
  | ok v σ =>
    rw [hev] at hsim
    obtain ⟨n, W, s, hsteps, hext, hleaves⟩ := hsim
    obtain ⟨hpc, henv, hframes, a, ha, hops⟩ := Leaves.one.mp hleaves
    refine ⟨n, W, s, a, hsteps, ⟨⟨env, ?_⟩, hops, hframes, henv⟩, hext.agrees, ha⟩
    rw [hpc]
    simp
  | error b σ =>
    rw [hev] at hsim
    cases b with
    | returned v => exact hstays _ v σ hev
    | failed e => exact hsim
    | timeout =>
      obtain ⟨n, s, hle, hsteps⟩ := hsim
      exact ⟨n, s, hle, hsteps⟩

/-- The endless machine does what the evaluation of a program does, with whatever fuel. Only an access to a slot that
the code has dropped makes it fail otherwise. -/
theorem Tree.emissions_simulate {t : Tree} {code : Emissions} (h : t.emissions = .ok code)
    (hsize : code.length < 2 ^ 63) :
    ∃ x, t.term? = some x ∧ ∀ fuel, (code.HasDrop ∧ ∃ pos, Fails code Endless.initial (.unassigned pos)) ∨
      match x.eval fuel [0] Store.initial with
      | .ok v σ => ∃ (n : Nat) (W : World) (s : Endless) (a : Address), Steps code n Endless.initial s ∧
          DoneWith code s a ∧ W.Agrees code [0] σ s.objs ∧ W.Shows code s.objs v.head a
      | .error (.returned _) _ => False
      | .error (.failed e) _ => Fails code Endless.initial e
      | .error .timeout _ => ∃ n s, fuel < n ∧ Steps code n Endless.initial s := by
  obtain ⟨x, hx, hsim⟩ := Tree.emissions_guarded h hsize
  refine ⟨x, hx, fun fuel => ?_⟩
  rcases hsim {} fuel with ⟨hd, n, s, e, pos, hsteps, hfails, -⟩ | hsim
  · exact .inl ⟨hd, pos, n, s, hsteps, hfails⟩
  refine .inr ?_
  rw [Term.guarded_none] at hsim
  split at hsim
  · exact hsim
  · exact hsim
  · exact hsim.resolve_right (Guard.not_refuses_none _)
  · exact hsim

/-- After any number of instructions the endless machine is still running, or before that it has come to the end or
failed. -/
theorem Tree.emissions_run {t : Tree} {code : Emissions} (h : t.emissions = .ok code) (hsize : code.length < 2 ^ 63)
    (n : Nat) :
    ∃ m s, m ≤ n ∧ Steps code m Endless.initial s ∧
      (m = n ∨ (∃ a, DoneWith code s a) ∨ ∃ err, FailsAt code s err) := by
  have hcut : ∀ {m : Nat} {s : Endless}, Steps code m Endless.initial s →
      ((∃ a, DoneWith code s a) ∨ ∃ err, FailsAt code s err) →
      ∃ m s, m ≤ n ∧ Steps code m Endless.initial s ∧
        (m = n ∨ (∃ a, DoneWith code s a) ∨ ∃ err, FailsAt code s err) := by
    intro m s hsteps hend
    by_cases hle : m ≤ n
    · exact ⟨m, s, hle, hsteps, .inr hend⟩
    · rw [show m = n + (m - n) by omega] at hsteps
      obtain ⟨s', hn, -⟩ := hsteps.take
      exact ⟨n, s', le_rfl, hn, .inl rfl⟩
  have hfails : ∀ {err : StepError}, Fails code Endless.initial err →
      ∃ m s, m ≤ n ∧ Steps code m Endless.initial s ∧
        (m = n ∨ (∃ a, DoneWith code s a) ∨ ∃ err, FailsAt code s err) := by
    rintro err ⟨m, s, hsteps, hfail⟩
    exact hcut hsteps (.inr ⟨err, hfail⟩)
  obtain ⟨x, -, hsim⟩ := Tree.emissions_simulate h hsize
  rcases hsim n with ⟨-, pos, hdropped⟩ | hsim
  · exact hfails hdropped
  split at hsim
  · obtain ⟨m, W, s, a, hsteps, hdone, -⟩ := hsim
    exact hcut hsteps (.inl ⟨a, hdone⟩)
  · exact hsim.elim
  · exact hfails hsim
  · obtain ⟨m, s, hlt, hsteps⟩ := hsim
    rw [show m = n + (m - n) by omega] at hsteps
    obtain ⟨s', hn, -⟩ := hsteps.take
    exact ⟨n, s', le_rfl, hn, .inl rfl⟩

/-- Wherever a run has come to, it goes on, or it has come to the end or fails. -/
theorem Tree.emissions_progress {t : Tree} {code : Emissions} (h : t.emissions = .ok code)
    (hsize : code.length < 2 ^ 63) {n : Nat} {s : Endless} (hs : Steps code n Endless.initial s) :
    (∃ s', Steps code 1 s s') ∨ (∃ a, DoneWith code s a) ∨ ∃ err, FailsAt code s err := by
  obtain ⟨m, s', hle, hsteps, hend⟩ := Tree.emissions_run h hsize (n + 1)
  have hstuck : ((∃ a, DoneWith code s' a) ∨ ∃ err, FailsAt code s' err) → m = n + 1 ∨ s = s' := by
    intro hend
    have : Stuck code s' := by
      rcases hend with ⟨a, hdone⟩ | ⟨err, hfails⟩
      · exact hdone.stuck
      · exact hfails.stuck
    rcases hsteps.of_stuck this hs with hlt | ⟨-, rfl⟩
    · exact .inl (by omega)
    · exact .inr rfl
  by_cases hm : m = n + 1
  · subst hm
    exact .inl ⟨s', hs.split hsteps⟩
  · have hend' := hend.resolve_left hm
    obtain rfl := (hstuck hend').resolve_left hm
    exact .inr hend'

/-- A run that has come to the end is that of a terminating evaluation, and its result has a host value. -/
theorem Tree.emissions_done {t : Tree} {code : Emissions} (h : t.emissions = .ok code) (hsize : code.length < 2 ^ 63)
    {n : Nat} {s : Endless} {a : Address} (hs : Steps code n Endless.initial s) (hdone : DoneWith code s a) :
    ∃ x fuel v σ, t.term? = some x ∧ x.eval fuel [0] Store.initial = .ok v σ ∧
      ∀ depth, ∃ w, s.hostOf? depth a = some w ∧ (0 < depth → v.head.host? = w.plain?) := by
  obtain ⟨x, hx, hsim⟩ := Tree.emissions_simulate h hsize
  have hfails : ∀ {err : StepError}, ¬ Fails code Endless.initial err := by
    rintro err ⟨m, s', hsteps, hfail⟩
    obtain rfl := hs.end_unique hdone.stuck hsteps hfail.stuck
    obtain ⟨⟨env, hcode⟩, -⟩ := hdone
    obtain ⟨e, k, hcode', -, hstep⟩ := hfail
    cases hcode.symm.trans hcode'
    cases hstep
  rcases hsim n with ⟨-, pos, hdropped⟩ | hsim
  · exact absurd hdropped hfails
  cases hev : x.eval n [0] Store.initial with
  | ok v σ =>
    rw [hev] at hsim
    obtain ⟨m, W, s', a', hsteps, hdone', hA, hshows⟩ := hsim
    obtain rfl := hs.end_unique hdone.stuck hsteps hdone'.stuck
    obtain rfl : a = a' := by
      have := hdone.2.1.symm.trans hdone'.2.1
      simpa using this
    exact ⟨x, n, v, σ, hx, hev, hshows.hostOf? hA⟩
  | error b σ =>
    rw [hev] at hsim
    cases b with
    | returned v => exact hsim.elim
    | failed e => exact absurd hsim hfails
    | timeout =>
      obtain ⟨m, s', hlt, hsteps⟩ := hsim
      rcases hs.of_stuck hdone.stuck hsteps with hlt' | ⟨heq, -⟩ <;> omega

end Tenure
