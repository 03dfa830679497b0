import Tenure.Proofs.Semantics.Eval

/-!
# Evaluation with guarded accesses

Evaluation never empties a cell, but code drops slots of a frame when it leaves the frame. Guarded evaluation is told
which frames are open, and it fails where a load or a dereference, as the guard says, reads a cell of a frame that is
not. Without a guard it is evaluation: `Term.guarded_none`.
-/

set_option autoImplicit false

namespace Tenure

/-- The accesses that have to be to a frame that is still open. -/
structure Guard where
  loads : Bool := false
  references : Bool := false

namespace Guard

/-- Every access has to be to an open frame. -/
def all : Guard := ⟨true, true⟩

/-- Only the loads have to be from an open frame. -/
def onlyLoads : Guard := ⟨true, false⟩

/-- The errors with which guarded evaluation stops at an access that evaluation allows. -/
def Refuses (g : Guard) (e : StepError) : Prop :=
  (g.loads = true ∨ g.references = true) ∧ ∃ pos, e = .unboundSlot pos

theorem not_refuses_none (e : StepError) : ¬ Guard.Refuses {} e := by
  rintro ⟨h | h, -⟩ <;> cases h

end Guard

namespace Eval

/-- The value of a cell, which has to be one of an open frame if the access is guarded. -/
def readOpen (guarded : Bool) (opened : List Nat) (c : Cell) (pos : Position) : Eval Value :=
  if guarded = true ∧ c.frame ∉ opened then fail (.unboundSlot pos) else read c pos

theorem readOpen_false (opened : List Nat) (c : Cell) (pos : Position) : readOpen false opened c pos = read c pos :=
  if_neg fun h => by cases h.1

end Eval

namespace Term

open Eval

/-- How the bodies of calls are evaluated: the frame of the arguments, which is the last one, is open too. -/
def opening (lower : Term 1 → List Nat → List Nat → Eval (Values 1)) (opened : List Nat) (body : Term 1)
    (env : List Nat) : Eval (Values 1) :=
  lower body env (opened ++ env.getLast?.toList)

/-- Evaluates a term in an environment while some frames are open, given how to evaluate the bodies of calls and the
further rounds of loops. -/
def guardedWith (g : Guard) (lower : Term 1 → List Nat → List Nat → Eval (Values 1)) :
    {n : Nat} → Term n → List Nat → List Nat → Eval (Values n)
  | _, .nothing, _, _ => return .nil
  | _, .seq first rest, env, opened => do
    let _ ← first.guardedWith g lower env opened
    rest.guardedWith g lower env opened
  | _, .also first rest, env, opened => do
    let v ← first.guardedWith g lower env opened
    return .cons v.head (← rest.guardedWith g lower env opened)
  | _, .constant l, _, _ => return .cons (← literal l) .nil
  | _, .load frame slot, env, opened => do
    let c ← cell env frame slot
    return .cons (← readOpen g.loads opened c (Environment.positionOf frame slot)) .nil
  | _, .store frame slot value, env, opened => do
    let v ← value.guardedWith g lower env opened
    let c ← cell env frame slot
    write c v.head
    return .nil
  | _, .discard value, env, opened => do
    let _ ← value.guardedWith g lower env opened
    return .nil
  | _, .unary symbol operand, env, opened => do
    let x ← operand.guardedWith g lower env opened
    return .cons (← outcome (Operand.unary symbol x.head.operand)) .nil
  | _, .binary symbol left right, env, opened => do
    let x ← left.guardedWith g lower env opened
    let y ← right.guardedWith g lower env opened
    return .cons (← outcome (Operand.binary symbol (x.head.same y.head) x.head.operand y.head.operand)) .nil
  | _, .conditional condition thenBranch elseBranch, env, opened => do
    let c ← condition.guardedWith g lower env opened
    match c.head with
    | .bool true => thenBranch.guardedWith g lower env opened
    | .bool false => elseBranch.guardedWith g lower env opened
    | v => fail (.conditionKind v.kind)
  | _, .loop condition body, env, opened => do
    let c ← condition.guardedWith g lower env opened
    match c.head with
    | .bool true => do
      let _ ← body.guardedWith g lower env opened
      lower (.loop condition body) env opened
    | .bool false => return .cons .unit .nil
    | v => fail (.conditionKind v.kind)
  | _, .call callee arguments, env, opened => do
    let f ← callee.guardedWith g lower env opened
    let vs ← arguments.guardedWith g lower env opened
    return .cons (← apply (opening lower opened) f.head vs.toList) .nil
  | _, .returning value, env, opened => do
    let v ← value.guardedWith g lower env opened
    throw (.returned v.head)
  | _, .borrow frame slot mutable, env, _ => do
    let c ← cell env frame slot
    return .cons (.reference (← stamp) mutable c (Environment.positionOf frame slot)) .nil
  | _, .dereference reference, env, opened => do
    let r ← reference.guardedWith g lower env opened
    match r.head with
    | .reference _ _ c pos => return .cons (← readOpen g.references opened c pos) .nil
    | v => fail (.notReference v.kind)
  | _, .update reference value, env, opened => do
    let r ← reference.guardedWith g lower env opened
    let v ← value.guardedWith g lower env opened
    match r.head with
    | .reference _ true c _ => do
      write c v.head
      return v
    | .reference _ false _ _ => fail .immutableReference
    | v => fail (.notReference v.kind)
  | _, .scope slots body, env, opened => do
    let f ← frame (List.replicate slots none)
    body.guardedWith g lower (env ++ [f]) (opened ++ [f])
  | _, .closure arity body, env, _ => return .cons (.closure (← stamp) arity body env) .nil

/-- Evaluates a term of one value with some fuel. -/
def guarded (g : Guard) : Nat → Term 1 → List Nat → List Nat → Eval (Values 1)
  | 0 => guardedWith g fun _ _ _ => throw .timeout
  | fuel + 1 => guardedWith g (guarded g fuel)

theorem opening_eq {lower : Term 1 → List Nat → Eval (Values 1)}
    {guarded : Term 1 → List Nat → List Nat → Eval (Values 1)} (h : ∀ t env opened, guarded t env opened = lower t env)
    (opened : List Nat) : opening guarded opened = lower := by
  funext body env
  exact h body env _

theorem guardedWith_none {lower : Term 1 → List Nat → Eval (Values 1)}
    {guarded : Term 1 → List Nat → List Nat → Eval (Values 1)} (h : ∀ t env opened, guarded t env opened = lower t env)
    {n : Nat} (t : Term n) (env opened : List Nat) : t.guardedWith {} guarded env opened = t.evalWith lower env := by
  induction t generalizing env opened with
  | nothing | constant | borrow | closure => rfl
  | seq _ _ hf hr | also _ _ hf hr => simp only [guardedWith, evalWith, hf, hr]
  | load frame slot => simp only [guardedWith, evalWith, readOpen_false]
  | store _ _ _ hv | discard _ hv | unary _ _ hv | returning _ hv => simp only [guardedWith, evalWith, hv]
  | binary _ _ _ hl hr => simp only [guardedWith, evalWith, hl, hr]
  | update _ _ hl hr =>
    simp only [guardedWith, hl, hr]
    rfl
  | conditional _ _ _ hc ht he =>
    simp only [guardedWith, hc, ht, he]
    rfl
  | loop _ _ hc hb =>
    simp only [guardedWith, hc, hb, h]
    rfl
  | call _ _ hf ha => simp only [guardedWith, evalWith, hf, ha, opening_eq h]
  | dereference _ hv =>
    simp only [guardedWith, hv, readOpen_false]
    rfl
  | scope _ _ hb => simp only [guardedWith, evalWith, hb]

/-- Evaluation without a guard is evaluation. -/
theorem guarded_none (fuel : Nat) (t : Term 1) (env opened : List Nat) :
    t.guarded {} fuel env opened = t.eval fuel env := by
  induction fuel generalizing t env opened with
  | zero => exact guardedWith_none (fun _ _ _ => rfl) t env opened
  | succ fuel ih => exact guardedWith_none ih t env opened

end Term

/-! ## Evaluations that stop earlier -/

namespace Guard

/-- How guarded evaluation stops where evaluation goes on. -/
def Stops (g : Guard) : Break → Prop
  | .failed e => g.Refuses e
  | _ => False

end Guard

/-- How an evaluation stops where more fuel would let it go on. -/
def Break.IsTimeout (b : Break) : Prop := b = .timeout

namespace Eval

variable {α β : Type} {stops : Break → Prop} {x y : Eval α}

/-- An evaluation does what another one does, unless it stops in one of some ways. -/
def Restricts (stops : Break → Prop) (x y : Eval α) : Prop :=
  ∀ σ, x σ = y σ ∨ ∃ b σ', x σ = .error b σ' ∧ stops b

namespace Restricts

theorem refl (stops : Break → Prop) (x : Eval α) : Restricts stops x x := fun _ => .inl rfl

theorem throw {b : Break} (hb : stops b) (y : Eval α) : Restricts stops (throw b) y := fun σ => .inr ⟨b, σ, rfl, hb⟩

theorem bind {f k : α → Eval β} (hx : Restricts stops x y) (hf : ∀ a, Restricts stops (f a) (k a)) :
    Restricts stops (x >>= f) (y >>= k) := by
  intro σ
  show EStateM.bind x f σ = EStateM.bind y k σ ∨ ∃ b σ', EStateM.bind x f σ = .error b σ' ∧ stops b
  rcases hx σ with hsame | ⟨b, σ', hrun, hb⟩
  · rw [EStateM.bind, EStateM.bind, hsame]
    cases y σ with
    | ok a σ₁ => exact hf a σ₁
    | error => exact .inl rfl
  · exact .inr ⟨b, σ', by rw [EStateM.bind, hrun], hb⟩

/-- What comes first is the same. -/
theorem after (x : Eval α) {f k : α → Eval β} (hf : ∀ a, Restricts stops (f a) (k a)) :
    Restricts stops (x >>= f) (x >>= k) :=
  bind (refl stops x) hf

theorem catchReturn (hstops : ∀ v, ¬ stops (.returned v)) {x y : Eval (Values 1)} (hx : Restricts stops x y) :
    Restricts stops (catchReturn x) (catchReturn y) := by
  intro σ
  rcases hx σ with hsame | ⟨b, σ', hrun, hb⟩
  · exact .inl (by rw [Eval.catchReturn, hsame, Eval.catchReturn])
  · cases b with
    | returned v => exact absurd hb (hstops v)
    | failed | timeout => exact .inr ⟨_, σ', by rw [Eval.catchReturn, hrun], hb⟩

theorem readOpen {g : Guard} {guarded : Bool} (hg : guarded = true → g.loads = true ∨ g.references = true)
    (opened : List Nat) (c : Cell) (pos : Position) : Restricts g.Stops (readOpen guarded opened c pos) (read c pos) := by
  unfold Eval.readOpen
  split
  next h => exact .throw ⟨hg h.1, pos, rfl⟩ _
  · exact refl _ _

end Restricts

end Eval

namespace Term

open Eval

variable {stops : Break → Prop} {g g' : Guard} {lower lower' : Term 1 → List Nat → List Nat → Eval (Values 1)}

theorem apply_restricts (hstops : ∀ v, ¬ stops (.returned v))
    (h : ∀ t env opened, Restricts stops (lower t env opened) (lower' t env opened)) (opened : List Nat)
    (callee : Value) (arguments : List Value) :
    Restricts stops (apply (opening lower opened) callee arguments) (apply (opening lower' opened) callee arguments) := by
  cases callee with
  | closure _ arity body env =>
    simp only [apply]
    split
    · exact .refl _ _
    · exact .after _ fun f => .catchReturn hstops (h body (env ++ [f]) _)
  | _ => exact .refl _ _

/-- A guarded evaluation stops earlier than another one where its accesses and the bodies of calls do. -/
theorem guardedWith_restricts (hstops : ∀ v, ¬ stops (.returned v))
    (hloads : ∀ opened c pos, Restricts stops (readOpen g.loads opened c pos) (readOpen g'.loads opened c pos))
    (hreferences : ∀ opened c pos,
      Restricts stops (readOpen g.references opened c pos) (readOpen g'.references opened c pos))
    (h : ∀ t env opened, Restricts stops (lower t env opened) (lower' t env opened)) {n : Nat} (t : Term n)
    (env opened : List Nat) :
    Restricts stops (t.guardedWith g lower env opened) (t.guardedWith g' lower' env opened) := by
  induction t generalizing env opened with
  | nothing | constant | borrow | closure => exact .refl _ _
  | seq _ _ hf hr => exact .bind (hf env opened) fun _ => hr env opened
  | also _ _ hf hr => exact .bind (hf env opened) fun _ => .bind (hr env opened) fun _ => .refl _ _
  | load frame slot => exact .after _ fun c => .bind (hloads opened c _) fun _ => .refl _ _
  | store _ _ _ hv => exact .bind (hv env opened) fun _ => .refl _ _
  | discard _ hv => exact .bind (hv env opened) fun _ => .refl _ _
  | unary _ _ hv => exact .bind (hv env opened) fun _ => .refl _ _
  | returning _ hv => exact .bind (hv env opened) fun _ => .refl _ _
  | binary _ _ _ hl hr => exact .bind (hl env opened) fun _ => .bind (hr env opened) fun _ => .refl _ _
  | update _ _ hl hr =>
    refine .bind (hl env opened) fun r => .bind (hr env opened) fun v => ?_
    cases r.head with
    | reference _ mutable => cases mutable <;> exact .refl _ _
    | _ => exact .refl _ _
  | conditional _ _ _ hc ht he =>
    refine .bind (hc env opened) fun c => ?_
    cases c.head with
    | bool b =>
      cases b with
      | true => exact ht env opened
      | false => exact he env opened
    | _ => exact .refl _ _
  | loop condition body hc hb =>
    refine .bind (hc env opened) fun c => ?_
    cases c.head with
    | bool b =>
      cases b with
      | true => exact .bind (hb env opened) fun _ => h (.loop condition body) env opened
      | false => exact .refl _ _
    | _ => exact .refl _ _
  | call _ _ hf ha =>
    exact .bind (hf env opened) fun f => .bind (ha env opened) fun vs =>
      .bind (apply_restricts hstops h opened f.head vs.toList) fun _ => .refl _ _
  | dereference _ hv =>
    refine .bind (hv env opened) fun r => ?_
    cases r.head with
    | reference _ _ c pos => exact .bind (hreferences opened c pos) fun _ => .refl _ _
    | _ => exact .refl _ _
  | scope _ _ hb => exact .after _ fun f => hb (env ++ [f]) (opened ++ [f])

/-- Guarded evaluation is evaluation as far as the guard lets it. -/
theorem guarded_restricts (g : Guard) (fuel : Nat) (t : Term 1) (env opened : List Nat) :
    Restricts g.Stops (t.guarded g fuel env opened) (t.eval fuel env) := by
  rw [← guarded_none fuel t env opened]
  have hloads : ∀ opened c pos, Restricts g.Stops (readOpen g.loads opened c pos)
      (readOpen (Guard.loads {}) opened c pos) := fun opened c pos => by
    rw [readOpen_false]
    exact .readOpen Or.inl opened c pos
  have hreferences : ∀ opened c pos, Restricts g.Stops (readOpen g.references opened c pos)
      (readOpen (Guard.references {}) opened c pos) := fun opened c pos => by
    rw [readOpen_false]
    exact .readOpen Or.inr opened c pos
  induction fuel generalizing t env opened with
  | zero => exact guardedWith_restricts (fun _ h => h) hloads hreferences (fun _ _ _ => .refl _ _) t env opened
  | succ fuel ih => exact guardedWith_restricts (fun _ h => h) hloads hreferences ih t env opened

/-- More fuel changes nothing but timeouts. -/
theorem guarded_fuel (g : Guard) {fuel more : Nat} (hle : fuel ≤ more) (t : Term 1) (env opened : List Nat) :
    Restricts Break.IsTimeout (t.guarded g fuel env opened) (t.guarded g more env opened) := by
  have hstops : ∀ v, ¬ (Break.returned v).IsTimeout := fun _ h => by cases h
  have htimeout : Break.IsTimeout .timeout := rfl
  induction fuel generalizing more t env opened with
  | zero =>
    cases more with
    | zero => exact .refl _ _
    | succ more =>
      exact guardedWith_restricts hstops (fun _ _ _ => .refl _ _) (fun _ _ _ => .refl _ _)
        (fun _ _ _ => .throw htimeout _) t env opened
  | succ fuel ih =>
    cases more with
    | zero => exact absurd hle (Nat.not_succ_le_zero _)
    | succ more =>
      exact guardedWith_restricts hstops (fun _ _ _ => .refl _ _) (fun _ _ _ => .refl _ _)
        (ih (Nat.le_of_succ_le_succ hle)) t env opened

end Term

/-! ## Programs that stay in open blocks -/

namespace Tree

variable {t : Tree} {fuel : Nat}

/-- Whether the evaluation of a program with some fuel reads only variables of blocks and calls that have not been left. -/
def staysOpen (t : Tree) (fuel : Nat) : Bool :=
  match t.term? with
  | none => true
  | some x =>
    match x.guarded .all fuel [0] [0] Store.initial with
    | .error (.failed (.unboundSlot _)) _ => false
    | _ => true

/-- An evaluation that stays in open blocks is not refused an access. -/
theorem not_refused_of_staysOpen (hopen : t.staysOpen fuel = true) {x : Term 1} (hx : t.term? = some x) {e : StepError}
    {σ : Store} (hrun : x.guarded .all fuel [0] [0] Store.initial = .error (.failed e) σ) (pos : Position) :
    e ≠ .unboundSlot pos := by
  rintro rfl
  simp [staysOpen, hx, hrun] at hopen

/-- An evaluation that stays in open blocks passes every guard. -/
theorem staysOpen_guarded (hopen : t.staysOpen fuel = true) {x : Term 1} (hx : t.term? = some x) :
    x.guarded .all fuel [0] [0] Store.initial = x.eval fuel [0] Store.initial := by
  rcases x.guarded_restricts .all fuel [0] [0] Store.initial with hsame | ⟨b, σ, hrun, hb⟩
  · exact hsame
  · cases b with
    | failed e =>
      obtain ⟨-, pos, he⟩ := hb
      exact absurd he (not_refused_of_staysOpen hopen hx hrun pos)
    | returned | timeout => exact hb.elim

/-- Whether the evaluation of a program ends with a value within some fuel and reads only variables of blocks and calls
that have not been left. -/
def endsOpen (t : Tree) (fuel : Nat) : Bool :=
  t.term?.any fun x =>
    match x.guarded .all fuel [0] [0] Store.initial with
    | .ok _ _ => true
    | .error _ _ => false

/-- The evaluation of such a program stays in open blocks with any fuel. -/
theorem staysOpen_of_endsOpen (h : t.endsOpen fuel = true) (other : Nat) : t.staysOpen other = true := by
  obtain ⟨x, hx, hends⟩ := (Option.any_eq_true ..).mp h
  split at hends
  next v σ heval =>
    have hother : x.guarded .all other [0] [0] Store.initial = .ok v σ ∨
        ∃ σ', x.guarded .all other [0] [0] Store.initial = .error .timeout σ' := by
      rcases Nat.le_total other fuel with hle | hle
      · rcases x.guarded_fuel .all hle [0] [0] Store.initial with hsame | ⟨b, σ', hrun, rfl⟩
        · exact .inl (hsame.trans heval)
        · exact .inr ⟨σ', hrun⟩
      · rcases x.guarded_fuel .all hle [0] [0] Store.initial with hsame | ⟨b, σ', hrun, rfl⟩
        · exact .inl (hsame.symm.trans heval)
        · cases heval.symm.trans hrun
    rcases hother with hother | ⟨σ', hother⟩ <;> simp [staysOpen, hx, hother]
  · cases hends

end Tree

end Tenure
