import Tenure.Proofs.Semantics.Guarded

/-!
# Contracts of evaluations

A contract says what is known of a store at a stage, which stages may follow, and with which errors an evaluation may
fail: any but those of accesses to cells that it excludes. `Eval.Meets` says that an evaluation keeps to a contract from
a stage on. One evaluation after the other keeps to it, and what operators, literals and calls of builtins do is the same
for all contracts.
-/

set_option autoImplicit false

namespace Tenure

/-- Whether an error says that a cell has no value or is not there. -/
def StepError.isAccess : StepError → Bool
  | .unassigned _ | .unboundSlot _ => true
  | _ => false

theorem StepError.isAccess_of_isOperation {e : StepError} (h : e.isOperation = true) : e.isAccess = false := by
  cases e with
  | unassigned | unboundSlot => cases h
  | _ => rfl

/-- Whether a value is neither a function nor a reference. -/
def Value.isFlat : Value → Bool
  | .closure _ _ _ _ | .reference _ _ _ _ => false
  | _ => true

/-- What is known of stores along an evaluation, stage after stage. -/
structure Contract (ω : Type) where
  Grows : ω → ω → Prop
  Holds : ω → Store → Prop
  Allows : StepError → Prop
  refl : ∀ w, Grows w w
  trans : ∀ {w w' w''}, Grows w w' → Grows w' w'' → Grows w w''
  stamps : ∀ {w σ} (n : Nat), Holds w σ → Holds w { σ with stamps := n }
  others : ∀ e, e.isAccess = false → Allows e

/-- All values that a term leaves have a property. -/
def Values.All {n : Nat} (P : Value → Prop) (vs : Values n) : Prop := ∀ v ∈ vs.toList, P v

namespace Values.All

variable {n : Nat} {P Q : Value → Prop} {v : Value} {vs : Values n}

theorem nil : Values.All P .nil := fun _ h => by cases h

theorem cons (hv : P v) (hvs : Values.All P vs) : Values.All P (.cons v vs) := by
  rw [Values.All, List.Vector.toList_cons]
  exact List.forall_mem_cons.mpr ⟨hv, hvs⟩

theorem single (hv : P v) : Values.All P (.cons v .nil) := cons hv nil

theorem head {vs : Values 1} (h : Values.All P vs) : P vs.head := by
  refine h vs.head ?_
  rw [← List.Vector.cons_head_tail vs, List.Vector.toList_cons]
  simp

theorem imp (h : Values.All P vs) (hPQ : ∀ v, P v → Q v) : Values.All Q vs := fun v hv => hPQ v (h v hv)

end Values.All

namespace Eval

variable {ω α β : Type} {K : Contract ω} {w : ω} {ret : ω → Value → Prop} {x : Eval α} {Q : ω → α → Prop}

/-- The end of an evaluation that keeps to a contract from a stage on: a result or a returned value with a property, in
a store of a later stage, or an error that is allowed. -/
def Settles (K : Contract ω) (w : ω) (ret : ω → Value → Prop) (Q : ω → α → Prop) :
    EStateM.Result Break Store α → Prop
  | .ok a σ => ∃ w', K.Grows w w' ∧ K.Holds w' σ ∧ Q w' a
  | .error (.returned v) σ => ∃ w', K.Grows w w' ∧ K.Holds w' σ ∧ ret w' v
  | .error (.failed e) _ => K.Allows e
  | .error .timeout _ => True

/-- An evaluation keeps to a contract in all stores of a stage. -/
def Meets (K : Contract ω) (w : ω) (ret : ω → Value → Prop) (x : Eval α) (Q : ω → α → Prop) : Prop :=
  ∀ σ, K.Holds w σ → Settles K w ret Q (x σ)

theorem Settles.mono {w' : ω} (h : K.Grows w w') {r : EStateM.Result Break Store α} (hr : Settles K w' ret Q r) :
    Settles K w ret Q r := by
  cases r with
  | ok a σ =>
    obtain ⟨w'', h', hrest⟩ := hr
    exact ⟨w'', K.trans h h', hrest⟩
  | error b σ =>
    cases b with
    | returned v =>
      obtain ⟨w'', h', hrest⟩ := hr
      exact ⟨w'', K.trans h h', hrest⟩
    | failed e => exact hr
    | timeout => trivial

namespace Meets

theorem of_ok {g : Store → α × Store} (h : ∀ σ, x σ = .ok (g σ).1 (g σ).2)
    (hg : ∀ σ, K.Holds w σ → ∃ w', K.Grows w w' ∧ K.Holds w' (g σ).2 ∧ Q w' (g σ).1) : Meets K w ret x Q := by
  intro σ hσ
  rw [h]
  exact hg σ hσ

theorem pure {a : α} (h : Q w a) : Meets K w ret (pure a) Q :=
  of_ok (g := fun σ => (a, σ)) (fun _ => rfl) fun _ hσ => ⟨w, K.refl w, hσ, h⟩

theorem fail {e : StepError} (h : e.isAccess = false) : Meets K w ret (Eval.fail e) Q := fun _ _ => K.others e h

theorem timeout : Meets K w ret (throw .timeout) Q := fun _ _ => trivial

theorem returned {v : Value} (h : ret w v) : Meets K w ret (throw (.returned v)) Q :=
  fun _ hσ => ⟨w, K.refl w, hσ, h⟩

theorem bind {f : α → Eval β} {R : ω → β → Prop} (hx : Meets K w ret x Q)
    (hf : ∀ w' a, K.Grows w w' → Q w' a → Meets K w' ret (f a) R) : Meets K w ret (x >>= f) R := by
  intro σ hσ
  have hxσ := hx σ hσ
  show Settles K w ret R (EStateM.bind x f σ)
  rw [EStateM.bind]
  cases hres : x σ with
  | ok a σ₁ =>
    rw [hres] at hxσ
    obtain ⟨w₁, hgrow, hσ₁, ha⟩ := hxσ
    exact (hf w₁ a hgrow ha σ₁ hσ₁).mono hgrow
  | error b σ₁ =>
    rw [hres] at hxσ
    cases b with
    | returned v => exact hxσ
    | failed e => exact hxσ
    | timeout => trivial

theorem imp {R : ω → α → Prop} (hx : Meets K w ret x Q) (h : ∀ w' a, K.Grows w w' → Q w' a → R w' a) :
    Meets K w ret x R := by
  intro σ hσ
  have hxσ := hx σ hσ
  cases hres : x σ with
  | ok a σ₁ =>
    rw [hres] at hxσ
    obtain ⟨w₁, hgrow, hσ₁, ha⟩ := hxσ
    exact ⟨w₁, hgrow, hσ₁, h w₁ a hgrow ha⟩
  | error b σ₁ =>
    rw [hres] at hxσ
    cases b with
    | returned v => exact hxσ
    | failed e => exact hxσ
    | timeout => trivial

/-- An evaluation that never ends with a result has every property then. -/
theorem absurd (hx : Meets K w ret x Q) (h : ∀ w' a σ, K.Holds w' σ → ¬ Q w' a) {R : ω → α → Prop} :
    Meets K w ret x R := by
  intro σ hσ
  have hxσ := hx σ hσ
  cases hres : x σ with
  | ok a σ₁ =>
    rw [hres] at hxσ
    obtain ⟨w₁, -, hσ₁, ha⟩ := hxσ
    exact (h w₁ a σ₁ hσ₁ ha).elim
  | error b σ₁ =>
    rw [hres] at hxσ
    cases b with
    | returned v => exact hxσ
    | failed e => exact hxσ
    | timeout => trivial

/-- A call catches what its function returns. -/
theorem catchReturn {inner : ω → Value → Prop} {body : Eval (Values 1)} {P : ω → Value → Prop}
    (h : Meets K w inner body fun w' v => P w' v.head) (hreturned : ∀ w' v, K.Grows w w' → inner w' v → P w' v) :
    Meets K w ret (Eval.catchReturn body) P := by
  intro σ hσ
  have hbody := h σ hσ
  unfold Eval.catchReturn
  cases hres : body σ with
  | ok v σ₁ =>
    rw [hres] at hbody
    exact hbody
  | error b σ₁ =>
    rw [hres] at hbody
    cases b with
    | returned v =>
      obtain ⟨w', hgrow, hσ', hv⟩ := hbody
      exact ⟨w', hgrow, hσ', hreturned w' v hgrow hv⟩
    | failed e => exact hbody
    | timeout => trivial

theorem stamp : Meets K w ret Eval.stamp fun w' _ => w' = w :=
  of_ok (g := fun σ => (σ.stamps, { σ with stamps := σ.stamps + 1 })) (fun _ => rfl)
    fun _ hσ => ⟨w, K.refl w, K.stamps _ hσ, rfl⟩

theorem number (n : Number) : Meets K w ret (Eval.number n) fun _ v => v.isFlat = true :=
  stamp.bind fun _ _ _ _ => pure rfl

theorem literal (l : Literal) : Meets K w ret (Eval.literal l) fun _ v => v.isFlat = true := by
  unfold Eval.literal
  repeat' split
  all_goals first | exact pure rfl | exact number _

theorem outcome {r : Except StepError (Bool ⊕ Number)} (h : Computed r) :
    Meets K w ret (Eval.outcome r) fun _ v => v.isFlat = true := by
  match r, h with
  | .ok (.inl b), _ => exact pure rfl
  | .ok (.inr n), _ => exact number n
  | .error e, h => exact fail (StepError.isAccess_of_isOperation (h e rfl))

/-- A call gives flat values, arguments or what a function gives. -/
theorem apply {lower : Term 1 → List Nat → Eval (Values 1)} {callee : Value} {arguments : List Value}
    {P : ω → Value → Prop} (hflat : ∀ w' v, v.isFlat = true → P w' v) (harguments : ∀ v ∈ arguments, P w v)
    (hclosure : ∀ stamp body env, callee = .closure stamp arguments.length body env → Meets K w ret (do
      let f ← Eval.frame (arguments.map some)
      Eval.catchReturn (lower body (env ++ [f]))) P) : Meets K w ret (Term.apply lower callee arguments) P := by
  unfold Term.apply
  split
  next b =>
    split
    · exact fail rfl
    · cases hb : Operand.builtin b (arguments.map Value.operand) with
      | error e => exact fail (StepError.isAccess_of_isOperation (Computed.builtin _ _ _ hb))
      | ok r =>
        cases r with
        | inr n => exact (number n).imp fun w' v _ => hflat w' v
        | inl first =>
          refine pure ?_
          rw [List.getD_eq_getElem?_getD]
          cases hv : arguments[if first then 0 else 1]? with
          | none => exact hflat w .unit rfl
          | some v => exact harguments v (List.mem_of_getElem? hv)
  next stamp arity body env =>
    split
    · exact fail rfl
    next harity =>
      obtain rfl := not_not.mp harity
      exact hclosure stamp body env rfl
  · exact fail rfl

end Meets

end Eval

end Tenure
