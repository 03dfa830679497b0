import Mathlib.Data.List.Forall2
import Tenure.Proofs.Semantics.Eval
import Tenure.Proofs.Typing.Terms

/-!
# Soundness of the types of terms

The evaluation of a well typed term does not fail with an error of types: it leaves values of its types, returns a
value of the type that its function has to return, fails for another reason, or runs out of fuel (`Term.eval_sound`).

The types of all frames made so far are a context themselves. It only grows, so a value keeps its type.
-/

set_option autoImplicit false

namespace Tenure

/-- Whether an error says that an instruction met a value of the wrong type. -/
def StepError.isTypeError : StepError → Bool
  | .conditionKind _ | .binaryOperands _ _ _ | .unaryOperand _ _ | .builtinOperand _ _ => true
  | .notCallable _ | .functionArity _ _ | .builtinArity _ _ _ => true
  | .notReference _ | .immutableReference | .unknownOperator _ => true
  | _ => false

/-! ## Values -/

/-- An environment of frames whose slots have the types of a context. -/
def EnvTyped (Δ : Context) (env : List Nat) (Γ : Context) : Prop := List.Forall₂ (fun f types => Δ[f]? = some types) env Γ

/-- A value has a type, given the types of all frames. -/
inductive Value.HasType (Δ : Context) : Value → Ty → Prop where
  | unit : HasType Δ .unit .unit
  | bool (b : Bool) : HasType Δ (.bool b) .bool
  | int (stamp : Nat) (n : Int) : HasType Δ (.number stamp (.int n)) .i32
  | float (stamp : Nat) (x : Float) : HasType Δ (.number stamp (.float x)) .f32
  | char (code : Int) : HasType Δ (.char code) .char
  | text (t : Text) : HasType Δ (.text t) .str
  | builtin {b : Builtin} {parameters : List Ty} {result : Ty} (h : b.type = .function parameters result) :
      HasType Δ (.builtin b) (.function parameters result)
  | closure {stamp : Nat} {body : Term 1} {env : List Nat} {Γ : Context} {parameters : List Ty} {result : Ty}
      (henv : EnvTyped Δ env Γ) (hbody : body.Typed (some result) (Γ ++ [parameters.map some]) [result]) :
      HasType Δ (.closure stamp parameters.length body env) (.function parameters result)
  | reference {stamp : Nat} {mutable : Bool} {cell : Cell} {pos : Position} {τ : Ty}
      (hcell : Δ.at? cell.frame cell.slot = some (some τ)) :
      HasType Δ (.reference stamp mutable cell pos) (.reference τ mutable)

/-- A value is a function at which a program can start. -/
inductive Value.IsEntry (Δ : Context) : Value → Prop where
  | closure {stamp : Nat} {body : Term 1} {env : List Nat} {Γ : Context} {τ : Ty} (henv : EnvTyped Δ env Γ)
      (hbody : body.Typed none (Γ ++ [[]]) [τ]) : IsEntry Δ (.closure stamp 0 body env)

/-- A value fits a slot. -/
def Value.Fits (Δ : Context) (v : Value) : Option Ty → Prop
  | some τ => v.HasType Δ τ
  | none => v.IsEntry Δ

section Growth

variable {Δ Δ' : Context}

theorem Context.at?_mono (h : Δ <+: Δ') {frame slot : Nat} {τ : Option Ty} (hslot : Δ.at? frame slot = some τ) :
    Δ'.at? frame slot = some τ := by
  obtain ⟨more, rfl⟩ := h
  exact Context.at?_append hslot more

theorem EnvTyped.mono {env : List Nat} {Γ : Context} (henv : EnvTyped Δ env Γ) (h : Δ <+: Δ') : EnvTyped Δ' env Γ := by
  refine List.Forall₂.imp (fun f types hf => ?_) henv
  obtain ⟨more, rfl⟩ := h
  rw [List.getElem?_append_left (List.getElem?_eq_some_iff.mp hf).1, hf]

theorem EnvTyped.at? {env : List Nat} {Γ : Context} (henv : EnvTyped Δ env Γ) {frame slot : Nat} {τ : Option Ty}
    (hslot : Γ.at? frame slot = some τ) : ∃ f, env[frame]? = some f ∧ Δ.at? f slot = some τ := by
  induction henv generalizing frame with
  | nil => cases hslot
  | @cons f types env Γ hf _ ih =>
    cases frame with
    | zero => exact ⟨f, rfl, by rw [Context.at?, hf]; exact hslot⟩
    | succ frame => exact ih hslot

/-- An environment with a new frame inside. -/
theorem EnvTyped.extend {env : List Nat} {Γ : Context} (henv : EnvTyped Δ env Γ) (types : List (Option Ty)) :
    EnvTyped (Δ ++ [types]) (env ++ [Δ.length]) (Γ ++ [types]) :=
  List.rel_append (henv.mono (List.prefix_append ..)) (.cons (by simp) .nil)

theorem Value.HasType.mono {v : Value} {τ : Ty} (hv : v.HasType Δ τ) (h : Δ <+: Δ') : v.HasType Δ' τ := by
  cases hv with
  | unit => exact .unit
  | bool b => exact .bool b
  | int stamp n => exact .int stamp n
  | float stamp x => exact .float stamp x
  | char code => exact .char code
  | text t => exact .text t
  | builtin h => exact .builtin h
  | closure henv hbody => exact .closure (henv.mono h) hbody
  | reference hcell => exact .reference (Context.at?_mono h hcell)

theorem Value.Fits.mono {v : Value} {τ : Option Ty} (hv : v.Fits Δ τ) (h : Δ <+: Δ') : v.Fits Δ' τ := by
  cases τ with
  | some τ => exact Value.HasType.mono hv h
  | none =>
    cases hv with
    | closure henv hbody => exact .closure (henv.mono h) hbody

end Growth

/-- The values that a term leaves have given types. -/
def Values.HasTypes (Δ : Context) {n : Nat} (vs : Values n) (τs : List Ty) : Prop :=
  List.Forall₂ (Value.HasType Δ) vs.toList τs

namespace Values.HasTypes

variable {Δ Δ' : Context}

theorem mono {n : Nat} {vs : Values n} {τs : List Ty} (hvs : Values.HasTypes Δ vs τs) (h : Δ <+: Δ') :
    Values.HasTypes Δ' vs τs :=
  List.Forall₂.imp (fun _ _ hv => hv.mono h) hvs

theorem cons {n : Nat} {v : Value} {vs : Values n} {τ : Ty} {τs : List Ty} (hv : v.HasType Δ τ)
    (hvs : Values.HasTypes Δ vs τs) : Values.HasTypes Δ (.cons v vs) (τ :: τs) := by
  rw [Values.HasTypes, List.Vector.toList_cons]
  exact .cons hv hvs

theorem single {v : Value} {τ : Ty} (hv : v.HasType Δ τ) : Values.HasTypes Δ (.cons v .nil) [τ] := cons hv .nil

theorem head {v : Values 1} {τ : Ty} (h : Values.HasTypes Δ v [τ]) : v.head.HasType Δ τ := by
  obtain ⟨vs, hlength⟩ := v
  cases h with
  | cons hv _ => exact hv

end Values.HasTypes

/-! ## Stores -/

/-- What a cell holds. -/
def Store.cell? (σ : Store) (c : Cell) : Option (Option Value) := σ.frames[c.frame]?.bind fun cells => cells[c.slot]?

/-- The cells of a store hold values of the types of their frames. -/
structure Store.Typed (Δ : Context) (σ : Store) : Prop where
  length : σ.frames.length = Δ.length
  fits : ∀ c v τ, σ.cell? c = some (some v) → Δ.at? c.frame c.slot = some τ → v.Fits Δ τ

namespace Store.Typed

variable {Δ : Context} {σ : Store}

theorem stamp (hσ : σ.Typed Δ) (n : Nat) : Store.Typed Δ { σ with stamps := n } := ⟨hσ.length, hσ.fits⟩

/-- A new frame, whose cells hold values of its types. -/
theorem frame (hσ : σ.Typed Δ) {cells : List (Option Value)} {types : List (Option Ty)}
    (hcells : ∀ (i : Nat) v τ, cells[i]? = some (some v) → types[i]? = some τ → v.Fits Δ τ) :
    Store.Typed (Δ ++ [types]) { σ with frames := σ.frames ++ [cells] } where
  length := by simp [hσ.length]
  fits c v τ hc hτ := by
    have hgrow : Δ <+: Δ ++ [types] := List.prefix_append ..
    simp only [Store.cell?, Context.at?, List.getElem?_append, hσ.length] at hc hτ
    split at hc
    next hlt =>
      simp only [hlt, if_true] at hτ
      exact (hσ.fits c v τ hc hτ).mono hgrow
    next hge =>
      simp only [hge, if_false] at hτ
      obtain ⟨cells', hcells', hc⟩ := Option.bind_eq_some_iff.mp hc
      obtain ⟨types', htypes', hτ⟩ := Option.bind_eq_some_iff.mp hτ
      simp only [List.getElem?_singleton, Option.ite_none_right_eq_some, Option.some.injEq] at hcells' htypes'
      obtain ⟨-, rfl⟩ := hcells'
      obtain ⟨-, rfl⟩ := htypes'
      exact (hcells c.slot v τ hc hτ).mono hgrow

/-- A cell that is given a value of its type. -/
theorem write (hσ : σ.Typed Δ) {c : Cell} {v : Value}
    (hv : ∀ τ, Δ.at? c.frame c.slot = some τ → v.Fits Δ τ) :
    Store.Typed Δ { σ with frames := σ.frames.modify c.frame fun cells => cells.set c.slot (some v) } where
  length := by simp [hσ.length]
  fits c' v' τ hc' hτ := by
    by_cases hsame : c = c'
    · subst hsame
      obtain ⟨cells, hcells, hslot⟩ := Option.bind_eq_some_iff.mp hc'
      simp only [List.getElem?_modify_eq, Option.map_eq_map, Option.map_eq_some_iff] at hcells
      obtain ⟨cells, -, rfl⟩ := hcells
      simp only [List.getElem?_set_self', Option.map_eq_map, Option.map_eq_some_iff, Function.const_apply] at hslot
      obtain ⟨_, -, hslot⟩ := hslot
      cases hslot
      exact hv τ hτ
    · refine hσ.fits c' v' τ ?_ hτ
      rw [← hc']
      simp only [Store.cell?, List.getElem?_modify]
      by_cases hframe : c.frame = c'.frame
      · have hslot : c.slot ≠ c'.slot := fun hslot => hsame (by cases c; cases c'; simp_all)
        cases σ.frames[c'.frame]? <;> simp [hframe, hslot]
      · cases σ.frames[c'.frame]? <;> simp [hframe]

end Store.Typed

/-! ## Sound evaluations -/

/-- The end of a sound evaluation that started in a store of some types: no error of types, a result with a property, or
a returned value of a type. -/
def Eval.Settled {α : Type} (Δ : Context) (ret : Option Ty) (Q : Context → α → Prop) :
    EStateM.Result Break Store α → Prop
  | .ok a σ => ∃ Δ', Δ <+: Δ' ∧ σ.Typed Δ' ∧ Q Δ' a
  | .error (.returned v) σ => ∃ Δ', Δ <+: Δ' ∧ σ.Typed Δ' ∧ ∀ ρ, ret = some ρ → v.HasType Δ' ρ
  | .error (.failed e) _ => e.isTypeError = false
  | .error .timeout _ => True

/-- An evaluation is sound in all stores of some types. -/
def Eval.Sound {α : Type} (Δ : Context) (ret : Option Ty) (x : Eval α) (Q : Context → α → Prop) : Prop :=
  ∀ σ, σ.Typed Δ → Eval.Settled Δ ret Q (x σ)

theorem Eval.Settled.mono {α : Type} {Δ Δ' : Context} (h : Δ <+: Δ') {ret : Option Ty} {Q : Context → α → Prop}
    {r : EStateM.Result Break Store α} (hr : Settled Δ' ret Q r) : Settled Δ ret Q r := by
  cases r with
  | ok a σ =>
    obtain ⟨Δ'', h', hrest⟩ := hr
    exact ⟨Δ'', h.trans h', hrest⟩
  | error b σ =>
    cases b with
    | returned v =>
      obtain ⟨Δ'', h', hrest⟩ := hr
      exact ⟨Δ'', h.trans h', hrest⟩
    | failed e => exact hr
    | timeout => trivial

namespace Eval.Sound

variable {α β : Type} {Δ : Context} {ret : Option Ty} {x : Eval α} {Q : Context → α → Prop}

theorem of_ok {g : Store → α × Store} (h : ∀ σ, x σ = .ok (g σ).1 (g σ).2)
    (hg : ∀ σ, σ.Typed Δ → ∃ Δ', Δ <+: Δ' ∧ (g σ).2.Typed Δ' ∧ Q Δ' (g σ).1) : Sound Δ ret x Q := by
  intro σ hσ
  rw [h]
  exact hg σ hσ

theorem pure {a : α} (h : Q Δ a) : Sound Δ ret (pure a) Q :=
  of_ok (g := fun σ => (a, σ)) (fun _ => rfl) fun _ hσ => ⟨Δ, List.prefix_rfl, hσ, h⟩

theorem fail {e : StepError} (h : e.isTypeError = false) : Sound Δ ret (Eval.fail e) Q := fun _ _ => h

theorem timeout : Sound Δ ret (throw .timeout) Q := fun _ _ => trivial

theorem returned {v : Value} (h : ∀ ρ, ret = some ρ → v.HasType Δ ρ) : Sound Δ ret (throw (.returned v)) Q :=
  fun _ hσ => ⟨Δ, List.prefix_rfl, hσ, h⟩

theorem bind {f : α → Eval β} {R : Context → β → Prop} (hx : Sound Δ ret x Q)
    (hf : ∀ Δ' a, Δ <+: Δ' → Q Δ' a → Sound Δ' ret (f a) R) : Sound Δ ret (x >>= f) R := by
  intro σ hσ
  have hxσ := hx σ hσ
  show Settled Δ ret R (EStateM.bind x f σ)
  rw [EStateM.bind]
  cases hres : x σ with
  | ok a σ₁ =>
    rw [hres] at hxσ
    obtain ⟨Δ₁, hgrow, hσ₁, ha⟩ := hxσ
    exact (hf Δ₁ a hgrow ha σ₁ hσ₁).mono hgrow
  | error b σ₁ =>
    rw [hres] at hxσ
    cases b with
    | returned v => exact hxσ
    | failed e => exact hxσ
    | timeout => trivial

theorem stamp : Sound Δ ret Eval.stamp fun _ _ => True :=
  of_ok (g := fun σ => (σ.stamps, { σ with stamps := σ.stamps + 1 })) (fun _ => rfl)
    fun _ hσ => ⟨Δ, List.prefix_rfl, hσ.stamp _, trivial⟩

theorem frame {cells : List (Option Value)} (types : List (Option Ty))
    (hcells : ∀ (i : Nat) v τ, cells[i]? = some (some v) → types[i]? = some τ → v.Fits Δ τ) :
    Sound Δ ret (Eval.frame cells) fun Δ' f => f = Δ.length ∧ Δ' = Δ ++ [types] :=
  of_ok (g := fun σ => (σ.frames.length, { σ with frames := σ.frames ++ [cells] })) (fun _ => rfl)
    fun _ hσ => ⟨Δ ++ [types], List.prefix_append .., hσ.frame hcells, hσ.length, rfl⟩

theorem cell {env : List Nat} {Γ : Context} (henv : EnvTyped Δ env Γ) {frame slot : Nat} {τ : Option Ty}
    (hslot : Γ.at? frame slot = some τ) :
    Sound Δ ret (Eval.cell env frame slot) fun Δ' c => Δ'.at? c.frame c.slot = some τ := by
  obtain ⟨f, hf, hat⟩ := henv.at? hslot
  rw [Eval.cell, hf]
  exact pure hat

theorem read {c : Cell} {τ : Option Ty} (hc : Δ.at? c.frame c.slot = some τ) (pos : Position) :
    Sound Δ ret (Eval.read c pos) fun Δ' v => v.Fits Δ' τ := by
  intro σ hσ
  have hfits := fun v hv => hσ.fits c v τ hv hc
  rw [Eval.read, Eval.get_bind_apply]
  rw [Store.cell?] at hfits
  generalize (σ.frames[c.frame]?.bind fun cells => cells[c.slot]?) = content at hfits
  rcases content with _ | _ | v
  · exact fail rfl σ hσ
  · exact fail rfl σ hσ
  · exact pure (hfits v rfl) σ hσ

theorem write {c : Cell} {v : Value} (hv : ∀ τ, Δ.at? c.frame c.slot = some τ → v.Fits Δ τ) :
    Sound Δ ret (Eval.write c v) fun _ _ => True :=
  of_ok (g := fun σ => ((), { σ with frames := σ.frames.modify c.frame fun cells => cells.set c.slot (some v) }))
    (fun _ => rfl) fun _ hσ => ⟨Δ, List.prefix_rfl, hσ.write hv, trivial⟩

/-- A call catches what its function returns. -/
theorem catchReturn {ret' : Option Ty} {body : Eval (Values 1)} {P : Context → Value → Prop}
    (h : Sound Δ ret' body fun Δ' v => P Δ' v.head)
    (hret : ∀ Δ' v, (∀ ρ, ret' = some ρ → v.HasType Δ' ρ) → P Δ' v) : Sound Δ ret (Eval.catchReturn body) P := by
  intro σ hσ
  have hbody := h σ hσ
  unfold Eval.catchReturn
  cases hres : body σ with
  | ok v σ₁ =>
    rw [hres] at hbody
    exact hbody
  | error b σ₁ =>
    rw [hres] at hbody
    cases b with
    | returned v =>
      obtain ⟨Δ', hgrow, hσ', hv⟩ := hbody
      exact ⟨Δ', hgrow, hσ', hret Δ' v hv⟩
    | failed e => exact hbody
    | timeout => trivial

theorem imp {R : Context → α → Prop} (hx : Sound Δ ret x Q) (h : ∀ Δ' a, Δ <+: Δ' → Q Δ' a → R Δ' a) :
    Sound Δ ret x R := by
  intro σ hσ
  have hxσ := hx σ hσ
  cases hres : x σ with
  | ok a σ₁ =>
    rw [hres] at hxσ
    obtain ⟨Δ₁, hgrow, hσ₁, ha⟩ := hxσ
    exact ⟨Δ₁, hgrow, hσ₁, h Δ₁ a hgrow ha⟩
  | error b σ₁ =>
    rw [hres] at hxσ
    cases b with
    | returned v => exact hxσ
    | failed e => exact hxσ
    | timeout => trivial

/-- An evaluation that is never complete is sound for whatever comes after it. -/
theorem of_incomplete (hx : Sound Δ ret x Q) (h : ∀ σ a σ', x σ ≠ .ok a σ') : Sound Δ ret x fun _ _ => False := by
  intro σ hσ
  have hxσ := hx σ hσ
  cases hres : x σ with
  | ok a σ₁ => exact absurd hres (h σ a σ₁)
  | error b σ₁ =>
    rw [hres] at hxσ
    cases b with
    | returned v => exact hxσ
    | failed e => exact hxσ
    | timeout => trivial

end Eval.Sound

/-! ## Operators -/

/-- The value of a literal has its type. -/
theorem Eval.Sound.literal {Δ : Context} {ret : Option Ty} (l : Literal) :
    Sound Δ ret (Eval.literal l) fun Δ' v => v.HasType Δ' l.ty := by
  unfold Eval.literal Literal.ty
  split
  · exact .pure .unit
  split
  · exact .pure (.bool _)
  split
  · exact stamp.bind fun Δ' stamp _ _ => .pure (.int stamp _)
  split
  · exact stamp.bind fun Δ' stamp _ _ => .pure (.float stamp _)
  split
  · exact .pure (.char _)
  · exact .pure (.text _)

/-- An outcome of an operator is no error of types, and a value of a type. -/
inductive OutcomeTyped : Ty → Except StepError (Bool ⊕ Number) → Prop where
  | truth (b : Bool) : OutcomeTyped .bool (.ok (.inl b))
  | int (n : Int) : OutcomeTyped .i32 (.ok (.inr (.int n)))
  | float (x : Float) : OutcomeTyped .f32 (.ok (.inr (.float x)))
  | error {τ : Ty} {e : StepError} (h : e.isTypeError = false) : OutcomeTyped τ (.error e)

theorem Eval.Sound.outcome {Δ : Context} {ret : Option Ty} {τ : Ty} {r : Except StepError (Bool ⊕ Number)}
    (h : OutcomeTyped τ r) : Sound Δ ret (Eval.outcome r) fun Δ' v => v.HasType Δ' τ := by
  cases h with
  | truth b => exact .pure (.bool b)
  | int n => exact stamp.bind fun Δ' stamp _ _ => .pure (.int stamp n)
  | float x => exact stamp.bind fun Δ' stamp _ _ => .pure (.float stamp x)
  | error h => exact .fail h

/-- Arithmetic on numbers of two types gives a number of the wider one, or fails to divide by zero. -/
theorem operate_outcome {op : Text} {m n : Number} {τ υ : Ty}
    (hop : op = "+" ∨ op = "-" ∨ op = "*" ∨ op = "/" ∨ op = "%")
    (hm : (τ = .i32 ∧ ∃ i, m = .int i) ∨ (τ = .f32 ∧ ∃ x, m = .float x))
    (hn : (υ = .i32 ∧ ∃ i, n = .int i) ∨ (υ = .f32 ∧ ∃ x, n = .float x)) :
    OutcomeTyped (τ.wider υ) ((m.operate op n).map .inr) := by
  have hword : ∀ a b, OutcomeTyped .i32 (((wordOperator op a b).map fun r => Number.int r.toInt).map .inr) := by
    intro a b
    unfold wordOperator
    rcases hop with rfl | rfl | rfl | rfl | rfl
    · exact .int _
    · exact .int _
    · exact .int _
    all_goals
      by_cases hb : b = 0
      · simp only [hb, if_true]
        exact .error rfl
      · simp only [hb, if_false]
        exact .int _
  have hfloat : ∀ a b, OutcomeTyped .f32 (((floatOperator op a b).map Number.float).map .inr) := by
    intro a b
    unfold floatOperator
    rcases hop with rfl | rfl | rfl | rfl | rfl
    · exact .float _
    · exact .float _
    · exact .float _
    all_goals
      by_cases hb : (b == 0) = true
      · simp only [hb, if_true]
        exact .error rfl
      · simp only [hb]
        exact .float _
  rcases hm with ⟨rfl, i, rfl⟩ | ⟨rfl, x, rfl⟩ <;> rcases hn with ⟨rfl, j, rfl⟩ | ⟨rfl, y, rfl⟩
  · exact hword _ _
  · exact hfloat _ _
  · exact hfloat _ _
  · exact hfloat _ _

namespace Value.HasType

variable {Δ : Context} {v w : Value} {τ υ ρ : Ty}

theorem unary_outcome {op : Text} (hop : UnaryTyped op τ) (hv : v.HasType Δ τ) :
    OutcomeTyped τ (Operand.unary op v.operand) := by
  cases hop with
  | complement h =>
    rcases h with rfl | rfl
    · cases hv
      exact .truth _
    · cases hv
      exact .int _
  | negation h =>
    cases hv with
    | int => exact .int _
    | float => exact .float _
    | _ => cases h

/-- The number type of a number. -/
theorem of_isNumeric (hv : v.HasType Δ τ) (h : τ.isNumeric = true) :
    ∃ stamp n, v = .number stamp n ∧ ((τ = .i32 ∧ ∃ i, n = .int i) ∨ (τ = .f32 ∧ ∃ x, n = .float x)) := by
  cases hv with
  | int stamp n => exact ⟨stamp, _, rfl, .inl ⟨rfl, n, rfl⟩⟩
  | float stamp x => exact ⟨stamp, _, rfl, .inr ⟨rfl, x, rfl⟩⟩
  | _ => cases h

/-- A binary operation on values of its types. The first part of each case finds out what the operands are, and then the
operator computes. -/
theorem binary_outcome {op : Text} (hop : BinaryTyped op τ υ ρ) (hv : v.HasType Δ τ) (hw : w.HasType Δ υ)
    (same : Bool) : OutcomeTyped ρ (Operand.binary op same v.operand w.operand) := by
  cases hop with
  | arithmetic hop hτ hυ =>
    obtain ⟨s, m, rfl, hm⟩ := hv.of_isNumeric hτ
    obtain ⟨t, n, rfl, hn⟩ := hw.of_isNumeric hυ
    have hvalues : Operand.binary op same (Value.number s m).operand (Value.number t n).operand =
        (m.operate op n).map .inr := by
      rcases hop with rfl | rfl | rfl | rfl | rfl <;> rfl
    rw [hvalues]
    exact operate_outcome hop hm hn
  | lazy hop =>
    cases hv
    cases hw
    rcases hop with rfl | rfl <;> exact .truth _
  | truths hop =>
    cases hv with
    | bool b =>
      cases hw
      cases b <;> rcases hop with rfl | rfl | rfl <;> exact .truth _
  | bits hop =>
    cases hv
    cases hw
    rcases hop with rfl | rfl | rfl <;> exact .int _
  | shift hop =>
    cases hv
    cases hw
    rcases hop with rfl | rfl <;> exact .int _
  | equality hop => rcases hop with rfl | rfl <;> exact .truth _
  | order hop h =>
    rcases h with ⟨hτ, hυ⟩ | ⟨rfl, rfl⟩
    · obtain ⟨s, m, rfl, -⟩ := hv.of_isNumeric hτ
      obtain ⟨t, n, rfl, -⟩ := hw.of_isNumeric hυ
      rcases hop with rfl | rfl | rfl | rfl <;> exact .truth _
    · cases hv
      cases hw
      rcases hop with rfl | rfl | rfl | rfl <;> exact .truth _

end Value.HasType

/-! ## Calls -/

section Evaluation

variable {lower : Term 1 → List Nat → Eval (Values 1)}

/-- What evaluates the bodies of calls and the further rounds of loops is sound. -/
def LowerSound (lower : Term 1 → List Nat → Eval (Values 1)) : Prop :=
  ∀ {ret : Option Ty} {Γ Δ : Context} {x : Term 1} {τ : Ty} {env : List Nat}, x.Typed ret Γ [τ] → EnvTyped Δ env Γ →
    Eval.Sound Δ ret (lower x env) fun Δ' v => Values.HasTypes Δ' v [τ]

variable {Δ : Context} {ret : Option Ty}

/-- The cells of the arguments of a call. -/
theorem Value.HasType.fits_arguments {vs : List Value} {τs : List Ty} (h : List.Forall₂ (Value.HasType Δ) vs τs)
    (i : Nat) (v : Value) (τ : Option Ty) (hv : (vs.map some)[i]? = some (some v))
    (hτ : (τs.map some)[i]? = some τ) : v.Fits Δ τ := by
  simp only [List.getElem?_map, Option.map_eq_some_iff, Option.some.injEq, exists_eq_right] at hv hτ
  obtain ⟨υ, hυ, rfl⟩ := hτ
  induction h generalizing i with
  | nil => simp at hv
  | cons h _ ih =>
    cases i with
    | zero =>
      cases hv
      cases hυ
      exact h
    | succ i => exact ih i hv hυ

/-- Either of two values of a type. -/
theorem Value.HasType.either {v w : Value} {τ : Ty} (hv : v.HasType Δ τ) (hw : w.HasType Δ τ) (first : Bool) :
    Value.HasType Δ ([v, w].getD (if first then 0 else 1) .unit) τ := by
  cases first
  · exact hw
  · exact hv

theorem Eval.Sound.builtin {b : Builtin} {parameters : List Ty} {result : Ty}
    (hb : b.type = .function parameters result) {vs : List Value} (hvs : List.Forall₂ (Value.HasType Δ) vs parameters) :
    Eval.Sound Δ ret (Term.apply lower (.builtin b) vs) fun Δ' v => v.HasType Δ' result := by
  cases b with
  | abs =>
    cases hb
    obtain _ | ⟨hx, _ | _⟩ := hvs
    cases hx
    exact stamp.bind fun Δ' stamp _ _ => .pure (.int stamp _)
  | sqrt =>
    cases hb
    obtain _ | ⟨hx, _ | _⟩ := hvs
    cases hx
    exact stamp.bind fun Δ' stamp _ _ => .pure (.float stamp _)
  | min | max =>
    cases hb
    obtain _ | ⟨hx, _ | ⟨hy, _ | _⟩⟩ := hvs
    cases hx with
    | int s m =>
      cases hy with
      | int t n => exact .pure (.either (.int s m) (.int t n) _)

/-- A call of a function on arguments of its parameter types. -/
theorem Eval.Sound.apply (hlower : LowerSound lower) {f : Value} {parameters : List Ty} {result : Ty}
    (hf : f.HasType Δ (.function parameters result)) {vs : List Value}
    (hvs : List.Forall₂ (Value.HasType Δ) vs parameters) :
    Eval.Sound Δ ret (Term.apply lower f vs) fun Δ' v => v.HasType Δ' result := by
  cases hf with
  | builtin hb => exact .builtin hb hvs
  | closure henv hbody =>
    rw [Term.apply, if_neg (by simp [hvs.length_eq])]
    refine (frame _ (Value.HasType.fits_arguments hvs)).bind fun Δ' f hgrow hf => ?_
    obtain ⟨rfl, rfl⟩ := hf
    exact .catchReturn ((hlower hbody (henv.extend _)).imp fun _ _ _ hv => hv.head) fun Δ' v hv => hv _ rfl

/-- A call of the function at which a program starts. -/
theorem Eval.Sound.apply_entry (hlower : LowerSound lower) {f : Value} (hf : f.IsEntry Δ) :
    Eval.Sound Δ ret (Term.apply lower f []) fun _ _ => True := by
  cases hf with
  | closure henv hbody =>
    rw [Term.apply, if_neg (by simp)]
    refine (frame [] (by simp)).bind fun Δ' f hgrow hf => ?_
    obtain ⟨rfl, rfl⟩ := hf
    exact .catchReturn (P := fun _ _ => True) ((hlower hbody (henv.extend _)).imp fun _ _ _ _ => trivial)
      fun _ _ _ => trivial

/-! ## Terms -/

theorem Eval.bind_eq_ok {α β : Type} {x : Eval α} {f : α → Eval β} {σ σ' : Store} {b : β}
    (h : (x >>= f) σ = .ok b σ') : ∃ a σ₁, x σ = .ok a σ₁ ∧ f a σ₁ = .ok b σ' := by
  replace h : EStateM.bind x f σ = .ok b σ' := h
  rw [EStateM.bind] at h
  cases hx : x σ with
  | ok a σ₁ => exact ⟨a, σ₁, rfl, by rw [hx] at h; exact h⟩
  | error e σ₁ =>
    rw [hx] at h
    cases h

/-- A term that always returns is never complete. -/
theorem Term.evalWith_diverges {n : Nat} {x : Term n} (hx : x.diverges = true) (env : List Nat) (σ : Store)
    (vs : Values n) (σ' : Store) : x.evalWith lower env σ ≠ .ok vs σ' := by
  intro h
  induction x generalizing σ σ' with
  | seq first rest ihfirst ihrest =>
    obtain ⟨_, σ₁, hfirst, hrest⟩ := Eval.bind_eq_ok h
    rcases Bool.or_eq_true_iff.mp hx with hx | hx
    · exact ihfirst hx σ _ σ₁ hfirst
    · exact ihrest hx σ₁ _ σ' hrest
  | discard value =>
    cases value with
    | returning value =>
      obtain ⟨_, σ₁, hreturning, -⟩ := Eval.bind_eq_ok h
      obtain ⟨_, σ₂, -, hreturned⟩ := Eval.bind_eq_ok hreturning
      cases hreturned
    | _ => cases hx
  | _ => cases hx

/-- The evaluation of a well typed term is sound. -/
theorem Term.evalWith_sound (hlower : LowerSound lower) {Γ : Context} {n : Nat} {x : Term n} {τs : List Ty}
    (hx : x.Typed ret Γ τs) {Δ : Context} {env : List Nat} (henv : EnvTyped Δ env Γ) :
    Eval.Sound Δ ret (x.evalWith lower env) fun Δ' vs => Values.HasTypes Δ' vs τs := by
  induction hx generalizing Δ env with
  | nothing => exact .pure .nil
  | seq hfirst hrest ihfirst ihrest => exact (ihfirst henv).bind fun Δ' _ hgrow _ => ihrest (henv.mono hgrow)
  | never hfirst hdiverges ihfirst =>
    refine ((ihfirst henv).of_incomplete ?_).bind fun _ _ _ hfalse => hfalse.elim
    exact fun σ => evalWith_diverges hdiverges env σ
  | also hfirst hrest ihfirst ihrest =>
    refine (ihfirst henv).bind fun Δ₁ v hgrow₁ hv => (ihrest (henv.mono hgrow₁)).bind fun Δ₂ vs hgrow₂ hvs => ?_
    exact .pure (.cons (hv.head.mono hgrow₂) hvs)
  | constant l => exact (Eval.Sound.literal l).bind fun Δ' v _ hv => .pure (.single hv)
  | load hslot =>
    refine (Eval.Sound.cell henv hslot).bind fun Δ₁ c _ hc => ?_
    exact (Eval.Sound.read hc _).bind fun Δ₂ v _ hv => .pure (.single hv)
  | store hslot hvalue ihvalue =>
    refine (ihvalue henv).bind fun Δ₁ v hgrow₁ hv => ?_
    refine (Eval.Sound.cell (henv.mono hgrow₁) hslot).bind fun Δ₂ c hgrow₂ hc => ?_
    refine (Eval.Sound.write fun τ' hτ' => ?_).bind fun Δ₃ _ _ _ => .pure .nil
    cases hc.symm.trans hτ'
    exact hv.head.mono hgrow₂
  | entry hslot hbody ihbody =>
    refine (Eval.Sound.stamp.bind fun Δ₁ stamp hgrow₁ _ => .pure (Q := fun Δ' (v : Values 1) => v.head.IsEntry Δ')
      ?_).bind fun Δ₁ v hgrow₁ hv => ?_
    · exact .closure (henv.mono hgrow₁) hbody
    refine (Eval.Sound.cell (henv.mono hgrow₁) hslot).bind fun Δ₂ c hgrow₂ hc => ?_
    refine (Eval.Sound.write fun τ' hτ' => ?_).bind fun Δ₃ _ _ _ => .pure .nil
    cases hc.symm.trans hτ'
    exact Value.Fits.mono (τ := none) hv hgrow₂
  | discard hvalue ihvalue => exact (ihvalue henv).bind fun Δ' v _ _ => .pure .nil
  | unary hop hoperand ihoperand =>
    refine (ihoperand henv).bind fun Δ₁ v _ hv => ?_
    exact (Eval.Sound.outcome (hv.head.unary_outcome hop)).bind fun Δ₂ w _ hw => .pure (.single hw)
  | binary hop hleft hright ihleft ihright =>
    refine (ihleft henv).bind fun Δ₁ v hgrow₁ hv => (ihright (henv.mono hgrow₁)).bind fun Δ₂ w hgrow₂ hw => ?_
    have houtcome := (hv.head.mono hgrow₂).binary_outcome hop hw.head
    exact (Eval.Sound.outcome (houtcome _)).bind fun Δ₃ u _ hu => .pure (.single hu)
  | conditional hcondition hthen helse ihcondition ihthen ihelse =>
    refine (ihcondition henv).bind fun Δ₁ c hgrow hc => ?_
    generalize hb : c.head = b
    have hc := hb ▸ hc.head
    cases hc with
    | bool b =>
      cases b with
      | true => exact ihthen (henv.mono hgrow)
      | false => exact ihelse (henv.mono hgrow)
  | loop hcondition hbody ihcondition ihbody =>
    refine (ihcondition henv).bind fun Δ₁ c hgrow₁ hc => ?_
    generalize hb : c.head = b
    have hc := hb ▸ hc.head
    cases hc with
    | bool b =>
      cases b with
      | true =>
        refine (ihbody (henv.mono hgrow₁)).bind fun Δ₂ _ hgrow₂ _ => ?_
        exact hlower (.loop hcondition hbody) ((henv.mono hgrow₁).mono hgrow₂)
      | false => exact .pure (.single .unit)
  | call hcallee harguments ihcallee iharguments =>
    refine (ihcallee henv).bind fun Δ₁ f hgrow₁ hf => (iharguments (henv.mono hgrow₁)).bind fun Δ₂ vs hgrow₂ hvs => ?_
    exact (Eval.Sound.apply hlower (hf.head.mono hgrow₂) hvs).bind fun Δ₃ v _ hv => .pure (.single hv)
  | returning hret hvalue ihvalue =>
    refine (ihvalue henv).bind fun Δ₁ v _ hv => .returned fun ρ hρ => ?_
    exact hret ρ hρ ▸ hv.head
  | borrow hslot =>
    refine (Eval.Sound.cell henv hslot).bind fun Δ₁ c _ hc => ?_
    exact Eval.Sound.stamp.bind fun Δ₂ stamp hgrow _ => .pure (.single (.reference (Context.at?_mono hgrow hc)))
  | dereference hreference ihreference =>
    refine (ihreference henv).bind fun Δ₁ r _ hr => ?_
    generalize hv : r.head = v
    have hr := hv ▸ hr.head
    cases hr with
    | reference hcell => exact (Eval.Sound.read hcell _).bind fun Δ₂ v _ hv => .pure (.single hv)
  | update hreference hvalue ihreference ihvalue =>
    refine (ihreference henv).bind fun Δ₁ r hgrow₁ hr => (ihvalue (henv.mono hgrow₁)).bind fun Δ₂ v hgrow₂ hv => ?_
    generalize hw : r.head = w
    have hr := hw ▸ hr.head
    cases hr with
    | reference hcell =>
      refine (Eval.Sound.write fun τ' hτ' => ?_).bind fun Δ₃ _ hgrow₃ _ => .pure (hv.mono hgrow₃)
      cases (Context.at?_mono hgrow₂ hcell).symm.trans hτ'
      exact hv.head
  | @scope _ _ types _ _ hbody ihbody =>
    refine (Eval.Sound.frame (types.map some) fun i v τ hv => ?_).bind fun Δ' f _ hf => ?_
    · simp [List.getElem?_replicate] at hv
    · obtain ⟨rfl, rfl⟩ := hf
      exact ihbody (henv.extend _)
  | closure hbody ihbody =>
    exact Eval.Sound.stamp.bind fun Δ' stamp hgrow _ => .pure (.single (.closure (henv.mono hgrow) hbody))

end Evaluation

/-- The evaluation of a well typed term is sound, whatever its fuel. -/
theorem Term.eval_sound (fuel : Nat) : LowerSound (Term.eval fuel) := by
  induction fuel with
  | zero => exact fun hx henv => Term.evalWith_sound (fun _ _ => .timeout) hx henv
  | succ fuel ih => exact fun hx henv => Term.evalWith_sound ih hx henv

end Tenure
