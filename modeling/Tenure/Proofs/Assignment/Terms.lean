import Mathlib.Data.Set.Insert
import Tenure.Proofs.Compile.Layout

/-!
# Definite assignment

`Term.Definite crate shape A t B` follows which slots have a value: if those of `A` have one, then no load and no borrow
in `t` comes to a slot without a value, and where `t` ends those of `B` have one. A place that is never reached may
count any slots, as the one after a return does. A loop counts what its condition leaves, since its body may not run at all,
and a conditional what both branches leave.

Functions are those of a crate. Their bodies count on all functions of the crate, so nothing is called before all of
them have been stored.
-/

set_option autoImplicit false

namespace Tenure

/-- A place at which all of the outermost slots have a value, infinitely many, is never reached. -/
def Never (A : Set (Nat × Nat)) : Prop := ∀ slot, (0, slot) ∈ A

/-- The slots of frames of given sizes. -/
def slotsOf (shape : List Nat) : Set (Nat × Nat) := {p | Within shape p.1 p.2}

theorem slotsOf_append (shape more : List Nat) : slotsOf shape ⊆ slotsOf (shape ++ more) := by
  rintro p ⟨n, hn, hlt⟩
  exact ⟨n, by rw [List.getElem?_append_left (List.getElem?_eq_some_iff.mp hn).1, hn], hlt⟩

/-- The slots that have a value before and after a term, none of which is read without one. The frames of a crate with
its builtins have given sizes. -/
inductive Term.Definite (crate : List Nat) :
    {n : Nat} → List Nat → Set (Nat × Nat) → Term n → Set (Nat × Nat) → Prop where
  | unfinished {n : Nat} {shape : List Nat} {A B C : Set (Nat × Nat)} {t : Term n} (h : Definite crate shape A t B)
      (hB : Never B) : Definite crate shape A t C
  | weaken {n : Nat} {shape : List Nat} {A B C : Set (Nat × Nat)} {t : Term n} (h : Definite crate shape A t B)
      (hsub : C ⊆ B) : Definite crate shape A t C
  | nothing {shape : List Nat} {A : Set (Nat × Nat)} : Definite crate shape A .nothing A
  | seq {n : Nat} {shape : List Nat} {A B C : Set (Nat × Nat)} {first : Term 0} {rest : Term n}
      (hfirst : Definite crate shape A first B) (hrest : Definite crate shape B rest C) :
      Definite crate shape A (.seq first rest) C
  | also {n : Nat} {shape : List Nat} {A B C : Set (Nat × Nat)} {first : Term 1} {rest : Term n}
      (hfirst : Definite crate shape A first B) (hrest : Definite crate shape B rest C) :
      Definite crate shape A (.also first rest) C
  | constant {shape : List Nat} {A : Set (Nat × Nat)} {l : Literal} : Definite crate shape A (.constant l) A
  | load {shape : List Nat} {A : Set (Nat × Nat)} {frame slot : Nat} (hA : (frame, slot) ∈ A) :
      Definite crate shape A (.load frame slot) A
  | store {shape : List Nat} {A B : Set (Nat × Nat)} {frame slot : Nat} {value : Term 1}
      (hvalue : Definite crate shape A value B) (hslot : Within shape frame slot) :
      Definite crate shape A (.store frame slot value) (insert (frame, slot) B)
  | discard {shape : List Nat} {A B : Set (Nat × Nat)} {value : Term 1} (hvalue : Definite crate shape A value B) :
      Definite crate shape A (.discard value) B
  | unary {shape : List Nat} {A B : Set (Nat × Nat)} {symbol : Text} {operand : Term 1}
      (hoperand : Definite crate shape A operand B) : Definite crate shape A (.unary symbol operand) B
  | binary {shape : List Nat} {A B C : Set (Nat × Nat)} {symbol : Text} {left right : Term 1}
      (hleft : Definite crate shape A left B) (hright : Definite crate shape B right C) :
      Definite crate shape A (.binary symbol left right) C
  | conditional {shape : List Nat} {A B C : Set (Nat × Nat)} {condition thenBranch elseBranch : Term 1}
      (hcondition : Definite crate shape A condition B) (hthen : Definite crate shape B thenBranch C)
      (helse : Definite crate shape B elseBranch C) :
      Definite crate shape A (.conditional condition thenBranch elseBranch) C
  | loop {shape : List Nat} {A B C : Set (Nat × Nat)} {condition body : Term 1}
      (hcondition : Definite crate shape A condition B) (hbody : Definite crate shape B body C) :
      Definite crate shape A (.loop condition body) B
  | call {n : Nat} {shape : List Nat} {A B C : Set (Nat × Nat)} {callee : Term 1} {arguments : Term n}
      (hcallee : Definite crate shape A callee B) (harguments : Definite crate shape B arguments C)
      (hcrate : slotsOf crate ⊆ C) : Definite crate shape A (.call callee arguments) C
  | returning {shape : List Nat} {A B C : Set (Nat × Nat)} {value : Term 1} (hvalue : Definite crate shape A value B) :
      Definite crate shape A (.returning value) C
  | borrow {shape : List Nat} {A : Set (Nat × Nat)} {frame slot : Nat} {mutable : Bool} (hA : (frame, slot) ∈ A) :
      Definite crate shape A (.borrow frame slot mutable) A
  | dereference {shape : List Nat} {A B : Set (Nat × Nat)} {reference : Term 1}
      (hreference : Definite crate shape A reference B) : Definite crate shape A (.dereference reference) B
  | update {shape : List Nat} {A B C : Set (Nat × Nat)} {reference value : Term 1}
      (hreference : Definite crate shape A reference B) (hvalue : Definite crate shape B value C) :
      Definite crate shape A (.update reference value) C
  | scope {shape : List Nat} {A B : Set (Nat × Nat)} {slots : Nat} {body : Term 1}
      (hbody : Definite crate (shape ++ [slots]) A body B) :
      Definite crate shape A (.scope slots body) {p | p ∈ B ∧ (p.1 < shape.length ∨ p ∈ A)}
  | closure {A B : Set (Nat × Nat)} {arity : Nat} {body : Term 1}
      (hbody : Definite crate (crate ++ [arity]) (slotsOf (crate ++ [arity])) body B) :
      Definite crate crate A (.closure arity body) A

/-- The slots with values after a conditional, from those after either branch. A branch that is not completed does not
count. -/
def joinedSlots (thenDiverged elseDiverged : Bool) (B C : Set (Nat × Nat)) : Set (Nat × Nat) :=
  if thenDiverged && !elseDiverged then C else if elseDiverged && !thenDiverged then B else C ∩ B

section Joins

variable {crate shape : List Nat} {A B C : Set (Nat × Nat)} {t : Term 1} {thenDiverged elseDiverged : Bool}

theorem Term.Definite.joinedThen (h : t.Definite crate shape A B) (hB : thenDiverged = true → Never B) :
    t.Definite crate shape A (joinedSlots thenDiverged elseDiverged B C) := by
  unfold joinedSlots
  split
  next hthen => exact .unfinished h (hB (Bool.and_eq_true_iff.mp hthen).1)
  split
  · exact h
  · exact .weaken h Set.inter_subset_right

theorem Term.Definite.joinedElse (h : t.Definite crate shape A C) (hC : elseDiverged = true → Never C) :
    t.Definite crate shape A (joinedSlots thenDiverged elseDiverged B C) := by
  unfold joinedSlots
  split
  · exact h
  split
  next helse => exact .unfinished h (hC (Bool.and_eq_true_iff.mp helse).1)
  · exact .weaken h Set.inter_subset_left

theorem subset_joinedSlots (thenDiverged elseDiverged : Bool) (hB : A ⊆ B) (hC : A ⊆ C) : A ⊆ joinedSlots thenDiverged elseDiverged B C := by
  unfold joinedSlots
  split
  · exact hC
  split
  · exact hB
  · exact Set.subset_inter hC hB

/-- If neither branch is completed, what comes after them is not reached. -/
theorem never_joinedSlots (hB : thenDiverged = true → Never B) (hC : elseDiverged = true → Never C)
    (h : (thenDiverged && elseDiverged) = true) : Never (joinedSlots thenDiverged elseDiverged B C) := by
  obtain ⟨rfl, rfl⟩ := Bool.and_eq_true_iff.mp h
  exact fun slot => ⟨hC rfl slot, hB rfl slot⟩

end Joins

end Tenure
