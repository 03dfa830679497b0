import Tenure.Check.Rules
import Tenure.Proofs.Semantics.Term

/-!
# Types of terms

A context gives the types of the slots around a place, and `Term.Typed` is the typing of resolved terms in a context.
A return has every type, since nothing comes after it; so has a sequence whose first part always returns.

The function at which a program starts may return values of any type. Its slot has no type, and the only term that is
well typed and names such a slot is the one that stores the function there. `Term.Typed.forget` takes the type of a slot
away from a term that does not name it.
-/

set_option autoImplicit false

namespace Tenure

/-- The types of the slots of the frames around a place, outermost first. A slot without a type is that of the function
at which a program starts. -/
abbrev Context := List (List (Option Ty))

namespace Context

/-- What is known of a slot. -/
def at? (Γ : Context) (frame slot : Nat) : Option (Option Ty) := Γ[frame]?.bind fun types => types[slot]?

/-- The context in which a slot has no type. -/
def forget (Γ : Context) (frame slot : Nat) : Context := Γ.modify frame fun types => types.set slot none

variable {Γ : Context} {frame slot : Nat} {τ : Option Ty}

theorem at?_lt (h : Γ.at? frame slot = some τ) : frame < Γ.length := by
  obtain ⟨types, htypes, -⟩ := Option.bind_eq_some_iff.mp h
  exact (List.getElem?_eq_some_iff.mp htypes).1

theorem at?_append (h : Γ.at? frame slot = some τ) (Γ' : Context) : (Γ ++ Γ').at? frame slot = some τ := by
  rw [at?, List.getElem?_append_left (at?_lt h)]
  exact h

theorem forget_append (h : frame < Γ.length) (Γ' : Context) :
    (Γ ++ Γ').forget frame slot = Γ.forget frame slot ++ Γ' := by
  refine List.ext_getElem? fun i => ?_
  simp only [forget, List.getElem?_modify, List.getElem?_append, List.length_modify]
  by_cases hi : i < Γ.length
  · simp [hi]
  · simp [hi, show frame ≠ i by omega]

theorem at?_forget_ne {frame' slot' : Nat} (h : ¬ (frame' = frame ∧ slot' = slot)) :
    (Γ.forget frame slot).at? frame' slot' = Γ.at? frame' slot' := by
  simp only [at?, forget, List.getElem?_modify]
  by_cases hf : frame = frame'
  · subst hf
    have hs : slot ≠ slot' := fun hs => h ⟨rfl, hs.symm⟩
    cases Γ[frame]? <;> simp [hs]
  · cases Γ[frame']? <;> simp [hf]

theorem at?_forget_self (h : Γ.at? frame slot = some τ) : (Γ.forget frame slot).at? frame slot = some none := by
  obtain ⟨types, htypes, hslot⟩ := Option.bind_eq_some_iff.mp h
  have hlt : slot < types.length := (List.getElem?_eq_some_iff.mp hslot).1
  simp [at?, forget, htypes, hlt]

end Context

/-- The type of a literal. -/
def Literal.ty (l : Literal) : Ty :=
  if l.kind = Literal.unitKind then .unit
  else if l.kind = Literal.boolKind then .bool
  else if l.kind = Literal.intKind then .i32
  else if l.kind = Literal.floatKind then .f32
  else if l.kind = Literal.charKind then .char
  else .str

/-- An operator takes one operand of a type, which is also the type of its result. -/
inductive UnaryTyped : Text → Ty → Prop where
  | complement {τ : Ty} (h : τ = .bool ∨ τ = .i32) : UnaryTyped "!" τ
  | negation {τ : Ty} (h : τ.isNumeric = true) : UnaryTyped "-" τ

/-- An operator takes operands of two types and gives a result of a third. -/
inductive BinaryTyped : Text → Ty → Ty → Ty → Prop where
  | arithmetic {op : Text} {τ υ : Ty} (hop : op = "+" ∨ op = "-" ∨ op = "*" ∨ op = "/" ∨ op = "%")
      (hτ : τ.isNumeric = true) (hυ : υ.isNumeric = true) : BinaryTyped op τ υ (τ.wider υ)
  | lazy {op : Text} (hop : op = "&&" ∨ op = "||") : BinaryTyped op .bool .bool .bool
  | truths {op : Text} (hop : op = "&" ∨ op = "|" ∨ op = "^") : BinaryTyped op .bool .bool .bool
  | bits {op : Text} (hop : op = "&" ∨ op = "|" ∨ op = "^") : BinaryTyped op .i32 .i32 .i32
  | shift {op : Text} (hop : op = "<<" ∨ op = ">>") : BinaryTyped op .i32 .i32 .i32
  | equality {op : Text} {τ υ : Ty} (hop : op = "==" ∨ op = "!=") : BinaryTyped op τ υ .bool
  | order {op : Text} {τ υ : Ty} (hop : op = "<" ∨ op = "<=" ∨ op = ">" ∨ op = ">=")
      (h : τ.isNumeric = true ∧ υ.isNumeric = true ∨ τ = .char ∧ υ = .char) : BinaryTyped op τ υ .bool

namespace Term

/-- Whether a term always returns from the function around it before it is complete. -/
def diverges : {n : Nat} → Term n → Bool
  | _, .seq first rest => first.diverges || rest.diverges
  | _, .discard (.returning _) => true
  | _, _ => false

/-- A term leaves values of given types, or returns a value of a given type; without one it may return any value. -/
inductive Typed : Option Ty → Context → {n : Nat} → Term n → List Ty → Prop where
  | nothing {ret : Option Ty} {Γ : Context} : Typed ret Γ .nothing []
  | seq {ret : Option Ty} {Γ : Context} {n : Nat} {first : Term 0} {rest : Term n} {τs : List Ty}
      (hfirst : Typed ret Γ first []) (hrest : Typed ret Γ rest τs) : Typed ret Γ (.seq first rest) τs
  /-- What comes after a return is not reached. -/
  | never {ret : Option Ty} {Γ : Context} {n : Nat} {first : Term 0} {rest : Term n} {τs : List Ty}
      (hfirst : Typed ret Γ first []) (hdiverges : first.diverges = true) : Typed ret Γ (.seq first rest) τs
  | also {ret : Option Ty} {Γ : Context} {n : Nat} {first : Term 1} {rest : Term n} {τ : Ty} {τs : List Ty}
      (hfirst : Typed ret Γ first [τ]) (hrest : Typed ret Γ rest τs) : Typed ret Γ (.also first rest) (τ :: τs)
  | constant {ret : Option Ty} {Γ : Context} (l : Literal) : Typed ret Γ (.constant l) [l.ty]
  | load {ret : Option Ty} {Γ : Context} {frame slot : Nat} {τ : Ty} (hslot : Γ.at? frame slot = some (some τ)) :
      Typed ret Γ (.load frame slot) [τ]
  | store {ret : Option Ty} {Γ : Context} {frame slot : Nat} {value : Term 1} {τ : Ty}
      (hslot : Γ.at? frame slot = some (some τ)) (hvalue : Typed ret Γ value [τ]) :
      Typed ret Γ (.store frame slot value) []
  /-- The function at which a program starts takes no arguments. -/
  | entry {ret : Option Ty} {Γ : Context} {frame slot : Nat} {body : Term 1} {τ : Ty}
      (hslot : Γ.at? frame slot = some none) (hbody : Typed none (Γ ++ [[]]) body [τ]) :
      Typed ret Γ (.store frame slot (.closure 0 body)) []
  | discard {ret : Option Ty} {Γ : Context} {value : Term 1} {τ : Ty} (hvalue : Typed ret Γ value [τ]) :
      Typed ret Γ (.discard value) []
  | unary {ret : Option Ty} {Γ : Context} {op : Text} {operand : Term 1} {τ : Ty} (hop : UnaryTyped op τ)
      (hoperand : Typed ret Γ operand [τ]) : Typed ret Γ (.unary op operand) [τ]
  | binary {ret : Option Ty} {Γ : Context} {op : Text} {left right : Term 1} {τ υ ρ : Ty}
      (hop : BinaryTyped op τ υ ρ) (hleft : Typed ret Γ left [τ]) (hright : Typed ret Γ right [υ]) :
      Typed ret Γ (.binary op left right) [ρ]
  | conditional {ret : Option Ty} {Γ : Context} {condition thenBranch elseBranch : Term 1} {τ : Ty}
      (hcondition : Typed ret Γ condition [.bool]) (hthen : Typed ret Γ thenBranch [τ])
      (helse : Typed ret Γ elseBranch [τ]) : Typed ret Γ (.conditional condition thenBranch elseBranch) [τ]
  | loop {ret : Option Ty} {Γ : Context} {condition body : Term 1} {τ : Ty}
      (hcondition : Typed ret Γ condition [.bool]) (hbody : Typed ret Γ body [τ]) :
      Typed ret Γ (.loop condition body) [.unit]
  | call {ret : Option Ty} {Γ : Context} {n : Nat} {callee : Term 1} {arguments : Term n} {parameters : List Ty}
      {result : Ty} (hcallee : Typed ret Γ callee [.function parameters result])
      (harguments : Typed ret Γ arguments parameters) : Typed ret Γ (.call callee arguments) [result]
  | returning {ret : Option Ty} {Γ : Context} {value : Term 1} {τ υ : Ty} (hret : ∀ ρ, ret = some ρ → τ = ρ)
      (hvalue : Typed ret Γ value [τ]) : Typed ret Γ (.returning value) [υ]
  | borrow {ret : Option Ty} {Γ : Context} {frame slot : Nat} {mutable : Bool} {τ : Ty}
      (hslot : Γ.at? frame slot = some (some τ)) : Typed ret Γ (.borrow frame slot mutable) [.reference τ mutable]
  | dereference {ret : Option Ty} {Γ : Context} {reference : Term 1} {mutable : Bool} {τ : Ty}
      (hreference : Typed ret Γ reference [.reference τ mutable]) : Typed ret Γ (.dereference reference) [τ]
  | update {ret : Option Ty} {Γ : Context} {reference value : Term 1} {τ : Ty}
      (hreference : Typed ret Γ reference [.reference τ true]) (hvalue : Typed ret Γ value [τ]) :
      Typed ret Γ (.update reference value) [τ]
  | scope {ret : Option Ty} {Γ : Context} {types : List Ty} {body : Term 1} {τ : Ty}
      (hbody : Typed ret (Γ ++ [types.map some]) body [τ]) : Typed ret Γ (.scope types.length body) [τ]
  | closure {ret : Option Ty} {Γ : Context} {parameters : List Ty} {result : Ty} {body : Term 1}
      (hbody : Typed (some result) (Γ ++ [parameters.map some]) body [result]) :
      Typed ret Γ (.closure parameters.length body) [.function parameters result]

/-- A term reads, stores to or borrows a slot. -/
def Names (frame slot : Nat) : {n : Nat} → Term n → Prop
  | _, .nothing | _, .constant _ => False
  | _, .load f s | _, .borrow f s _ => f = frame ∧ s = slot
  | _, .store f s value => (f = frame ∧ s = slot) ∨ value.Names frame slot
  | _, .seq first rest | _, .also first rest => first.Names frame slot ∨ rest.Names frame slot
  | _, .discard x | _, .unary _ x | _, .returning x | _, .dereference x | _, .scope _ x | _, .closure _ x =>
    x.Names frame slot
  | _, .binary _ x y | _, .loop x y | _, .update x y => x.Names frame slot ∨ y.Names frame slot
  | _, .conditional x y z => x.Names frame slot ∨ y.Names frame slot ∨ z.Names frame slot
  | _, .call callee arguments => callee.Names frame slot ∨ arguments.Names frame slot

/-- The bodies of the functions that a term stores one after the other. -/
def bodies : {n : Nat} → Term n → List (Term 1)
  | _, .seq (.store _ _ (.closure _ body)) rest => body :: rest.bodies
  | _, _ => []

/-- The functions of a crate, and the slot of the one at which it starts. -/
def entry? : Term 1 → Option (Term 0 × Nat × Nat)
  | .scope _ (.seq items (.call (.load frame slot) .nothing)) => some (items, frame, slot)
  | _ => none

/-- A term keeps its types where a slot that it does not name loses its type. -/
theorem Typed.forget {ret : Option Ty} {Γ : Context} {n : Nat} {x : Term n} {τs : List Ty} (h : Typed ret Γ x τs)
    {frame slot : Nat} (hframe : frame < Γ.length) (hnames : ¬ x.Names frame slot) :
    Typed ret (Γ.forget frame slot) x τs := by
  have happend : ∀ {Γ : Context} (types : List (Option Ty)), frame < Γ.length →
      frame < (Γ ++ [types]).length ∧ (Γ ++ [types]).forget frame slot = Γ.forget frame slot ++ [types] := by
    intro Γ types hframe
    exact ⟨by simp; omega, Context.forget_append hframe _⟩
  induction h with
  | nothing => exact .nothing
  | seq hfirst hrest ihfirst ihrest =>
    simp only [Names, not_or] at hnames
    exact .seq (ihfirst hframe hnames.1) (ihrest hframe hnames.2)
  | never hfirst hdiverges ihfirst =>
    simp only [Names, not_or] at hnames
    exact .never (ihfirst hframe hnames.1) hdiverges
  | also hfirst hrest ihfirst ihrest =>
    simp only [Names, not_or] at hnames
    exact .also (ihfirst hframe hnames.1) (ihrest hframe hnames.2)
  | constant l => exact .constant l
  | load hslot => exact .load ((Context.at?_forget_ne hnames).trans hslot)
  | store hslot hvalue ihvalue =>
    simp only [Names, not_or] at hnames
    exact .store ((Context.at?_forget_ne hnames.1).trans hslot) (ihvalue hframe hnames.2)
  | entry hslot hbody ihbody =>
    simp only [Names, not_or] at hnames
    obtain ⟨hframe', hforget⟩ := happend [] hframe
    exact .entry ((Context.at?_forget_ne hnames.1).trans hslot) (hforget ▸ ihbody hframe' hnames.2)
  | discard hvalue ihvalue => exact .discard (ihvalue hframe hnames)
  | unary hop hoperand ihoperand => exact .unary hop (ihoperand hframe hnames)
  | binary hop hleft hright ihleft ihright =>
    simp only [Names, not_or] at hnames
    exact .binary hop (ihleft hframe hnames.1) (ihright hframe hnames.2)
  | conditional hcondition hthen helse ihcondition ihthen ihelse =>
    simp only [Names, not_or] at hnames
    exact .conditional (ihcondition hframe hnames.1) (ihthen hframe hnames.2.1) (ihelse hframe hnames.2.2)
  | loop hcondition hbody ihcondition ihbody =>
    simp only [Names, not_or] at hnames
    exact .loop (ihcondition hframe hnames.1) (ihbody hframe hnames.2)
  | call hcallee harguments ihcallee iharguments =>
    simp only [Names, not_or] at hnames
    exact .call (ihcallee hframe hnames.1) (iharguments hframe hnames.2)
  | returning hret hvalue ihvalue => exact .returning hret (ihvalue hframe hnames)
  | borrow hslot => exact .borrow ((Context.at?_forget_ne hnames).trans hslot)
  | dereference hreference ihreference => exact .dereference (ihreference hframe hnames)
  | update hreference hvalue ihreference ihvalue =>
    simp only [Names, not_or] at hnames
    exact .update (ihreference hframe hnames.1) (ihvalue hframe hnames.2)
  | scope hbody ihbody =>
    obtain ⟨hframe', hforget⟩ := happend _ hframe
    exact .scope (hforget ▸ ihbody hframe' hnames)
  | closure hbody ihbody =>
    obtain ⟨hframe', hforget⟩ := happend _ hframe
    exact .closure (hforget ▸ ihbody hframe' hnames)

end Term

end Tenure
