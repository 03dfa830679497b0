import Tenure.Proofs.Semantics.Term

/-!
# References that are handed inward

`Term.Inward crate Γ t rs` follows which slots and values may be references, as far as their roles tell. A reference may
be stored in the innermost frame and passed to a function that takes one there, so a frame is left by all references to
its slots before it is closed. It is never the value of a block, never returned, and never stored in a frame further out
or through another reference. References are to slots that hold none.

Functions are those of a crate, as in definite assignment.
-/

set_option autoImplicit false

namespace Tenure

/-- What a slot or a value may be: anything but a reference, anything but a particular function, or a function some of
whose parameters may be references. -/
inductive Role where
  | plain
  | reference
  | function (lent : List Bool)
deriving DecidableEq, Repr

namespace Role

/-- The role of a parameter. -/
def ofFlag (lent : Bool) : Role := if lent then .reference else .plain

/-- Whether what has one role may stand where another is expected. -/
def fits : Role → Role → Bool
  | _, .reference => true
  | .reference, .plain => false
  | _, .plain => true
  | r, .function lent => r = .function lent

theorem fits_reference (r : Role) : r.fits .reference = true := by
  cases r <;> rfl

theorem fits_refl (r : Role) : r.fits r = true := by
  cases r with
  | function lent => exact decide_eq_true rfl
  | plain | reference => rfl

theorem eq_of_fits_function {r : Role} {lent : List Bool} (h : r.fits (.function lent) = true) : r = .function lent := by
  cases r <;> exact of_decide_eq_true h

theorem fits_ofFlag (lent : Bool) : Role.plain.fits (ofFlag lent) = true := by
  cases lent <;> rfl

/-- What may stand where no reference is expected may stand wherever no function is expected. -/
theorem fits_of_plain {r : Role} (h : r.fits .plain = true) (lent : Bool) : r.fits (ofFlag lent) = true := by
  cases lent with
  | false => exact h
  | true => exact fits_reference r

theorem ne_reference_of_plain {r : Role} (h : r.fits .plain = true) : r ≠ .reference := by
  rintro rfl
  cases h

end Role

/-- The roles of the slots of frames, outermost first. -/
abbrev Roles := List (List Role)

/-- The role of a slot. -/
def Roles.at? (Γ : Roles) (frame slot : Nat) : Option Role := Γ[frame]?.bind fun rs => rs[slot]?

/-- The roles of the values of a term that hands references inward only. The frames of a crate with its builtins have
given roles. -/
inductive Term.Inward (crate : Roles) : Roles → {n : Nat} → Term n → List Role → Prop where
  | widen {Γ : Roles} {t : Term 1} {r r' : Role} (h : Inward crate Γ t [r]) (hfits : r.fits r' = true) :
    Inward crate Γ t [r']
  | nothing {Γ : Roles} : Inward crate Γ .nothing []
  | seq {Γ : Roles} {n : Nat} {first : Term 0} {rest : Term n} {rs : List Role} (hfirst : Inward crate Γ first [])
      (hrest : Inward crate Γ rest rs) : Inward crate Γ (.seq first rest) rs
  | also {Γ : Roles} {n : Nat} {first : Term 1} {rest : Term n} {r : Role} {rs : List Role}
      (hfirst : Inward crate Γ first [r]) (hrest : Inward crate Γ rest rs) : Inward crate Γ (.also first rest) (r :: rs)
  | constant {Γ : Roles} {l : Literal} : Inward crate Γ (.constant l) [.plain]
  | load {Γ : Roles} {frame slot : Nat} {r : Role} (hslot : Γ.at? frame slot = some r) :
      Inward crate Γ (.load frame slot) [r]
  /-- A reference is stored in the innermost frame only. -/
  | store {Γ : Roles} {frame slot : Nat} {value : Term 1} {r r' : Role} (hslot : Γ.at? frame slot = some r)
      (hvalue : Inward crate Γ value [r']) (hfits : r'.fits r = true)
      (hinner : r' = .reference → frame + 1 = Γ.length) : Inward crate Γ (.store frame slot value) []
  | discard {Γ : Roles} {value : Term 1} {r : Role} (hvalue : Inward crate Γ value [r]) :
      Inward crate Γ (.discard value) []
  | unary {Γ : Roles} {op : Text} {operand : Term 1} {r : Role} (hoperand : Inward crate Γ operand [r]) :
      Inward crate Γ (.unary op operand) [.plain]
  | binary {Γ : Roles} {op : Text} {left right : Term 1} {r r' : Role} (hleft : Inward crate Γ left [r])
      (hright : Inward crate Γ right [r']) : Inward crate Γ (.binary op left right) [.plain]
  | conditional {Γ : Roles} {condition thenBranch elseBranch : Term 1} {r r' : Role}
      (hcondition : Inward crate Γ condition [r]) (hthen : Inward crate Γ thenBranch [r'])
      (helse : Inward crate Γ elseBranch [r']) : Inward crate Γ (.conditional condition thenBranch elseBranch) [r']
  | loop {Γ : Roles} {condition body : Term 1} {r r' : Role} (hcondition : Inward crate Γ condition [r])
      (hbody : Inward crate Γ body [r']) : Inward crate Γ (.loop condition body) [.plain]
  /-- A function is called with references where it takes them. -/
  | call {Γ : Roles} {n : Nat} {callee : Term 1} {arguments : Term n} {lent : List Bool} {rs : List Role}
      (hcallee : Inward crate Γ callee [.function lent]) (harguments : Inward crate Γ arguments rs)
      (hrs : rs.length = lent.length → rs = lent.map .ofFlag) : Inward crate Γ (.call callee arguments) [.plain]
  /-- Whatever is called, it may be called without references. -/
  | callPlain {Γ : Roles} {n : Nat} {callee : Term 1} {arguments : Term n} {rs : List Role}
      (hcallee : Inward crate Γ callee [.plain]) (harguments : Inward crate Γ arguments rs)
      (hrs : ∀ r ∈ rs, r = .plain) : Inward crate Γ (.call callee arguments) [.plain]
  | returning {Γ : Roles} {value : Term 1} {r : Role} (hvalue : Inward crate Γ value [.plain]) :
      Inward crate Γ (.returning value) [r]
  | borrow {Γ : Roles} {frame slot : Nat} {mutable : Bool} (hslot : Γ.at? frame slot = some .plain) :
      Inward crate Γ (.borrow frame slot mutable) [.reference]
  | dereference {Γ : Roles} {reference : Term 1} (hreference : Inward crate Γ reference [.reference]) :
      Inward crate Γ (.dereference reference) [.plain]
  | update {Γ : Roles} {reference value : Term 1} (hreference : Inward crate Γ reference [.reference])
      (hvalue : Inward crate Γ value [.plain]) : Inward crate Γ (.update reference value) [.plain]
  | scope {Γ : Roles} {slots : Nat} {rs : List Role} {body : Term 1} (hslots : rs.length = slots)
      (hbody : Inward crate (Γ ++ [rs]) body [.plain]) : Inward crate Γ (.scope slots body) [.plain]
  | closure {arity : Nat} {lent : List Bool} {body : Term 1} (harity : lent.length = arity)
      (hbody : Inward crate (crate ++ [lent.map .ofFlag]) body [.plain]) :
      Inward crate crate (.closure arity body) [.function lent]

namespace Roles

variable {Γ Γ' : Roles} {frame slot : Nat} {r : Role}

theorem at?_mono (h : Γ <+: Γ') (hslot : Γ.at? frame slot = some r) : Γ'.at? frame slot = some r := by
  obtain ⟨more, rfl⟩ := h
  obtain ⟨rs, hrs, hr⟩ := Option.bind_eq_some_iff.mp hslot
  rw [at?, List.getElem?_append_left (List.getElem?_eq_some_iff.mp hrs).1, hrs]
  exact hr

theorem at?_append_last (rs : List Role) (slot : Nat) : Roles.at? (Γ ++ [rs]) Γ.length slot = rs[slot]? := by
  simp [at?]

end Roles

end Tenure
