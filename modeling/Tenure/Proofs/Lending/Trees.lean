import Tenure.Proofs.Assignment.Trees
import Tenure.Proofs.Lending.Terms

/-!
# Trees that hand references inward

Code generation drops what a block still owns when the block is left, unless it takes it for borrowed, and it may have
forgotten a borrow of which the reference is still in use: where the reference was assigned to a variable further out, or
came out of a block in another way than as what a single variable lends. In a tree that hands references inward no
reference leaves the block of the variable it refers to. References are bound by let statements and passed to functions,
they are copied and dereferenced, but they are not assigned, not returned, and not the value of a block. No variable is
borrowed that may hold a reference itself.

Names are all that counts for this: some are set apart for what may hold references.
-/

set_option autoImplicit false

namespace Tenure

/-- The names of a program: those of variables that may hold references, and those of functions with their parameters. -/
structure Naming where
  references : List Text
  functions : List (Text × List Text)

namespace Naming

/-- Whether a variable may hold a reference. -/
def lends (ν : Naming) (name : Text) : Bool := name ∈ ν.references

/-- Whether a name is that of a function. -/
def isFunction (ν : Naming) (name : Text) : Bool := ν.functions.any fun f => f.1 = name

/-- The role of a name. -/
def role (ν : Naming) (name : Text) : Role :=
  match ν.functions.find? fun f => f.1 = name with
  | some f => .function (f.2.map ν.lends)
  | none => .ofFlag (ν.lends name)

/-- The roles of the slots of some names. -/
def roles (ν : Naming) (names : List (List Text)) : Roles := names.map (List.map ν.role)

theorem role_of_not_isFunction {ν : Naming} {name : Text} (h : ν.isFunction name = false) :
    ν.role name = .ofFlag (ν.lends name) := by
  have hnone : ν.functions.find? (fun f => f.1 = name) = none :=
    List.find?_eq_none.mpr fun f hf => List.any_eq_false.mp h f hf
  rw [role, hnone]

end Naming

/-- Whether what has a role may be called with arguments of given roles. -/
def Role.accepts : Role → List Role → Bool
  | .function lent, rs => rs.length ≠ lent.length || (rs.zip lent).all fun a => a.1.fits (.ofFlag a.2)
  | .plain, rs => rs.all fun r => r.fits .plain
  | .reference, _ => false

namespace Tree

mutual

/-- Whether a tree and all trees in it pass a test. -/
def everywhere (p : Tree → Bool) : Tree → Bool
  | .absent => true
  | .node tag children val type => p (.node tag children val type) && allEverywhere p children

/-- Whether some trees and all trees in them pass a test. -/
def allEverywhere (p : Tree → Bool) : List Tree → Bool
  | [] => true
  | t :: rest => t.everywhere p && allEverywhere p rest

end

mutual

/-- The role of the value of a tree, as far as names tell. -/
def role (ν : Naming) : Tree → Role
  | .absent => .plain
  | .node tag children val type =>
    match Form.ofTag tag with
    | .path | .identifier =>
      match (Tree.node tag children val type).name with
      | .ok name => ν.role name
      | .error _ => .plain
    | .borrow => .reference
    | .grouped | .conditional => .ofFlag (anyReference ν children)
    | .crate | .function | .parameters | .parameter | .ascription | .terminal | .other =>
      .ofFlag (anyReference ν children)
    | _ => .plain

/-- Whether the value of one of some trees may be a reference. -/
def anyReference (ν : Naming) : List Tree → Bool
  | [] => false
  | t :: rest => t.role ν = .reference || anyReference ν rest

end

/-- Whether an assignment to a tree leaves functions alone. -/
def sparesFunctions (ν : Naming) (t : Tree) : Bool :=
  match t.unwrapped.name with
  | .ok name => !ν.isFunction name
  | .error _ => true

/-- Whether a node by itself hands references inward only. -/
def handsInward (ν : Naming) (t : Tree) : Bool :=
  match Form.ofTag t.tag with
  | .function =>
    match t.parametersOf.bind Compile.names with
    | .ok parameters => parameters.all fun name => !ν.isFunction name
    | .error _ => true
  | .letStatement =>
    match t.name, t.initializer with
    | .ok name, .ok (some e) => !ν.isFunction name && (e.role ν).fits (ν.role name)
    | .ok name, .ok none => !ν.isFunction name
    | _, _ => true
  | .block =>
    t.children.all (fun e => Form.ofTag e.tag ≠ .function) &&
      match Compile.tail? t with
      | some e => (e.role ν).fits .plain
      | none => true
  | .call =>
    match t.operands with
    | .ok (callee :: arguments) => (callee.role ν).accepts (arguments.map (role ν))
    | _ => true
  | .returning => (t.last.role ν).fits .plain
  | .assignment =>
    match t.operands with
    | .ok [target, value] => target.sparesFunctions ν && (value.role ν).fits .plain
    | _ => true
  | .compoundAssignment =>
    match t.operands with
    | .ok [target, _] => target.sparesFunctions ν
    | _ => true
  | .borrow =>
    match t.last.unwrapped.name with
    | .ok name => ν.role name = .plain
    | .error _ => true
  | _ => true

/-- The names of functions, with those of their parameters. -/
def signatures : List Tree → List (Text × List Text)
  | [] => []
  | t :: rest =>
    (match t.name, t.parametersOf.bind Compile.names with
      | .ok name, .ok parameters => [(name, parameters)]
      | _, _ => []) ++ signatures rest

/-- The names of a crate of which some are set apart for what may hold references. -/
def naming (references : List Text) (t : Tree) : Naming where
  references := references
  functions := match t.childrenOf .function with
    | .ok items => signatures items
    | .error _ => []

/-- Whether a crate hands references inward, where the variables of some names may hold them. -/
def inward (references : List Text) (t : Tree) : Bool :=
  Builtin.names.all (fun name => !(t.naming references).isFunction name) &&
    ((t.naming references).role "main").accepts [] && t.everywhere (handsInward (t.naming references))

/-! ## Parts -/

variable {p : Tree → Bool} {ν : Naming} {t e : Tree} {ts : List Tree}

mutual

theorem everywhere_eq_everyNode (p : Tree → Bool) : ∀ t : Tree, t.everywhere p = t.everyNode p
  | .absent => rfl
  | .node _ _ _ _ => by rw [everywhere, everyNode, allEverywhere_eq_everyNodeOf]

theorem allEverywhere_eq_everyNodeOf (p : Tree → Bool) : ∀ ts : List Tree, allEverywhere p ts = everyNodeOf p ts
  | [] => rfl
  | t :: ts => by rw [allEverywhere, everyNodeOf, everywhere_eq_everyNode p t, allEverywhere_eq_everyNodeOf p ts]

end

theorem everywhere_of_mem (h : t.everywhere p = true) (he : e ∈ t.children) : e.everywhere p = true := by
  rw [everywhere_eq_everyNode] at h ⊢
  exact everyNode_of_mem h he

theorem everywhere_operands (h : t.everywhere p = true) {kept : List Tree} (hkept : t.operands = .ok kept) :
    ∀ e ∈ kept, e.everywhere p = true :=
  fun _ he => everywhere_of_mem h (mem_of_select hkept he)

theorem everywhere_last (h : t.everywhere p = true) : t.last.everywhere p = true := by
  rw [everywhere_eq_everyNode] at h ⊢
  exact everyNode_last h

theorem everywhere_unwrapped (h : t.everywhere p = true) : t.unwrapped.everywhere p = true := by
  rw [everywhere_eq_everyNode] at h ⊢
  exact everyNode_unwrapped h

/-- A node passes the test that it passes with all trees in it. -/
theorem self_of_everywhere (h : t.everywhere p = true) (hform : ∃ f, t.form = .ok f) : p t = true := by
  cases t with
  | absent =>
    obtain ⟨f, hf⟩ := hform
    cases hf
  | node tag children val type =>
    rw [everywhere] at h
    exact (Bool.and_eq_true_iff.mp h).1

theorem role_of_block (h : Form.ofTag t.tag = .block) : t.role ν = .plain := by
  cases t with
  | absent => rfl
  | node tag children val type =>
    replace h : Form.ofTag tag = .block := h
    rw [role, h]

theorem anyReference_of_mem (he : e ∈ ts) (hrole : e.role ν = .reference) : anyReference ν ts = true := by
  induction ts with
  | nil => cases he
  | cons t rest ih =>
    rw [anyReference]
    rcases List.mem_cons.mp he with rfl | he
    · simp [hrole]
    · simp [ih he]

/-- What is no reference fits wherever a value may be, and a reference where one of some trees may be one. -/
theorem fits_of_mem (he : e ∈ ts) : (e.role ν).fits (.ofFlag (anyReference ν ts)) = true := by
  by_cases hrole : e.role ν = .reference
  · rw [anyReference_of_mem he hrole]
    exact Role.fits_reference _
  · cases hany : anyReference ν ts with
    | true => exact Role.fits_reference _
    | false =>
      cases hr : e.role ν with
      | reference => exact absurd hr hrole
      | plain | function => rfl

end Tree

end Tenure
