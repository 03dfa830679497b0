import Tenure.Proofs.Compile.Surroundings

/-!
# Orderly trees

Code generation follows which variables own a value, and it takes that for having been given one. This goes wrong where
a loop gives a variable its first value, since the body of a loop may not run at all, and where a function outlives the
block that it stands in. In an orderly tree neither happens: functions stand outside of blocks, and no body of a loop
assigns a variable that a let statement around it declares without a value. Names are all that counts for this, so a
variable may be taken for another one of its name.
-/

set_option autoImplicit false

namespace Tenure

namespace Tree

/-- The variables that let statements among some trees declare without a value. -/
def deferredAmong : List Tree → List Text
  | [] => []
  | t :: rest =>
    (match Form.ofTag t.tag, t.initializer, t.name with
      | .letStatement, .ok none, .ok name => [name]
      | _, _, _ => []) ++ deferredAmong rest

/-- Whether the body of a loop assigns none of some variables. -/
def sparesInLoop (deferred : List Text) (t : Tree) : Bool :=
  match t.operands with
  | .ok [_, body] => body.targets.all (· ∉ deferred)
  | _ => true

mutual

/-- Whether a tree, which may be a statement of a block, has no functions in blocks, let statements in blocks only, and
no loop that assigns a variable which is declared without a value around it. Some variables are declared so already. -/
def orderly (inBlock : Bool) (deferred : List Text) : Tree → Bool
  | .absent => true
  | .node tag children val type =>
    match Form.ofTag tag with
    | .function => !inBlock && allOrderly false deferred children
    | .letStatement => inBlock && allOrderly false deferred children
    | .block => allOrderly true (deferred ++ deferredAmong children) children
    | .loop => (Tree.node tag children val type).sparesInLoop deferred && allOrderly false deferred children
    | _ => allOrderly false deferred children

/-- Whether some trees are orderly. -/
def allOrderly (inBlock : Bool) (deferred : List Text) : List Tree → Bool
  | [] => true
  | t :: rest => t.orderly inBlock deferred && allOrderly inBlock deferred rest

end

variable {inBlock : Bool} {deferred : List Text} {t e : Tree} {ts : List Tree}

theorem allOrderly_iff : allOrderly inBlock deferred ts = true ↔ ∀ t ∈ ts, t.orderly inBlock deferred = true := by
  induction ts with
  | nil => simp [allOrderly]
  | cons t rest ih => simp [allOrderly, ih]

theorem mem_deferredAmong {name : Text} (he : e ∈ ts) (hform : Form.ofTag e.tag = .letStatement)
    (hinitializer : e.initializer = .ok none) (hname : e.name = .ok name) : name ∈ deferredAmong ts := by
  induction ts with
  | nil => cases he
  | cons t rest ih =>
    rw [deferredAmong]
    rcases List.mem_cons.mp he with rfl | he
    · rw [hform, hinitializer, hname]
      exact List.mem_append_left _ (List.mem_singleton_self name)
    · exact List.mem_append_right _ (ih he)

/-- What is selected passes the test. -/
theorem passes_of_select {p : Form → Bool} {kept : List Tree} (h : select p ts = .ok kept) (he : e ∈ kept) :
    p (Form.ofTag e.tag) = true := by
  induction ts generalizing kept with
  | nil =>
    cases h
    cases he
  | cons t rest ih =>
    cases hform : t.form with
    | error m => simp [select, hform, bind, Except.bind] at h
    | ok f =>
      cases hrest : select p rest with
      | error m => simp [select, hform, hrest, bind, Except.bind] at h
      | ok others =>
        simp only [select, hform, hrest, bind, Except.bind, pure, Except.pure, Except.ok.injEq] at h
        subst h
        split at he
        next hp =>
          rcases List.mem_cons.mp he with rfl | he
          · rw [ofTag_of_form hform, hp]
          · exact ih hrest he
        · exact ih hrest he

/-- The children of an orderly tree are orderly, except in a block, where functions and let statements stand. -/
theorem orderly_of_mem (h : t.orderly inBlock deferred = true) (hblock : Form.ofTag t.tag ≠ .block)
    (he : e ∈ t.children) : e.orderly false deferred = true := by
  cases t with
  | absent => cases he
  | node tag children val type =>
    have hall : allOrderly false deferred children = true := by
      rw [orderly] at h
      split at h
      · exact (Bool.and_eq_true_iff.mp h).2
      · exact (Bool.and_eq_true_iff.mp h).2
      · exact absurd (by assumption) hblock
      · exact (Bool.and_eq_true_iff.mp h).2
      · exact h
    exact allOrderly_iff.mp hall e he

theorem orderly_of_mem_block (h : t.orderly inBlock deferred = true) (hblock : Form.ofTag t.tag = .block)
    (he : e ∈ t.children) : e.orderly true (deferred ++ deferredAmong t.children) = true := by
  cases t with
  | absent => cases he
  | node tag children val type =>
    replace hblock : Form.ofTag tag = .block := hblock
    rw [orderly, hblock] at h
    exact allOrderly_iff.mp h e he

/-- An orderly loop assigns no variable that is declared without a value around it. -/
theorem disjoint_of_orderly_loop {condition body : Tree} (h : t.orderly inBlock deferred = true)
    (hloop : Form.ofTag t.tag = .loop) (hoperands : t.operands = .ok [condition, body]) :
    ∀ name ∈ body.targets, name ∉ deferred := by
  cases t with
  | absent => cases hoperands
  | node tag children val type =>
    replace hloop : Form.ofTag tag = .loop := hloop
    rw [orderly, hloop] at h
    have hspares := (Bool.and_eq_true_iff.mp h).1
    rw [sparesInLoop, hoperands] at hspares
    simpa using hspares

theorem form_ne_function_of_orderly (h : t.orderly true deferred = true) : Form.ofTag t.tag ≠ .function := by
  cases t with
  | absent => decide
  | node tag children val type =>
    intro hform
    replace hform : Form.ofTag tag = .function := hform
    rw [orderly, hform] at h
    cases h

theorem form_ne_letStatement_of_orderly (h : t.orderly false deferred = true) :
    Form.ofTag t.tag ≠ .letStatement := by
  cases t with
  | absent => decide
  | node tag children val type =>
    intro hform
    replace hform : Form.ofTag tag = .letStatement := hform
    rw [orderly, hform] at h
    cases h

/-- What is no let statement is as orderly outside of a block as in it. -/
theorem orderly_outside (h : t.orderly true deferred = true) (hform : Form.ofTag t.tag ≠ .letStatement) :
    t.orderly false deferred = true := by
  cases t with
  | absent => rfl
  | node tag children val type =>
    rw [orderly] at h ⊢
    split at h
    · cases h
    · exact absurd (by assumption) hform
    · exact h
    · exact h
    · exact h

/-- A tree whose code an orderly tree may contain, while some names are those of its assignments. -/
structure Admits (deferred names : List Text) (t : Tree) : Prop where
  orderly : t.orderly false deferred = true
  targets : t.targets ⊆ names

namespace Admits

variable {names : List Text} {f : Form}

theorem of_mem (h : t.Admits deferred names) (hblock : Form.ofTag t.tag ≠ .block) (he : e ∈ t.children) :
    e.Admits deferred names :=
  ⟨orderly_of_mem h.orderly hblock he, List.Subset.trans (targets_of_mem he) h.targets⟩

theorem operands (h : t.Admits deferred names) (hblock : Form.ofTag t.tag ≠ .block) {kept : List Tree}
    (hkept : t.operands = .ok kept) : ∀ e ∈ kept, e.Admits deferred names :=
  fun _ he => h.of_mem hblock (mem_of_select hkept he)

theorem last (h : t.Admits deferred names) (hblock : Form.ofTag t.tag ≠ .block) : t.last.Admits deferred names := by
  cases hlast : t.last with
  | absent => exact ⟨rfl, List.nil_subset _⟩
  | node => exact hlast ▸ h.of_mem hblock (last_mem (by rw [hlast]; rfl))

theorem unwrapped (h : t.Admits deferred names) : t.unwrapped.Admits deferred names := by
  rw [Tree.unwrapped]
  generalize t.height = fuel
  induction fuel generalizing t with
  | zero => exact h
  | succ fuel ih =>
    cases t with
    | absent => exact h
    | node tag children val type =>
      rw [ungroup]
      split
      next hgroup => exact ih (h.last fun hblock => Form.noConfusion (hgroup.1.symm.trans hblock))
      · exact h

end Admits

/-- A child of a block whose code an orderly tree may contain, while some names are those of its assignments. -/
structure AdmitsInBlock (deferred names : List Text) (t : Tree) : Prop where
  orderly : t.orderly true deferred = true
  targets : t.targets ⊆ names
  defers : Form.ofTag t.tag = .letStatement → t.initializer = .ok none → ∀ name, t.name = .ok name → name ∈ deferred

theorem Admits.of_mem_block {names : List Text} (h : t.Admits deferred names) (hblock : Form.ofTag t.tag = .block)
    (he : e ∈ t.children) : e.AdmitsInBlock (deferred ++ deferredAmong t.children) names where
  orderly := orderly_of_mem_block h.orderly hblock he
  targets := List.Subset.trans (targets_of_mem he) h.targets
  defers hform hinitializer _ hname := List.mem_append_right _ (mem_deferredAmong he hform hinitializer hname)

theorem AdmitsInBlock.outside {names : List Text} (h : t.AdmitsInBlock deferred names)
    (hform : Form.ofTag t.tag ≠ .letStatement) : t.Admits deferred names :=
  ⟨orderly_outside h.orderly hform, h.targets⟩

end Tree

end Tenure
