import Tenure.Check.Rules
import Tenure.Proofs.Semantics.Term

/-!
# Trees in normal form

The trees that a front end hands over: expressions, statements and the functions of a crate, each with the children that
its form calls for; a node of an unknown form stands around a single expression. Functions stand only in the crate, and
every conditional has both branches. The program starts at a function without parameters.
-/

set_option autoImplicit false

namespace Tenure

/-- A form of expressions that are made of a number of other expressions. -/
def Form.Takes : Form → Nat → Prop
  | .arithmetic, n | .comparison, n | .lazyBoolean, n => n = 2
  | .assignment, n | .compoundAssignment, n | .loop, n => n = 2
  | .negation, n | .grouped, n | .dereference, n | .other, n => n = 1
  | .conditional, n => n = 3
  | .call, n => 1 ≤ n
  | .returning, n => n ≤ 1
  | _, _ => False

/-- The forms that stand for no expression. -/
def Form.isItem : Form → Bool
  | .function | .letStatement | .expressionStatement | .terminal => true
  | _ => false

namespace Tree

mutual

/-- An expression. -/
inductive Expression : Tree → Prop where
  | leaf {t : Tree} (hform : t.form = .ok .literal ∨ t.form = .ok .path) : Expression t
  | node {t : Tree} {f : Form} (hform : t.form = .ok f) (htakes : f.Takes t.children.length)
      (hchildren : ∀ e ∈ t.children, Expression e) : Expression t
  | borrow {t : Tree} (hform : t.form = .ok .borrow) (hoperand : Expression t.last) : Expression t
  | block {t : Tree} (hform : t.form = .ok .block) (hchildren : ∀ s ∈ t.children, Statement s) : Expression t

/-- A child of a block. -/
inductive Statement : Tree → Prop where
  | letStatement {t : Tree} (hform : t.form = .ok .letStatement)
      (hinitial : ∀ e, t.initializer = .ok (some e) → Expression e) : Statement t
  | expressionStatement {t e : Tree} (hform : t.form = .ok .expressionStatement) (hchildren : t.children = [e])
      (hexpression : Expression e) : Statement t
  | expression {t : Tree} (hexpression : Expression t) : Statement t

end

/-- A crate of functions whose bodies are expressions. -/
structure Normal (t : Tree) : Prop where
  items : ∀ item ∈ t.children, item.form = .ok .function
  bodies : ∀ item ∈ t.children, ∀ body, item.child .block = .ok (some body) → Expression body

/-- The function at which a crate starts has no parameters. -/
def EntryWithoutParameters (t : Tree) : Prop :=
  ∀ item ∈ t.children, item.name = .ok "main" → item.parametersOf = .ok []

/-! ## Inspecting trees -/

variable {t : Tree} {f : Form}

theorem of_form (h : t.form = .ok f) : ∃ tag children val type, t = .node tag children val type ∧ Form.ofTag tag = f := by
  cases t with
  | absent => cases h
  | node tag children val type =>
    cases h
    exact ⟨tag, children, val, type, rfl, rfl⟩

theorem isPresent_of_form (h : t.form = .ok f) : t.isPresent = true := by
  obtain ⟨_, _, _, _, rfl, -⟩ := of_form h
  rfl

theorem ofTag_of_form (h : t.form = .ok f) : Form.ofTag t.tag = f := by
  obtain ⟨_, _, _, _, rfl, htag⟩ := of_form h
  exact htag

theorem select_all {p : Form → Bool} {ts : List Tree} (h : ∀ e ∈ ts, ∃ f, e.form = .ok f ∧ p f = true) :
    select p ts = .ok ts := by
  induction ts with
  | nil => rfl
  | cons t rest ih =>
    obtain ⟨f, hf, hp⟩ := h t (List.mem_cons_self ..)
    simp [select, hf, hp, ih fun e he => h e (List.mem_cons_of_mem _ he), bind, Except.bind, pure, Except.pure]

theorem select_none {p : Form → Bool} {ts : List Tree} (h : ∀ e ∈ ts, ∃ f, e.form = .ok f ∧ p f = false) :
    select p ts = .ok [] := by
  induction ts with
  | nil => rfl
  | cons t rest ih =>
    obtain ⟨f, hf, hp⟩ := h t (List.mem_cons_self ..)
    simp [select, hf, hp, ih fun e he => h e (List.mem_cons_of_mem _ he), bind, Except.bind, pure, Except.pure]

theorem mem_of_firstWith {p : Form → Bool} {ts : List Tree} {e : Tree} (h : firstWith p ts = .ok (some e)) : e ∈ ts := by
  induction ts with
  | nil => cases h
  | cons t rest ih =>
    cases hform : t.form with
    | error m =>
      rw [firstWith, hform] at h
      cases h
    | ok f =>
      simp only [firstWith, hform, bind, Except.bind] at h
      split at h
      · cases h
        exact List.mem_cons_self ..
      · exact List.mem_cons_of_mem _ (ih h)

theorem height_le_heights {ts : List Tree} (h : t ∈ ts) : t.height ≤ heights ts := by
  induction ts with
  | nil => cases h
  | cons s rest ih =>
    rw [heights]
    rcases List.mem_cons.mp h with rfl | h
    · exact Nat.le_max_left _ _
    · exact Nat.le_trans (ih h) (Nat.le_max_right _ _)

theorem height_lt {e : Tree} (h : e ∈ t.children) : e.height < t.height := by
  cases t with
  | absent => cases h
  | node tag children val type =>
    rw [height]
    exact Nat.lt_succ_of_le (height_le_heights h)

theorem last_mem (h : t.last.isPresent = true) : t.last ∈ t.children := by
  cases hlast : t.children.getLast? with
  | none =>
    rw [last, hlast] at h
    cases h
  | some e =>
    rw [last, hlast]
    exact List.mem_of_getLast? hlast

theorem height_last (h : t.form = .ok f) : t.last.height < t.height := by
  cases hpresent : t.last.isPresent with
  | true => exact height_lt (last_mem hpresent)
  | false =>
    obtain ⟨_, _, _, _, rfl, -⟩ := of_form h
    rw [height]
    cases hlast : (Tree.node _ _ _ _).last with
    | absent => exact Nat.succ_pos _
    | node =>
      rw [hlast] at hpresent
      cases hpresent

theorem last_of_children {e : Tree} (h : t.children = [e]) : t.last = e := by
  simp [last, h]

/-! ## Expressions -/

theorem Expression.form (h : t.Expression) : ∃ f, t.form = .ok f ∧ f.isItem = false := by
  cases h with
  | leaf hform =>
    rcases hform with h | h
    · exact ⟨_, h, rfl⟩
    · exact ⟨_, h, rfl⟩
  | @node _ f hform htakes => exact ⟨f, hform, by cases f <;> first | rfl | exact htakes.elim⟩
  | borrow hform => exact ⟨_, hform, rfl⟩
  | block hform => exact ⟨_, hform, rfl⟩

theorem operands_of_expressions (h : ∀ e ∈ t.children, e.Expression) : t.operands = .ok t.children := by
  refine select_all fun e he => ?_
  obtain ⟨f, hf, hitem⟩ := (h e he).form
  refine ⟨f, hf, ?_⟩
  have : f ≠ .terminal := by
    rintro rfl
    cases hitem
  simpa using this

/-- An expression without the parentheses around it is an expression. -/
theorem Expression.ungroup (h : t.Expression) (fuel : Nat) :
    (t.ungroup fuel).Expression ∧ (t.ungroup fuel).height ≤ t.height := by
  induction fuel generalizing t with
  | zero => exact ⟨h, Nat.le_refl _⟩
  | succ fuel ih =>
    cases t with
    | absent => exact ⟨h, Nat.le_refl _⟩
    | node tag children val type =>
      rw [Tree.ungroup]
      split
      next hgroup =>
        obtain ⟨e, he, hchildren⟩ : ∃ e, Expression e ∧ children = [e] := by
          have hform : (Tree.node tag children val type).form = .ok .grouped := congrArg Except.ok hgroup.1
          cases h with
          | leaf h => rcases h with h | h <;> cases hform.symm.trans h
          | node h htakes hall =>
            cases hform.symm.trans h
            obtain ⟨e, rfl⟩ := List.length_eq_one_iff.mp htakes
            exact ⟨e, hall e (List.mem_cons_self ..), rfl⟩
          | borrow h => cases hform.symm.trans h
          | block h => cases hform.symm.trans h
        subst hchildren
        have hlast : (Tree.node tag [e] val type).last = e := rfl
        rw [hlast]
        obtain ⟨h₁, h₂⟩ := ih he
        exact ⟨h₁, Nat.le_trans h₂ (Nat.le_of_lt (height_lt (t := .node tag [e] val type) (List.mem_cons_self ..)))⟩
      · exact ⟨h, Nat.le_refl _⟩

theorem Expression.unwrapped (h : t.Expression) : t.unwrapped.Expression ∧ t.unwrapped.height ≤ t.height :=
  h.ungroup _

end Tree

end Tenure
