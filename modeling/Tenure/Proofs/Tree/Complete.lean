import Tenure.Check.Rules
import Tenure.Proofs.Typing.Normal

/-!
# Inspecting trees without absent nodes

Where every node is there, every inspection has an answer, and the nodes that it gives are nodes of the tree.
-/

set_option autoImplicit false

namespace Tenure

namespace Tree

variable {t e : Tree} {ts : List Tree}

theorem allComplete_iff : AllComplete ts ↔ ∀ t ∈ ts, t.Complete := by
  induction ts with
  | nil => simp [AllComplete]
  | cons t rest ih => simp [AllComplete, ih]

theorem Complete.of_mem (h : t.Complete) (he : e ∈ t.children) : e.Complete := by
  cases t with
  | absent => exact h.elim
  | node tag children val type => exact allComplete_iff.mp h e he

theorem Complete.isPresent (h : t.Complete) : t.isPresent = true := by
  cases t with
  | absent => exact h.elim
  | node => rfl

theorem Complete.form (h : t.Complete) : ∃ f, t.form = .ok f := by
  cases t with
  | absent => exact h.elim
  | node tag => exact ⟨Form.ofTag tag, rfl⟩

/-! ## Searching lists -/

theorem firstWith_total (h : ∀ t ∈ ts, t.Complete) (p : Form → Bool) :
    ∃ found, firstWith p ts = .ok found ∧ ∀ e ∈ found, e ∈ ts := by
  induction ts with
  | nil => exact ⟨none, rfl, nofun⟩
  | cons t rest ih =>
    obtain ⟨f, hf⟩ := (h t (List.mem_cons_self ..)).form
    obtain ⟨found, hfound, hmem⟩ := ih fun e he => h e (List.mem_cons_of_mem _ he)
    cases hp : p f with
    | true =>
      refine ⟨some t, by simp [firstWith, hf, hp, bind, Except.bind, pure, Except.pure], fun e he => ?_⟩
      obtain rfl := Option.mem_some.mp he
      exact List.mem_cons_self ..
    | false =>
      refine ⟨found, by simp [firstWith, hf, hp, bind, Except.bind, hfound], fun e he => ?_⟩
      exact List.mem_cons_of_mem _ (hmem e he)

theorem select_total (h : ∀ t ∈ ts, t.Complete) (p : Form → Bool) :
    ∃ kept, select p ts = .ok kept ∧ ∀ e ∈ kept, e ∈ ts := by
  induction ts with
  | nil => exact ⟨[], rfl, nofun⟩
  | cons t rest ih =>
    obtain ⟨f, hf⟩ := (h t (List.mem_cons_self ..)).form
    obtain ⟨kept, hkept, hmem⟩ := ih fun e he => h e (List.mem_cons_of_mem _ he)
    refine ⟨if p f then t :: kept else kept, ?_, fun e he => ?_⟩
    · simp [select, hf, hkept, bind, Except.bind, pure, Except.pure]
    · split at he
      · exact List.mem_cons.mpr ((List.mem_cons.mp he).imp_right (hmem e))
      · exact List.mem_cons_of_mem _ (hmem e he)

theorem saysMutable_total (h : ∀ t ∈ ts, t.Complete) : ∃ b, saysMutable ts = .ok b := by
  induction ts with
  | nil => exact ⟨false, rfl⟩
  | cons t rest ih =>
    obtain ⟨f, hf⟩ := (h t (List.mem_cons_self ..)).form
    obtain ⟨b, hb⟩ := ih fun e he => h e (List.mem_cons_of_mem _ he)
    rw [saysMutable, hf]
    change ∃ b, (if f = .terminal ∧ t.text = "mut" then pure true else saysMutable rest : Inspect Bool) = .ok b
    split
    · exact ⟨true, rfl⟩
    · exact ⟨b, hb⟩

/-! ## Inspecting nodes -/

namespace Complete

theorem child (h : t.Complete) (f : Form) : ∃ found, t.child f = .ok found ∧ ∀ e ∈ found, e ∈ t.children :=
  firstWith_total (fun _ => h.of_mem) _

theorem childrenOf (h : t.Complete) (f : Form) : ∃ kept, t.childrenOf f = .ok kept ∧ ∀ e ∈ kept, e ∈ t.children :=
  select_total (fun _ => h.of_mem) _

theorem initializer (h : t.Complete) : ∃ found, t.initializer = .ok found ∧ ∀ e ∈ found, e ∈ t.children :=
  firstWith_total (fun _ => h.of_mem) _

theorem operands (h : t.Complete) : ∃ kept, t.operands = .ok kept ∧ ∀ e ∈ kept, e ∈ t.children :=
  select_total (fun _ => h.of_mem) _

theorem isMutable (h : t.Complete) : ∃ b, t.isMutable = .ok b := saysMutable_total fun _ => h.of_mem

theorem parametersOf (h : t.Complete) : ∃ ps, t.parametersOf = .ok ps ∧ ∀ p ∈ ps, p.Complete := by
  obtain ⟨found, hfound, hmem⟩ := h.child .parameters
  cases found with
  | none => exact ⟨[], by simp [Tree.parametersOf, hfound, bind, Except.bind, pure, Except.pure], nofun⟩
  | some list =>
    have hlist : list.Complete := h.of_mem (hmem list rfl)
    obtain ⟨ps, hps, hinside⟩ := hlist.childrenOf .parameter
    exact ⟨ps, by simp [Tree.parametersOf, hfound, bind, Except.bind, hps], fun p hp => hlist.of_mem (hinside p hp)⟩

/-- What a node says in its payload or in a child of a form. -/
theorem named (h : t.Complete) (f : Form) : ∃ name : Text, (if t.val.isSome then return t.text else do
    match ← t.child f with
    | some e => return e.text
    | none => return ∅ : Inspect Text) = .ok name := by
  split
  · exact ⟨t.text, rfl⟩
  · obtain ⟨found, hfound, -⟩ := h.child f
    rw [hfound]
    cases found with
    | none => exact ⟨∅, rfl⟩
    | some e => exact ⟨e.text, rfl⟩

theorem name (h : t.Complete) : ∃ name, t.name = .ok name := h.named .identifier

theorem operator (h : t.Complete) : ∃ symbol, t.operator = .ok symbol := h.named .terminal

theorem source (h : t.Complete) : ∃ s, Literal.source t = .ok s := by
  rw [Literal.source]
  split
  · exact ⟨t, rfl⟩
  · obtain ⟨found, hfound, -⟩ := h.child .terminal
    rw [hfound]
    cases found with
    | none => exact ⟨t, rfl⟩
    | some e => exact ⟨e, rfl⟩

/-- The last child, if there is one. -/
theorem last (h : t.Complete) (hlast : t.last.isPresent = true) : t.last.Complete := h.of_mem (last_mem hlast)

theorem ungroup (h : t.Complete) (fuel : Nat) : (t.ungroup fuel).Complete := by
  induction fuel generalizing t with
  | zero => exact h
  | succ fuel ih =>
    cases t with
    | absent => exact h.elim
    | node tag children val type =>
      rw [Tree.ungroup]
      split
      next hgroup =>
        obtain ⟨e, he⟩ : ∃ e, children.getLast? = some e := by
          cases children with
          | nil => simp at hgroup
          | cons c rest => exact ⟨_, List.getLast?_eq_some_getLast (List.cons_ne_nil c rest)⟩
        have hlast : (Tree.node tag children val type).last = e := by simp [Tree.last, Tree.children, he]
        rw [hlast]
        exact ih (h.of_mem (List.mem_of_getLast? he))
      · exact h

theorem unwrapped (h : t.Complete) : t.unwrapped.Complete := h.ungroup _

end Complete

end Tree

end Tenure
