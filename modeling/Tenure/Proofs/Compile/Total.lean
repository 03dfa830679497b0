import Tenure.Proofs.Check.Total
import Tenure.Proofs.Compile.Steps
import Tenure.Tree.Build

/-!
# Code generation that comes to an end

Code generation reaches for a node that is not there at one kind of place only: an assignment through a dereference
visits the operand of the dereference without looking whether there is one. The check refuses such an assignment, but it
does not look below the nodes of some forms, as `Tree.unchecked` shows. Where every assignment through a dereference has
something to go through, `Tree.hasTargets`, compilation ends with code or with an error: `Tree.compile_total`.
-/

set_option autoImplicit false

namespace Tenure

namespace Tree

/-- The target of an assignment, unless it is a dereference of nothing. -/
def reachesTarget (t : Tree) : Bool :=
  match t.operands with
  | .ok [target, _] => Form.ofTag target.unwrapped.tag ≠ .dereference || target.unwrapped.last.isPresent
  | _ => true

mutual

/-- No assignment in a tree goes through a dereference of nothing. -/
def hasTargets : Tree → Bool
  | .absent => true
  | .node tag children val type =>
    ((Form.ofTag tag ≠ .assignment && Form.ofTag tag ≠ .compoundAssignment) ||
      (Tree.node tag children val type).reachesTarget) && hasTargetsAll children

/-- No assignment in any of some trees goes through a dereference of nothing. -/
def hasTargetsAll : List Tree → Bool
  | [] => true
  | t :: rest => t.hasTargets && hasTargetsAll rest

end

/-- A tree of a bounded height whose nodes and targets are there. -/
structure Within (depth : Nat) (t : Tree) : Prop where
  complete : t.Complete
  targets : t.hasTargets = true
  height : t.height ≤ depth

variable {t e : Tree} {depth : Nat}

theorem hasTargets_of_all {ts : List Tree} (h : hasTargetsAll ts = true) (he : e ∈ ts) : e.hasTargets = true := by
  induction ts with
  | nil => cases he
  | cons t rest ih =>
    rw [hasTargetsAll, Bool.and_eq_true] at h
    rcases List.mem_cons.mp he with rfl | he
    · exact h.1
    · exact ih h.2 he

theorem hasTargets_of_mem (h : t.hasTargets = true) (he : e ∈ t.children) : e.hasTargets = true := by
  cases t with
  | absent => cases he
  | node tag children val type =>
    rw [hasTargets, Bool.and_eq_true] at h
    exact hasTargets_of_all h.2 he

namespace Within

theorem of_mem (h : t.Within (depth + 1)) (he : e ∈ t.children) : e.Within depth :=
  ⟨h.complete.of_mem he, hasTargets_of_mem h.targets he, Nat.le_of_lt_succ ((height_lt he).trans_le h.height)⟩

theorem inner (h : t.Within depth) (he : e ∈ t.children) : e.Within depth :=
  ⟨h.complete.of_mem he, hasTargets_of_mem h.targets he, (height_lt he).le.trans h.height⟩

theorem last (h : t.Within (depth + 1)) (hlast : t.last.isPresent = true) : t.last.Within depth :=
  h.of_mem (last_mem hlast)

theorem ungroup (h : t.Within depth) (fuel : Nat) : (t.ungroup fuel).Within depth := by
  induction fuel generalizing t with
  | zero => exact h
  | succ fuel ih =>
    cases t with
    | absent => exact h
    | node tag children val type =>
      have hcomplete := h.complete.ungroup (fuel + 1)
      rw [Tree.ungroup] at hcomplete ⊢
      split
      next hgroup =>
        rw [if_pos hgroup] at hcomplete
        cases hlast : (Tree.node tag children val type).last with
        | absent =>
          rw [hlast] at hcomplete
          cases fuel <;> exact hcomplete.elim
        | node =>
          rw [← hlast]
          exact ih (h.inner (last_mem (by rw [hlast]; rfl)))
      · exact h

theorem unwrapped (h : t.Within depth) : t.unwrapped.Within depth := h.ungroup _

/-- What an assignment goes through. -/
theorem reference (h : t.Within (depth + 1)) (hform : Form.ofTag t.tag = .assignment ∨ Form.ofTag t.tag = .compoundAssignment)
    {target value : Tree} (hoperands : t.operands = .ok [target, value]) (htarget : target.Within depth)
    (hdereference : target.unwrapped.form = .ok .dereference) : target.unwrapped.last.Within depth := by
  have htargets := h.targets
  cases t with
  | absent => exact h.complete.elim
  | node tag children val type =>
    rw [hasTargets, Bool.and_eq_true, Bool.or_eq_true] at htargets
    have hreaches := htargets.1.resolve_left fun hne => by
      simp only [Bool.and_eq_true, decide_eq_true_eq] at hne
      exact hform.elim hne.1 hne.2
    rw [reachesTarget, hoperands] at hreaches
    simp only [ofTag_of_form hdereference, ne_eq, not_true_eq_false, decide_false, Bool.false_or] at hreaches
    exact htarget.unwrapped.inner (last_mem hreaches)

end Within

end Tree

namespace Compile

variable {α β : Type}

/-- A step of code generation that does not reach for a node that is not there. -/
structure Alive (x : Compile α) : Prop where
  alive : ∀ s, x s ≠ .error .crashed

namespace Alive

variable {x : Compile α} {f : α → Compile β}

theorem pure (a : α) : Alive (Pure.pure a : Compile α) := ⟨fun _ => nofun⟩

theorem get : Alive (MonadState.get : Compile CompileState) := ⟨fun _ => nofun⟩

theorem modify (g : CompileState → CompileState) : Alive (modify g : Compile PUnit) := ⟨fun _ => nofun⟩

theorem fail (e : CompileError) : Alive (Compile.fail e : Compile α) := ⟨fun _ => nofun⟩

theorem unsupported (what : Unsupported) : Alive (Compile.unsupported what : Compile α) := fail _

theorem bind (hx : Alive x) (hf : ∀ a, Alive (f a)) : Alive (x >>= f) := by
  refine ⟨fun s hs => ?_⟩
  change (x s >>= fun p => f p.1 p.2) = .error .crashed at hs
  cases hxs : x s with
  | error e =>
    rw [hxs] at hs
    cases hs
    exact hx.alive s hxs
  | ok p =>
    rw [hxs] at hs
    exact (hf p.1).alive p.2 hs

/-- An inspection that has an answer goes before a step. -/
theorem inspect {i : Inspect α} {a : α} (hi : i = .ok a) (hf : Alive (f a)) : Alive ((liftM i : Compile α) >>= f) := by
  subst hi
  exact hf

theorem ite {p : Prop} [Decidable p] {y : Compile α} (hx : Alive x) (hy : Alive y) : Alive (if p then x else y) := by
  split
  · exact hx
  · exact hy

/-- A refusal goes before a step. -/
theorem refusing {p : Prop} [Decidable p] {y : Compile α} (e : CompileError) (hy : Alive y) :
    Alive (if p then (Compile.fail e : Compile PUnit) >>= fun _ => y else y) := ite (bind (fail e) fun _ => hy) hy

theorem onEnv (g : Environment → Environment) : Alive (Compile.onEnv g) := modify _

theorem setLent (id : Option Nat) : Alive (Compile.setLent id) := modify _

theorem setDiverged (b : Bool) : Alive (Compile.setDiverged b) := modify _

theorem emit (code : Program) : Alive (Compile.emit code) := bind get fun _ => pure _

/-- Emitting code ends a rule. -/
theorem emitted {code : Program} {g : Emissions → β} : Alive (Compile.emit code >>= fun c => Pure.pure (g c)) :=
  bind (emit code) fun _ => pure _

theorem extend (names : List Text) (owner : FrameOwner) : Alive (Compile.extend names owner) :=
  ite (unsupported _) (bind get fun _ => ite (unsupported _) (onEnv _))

theorem resolve (name : Text) : Alive (Compile.resolve name) := by
  refine bind get fun s => ?_
  split
  · exact pure _
  · exact fail _

end Alive

/-! ## Rules -/

theorem names_total {ts : List Tree} (h : ∀ t ∈ ts, t.Complete) : ∃ names, Compile.names ts = .ok names := by
  induction ts with
  | nil => exact ⟨[], rfl⟩
  | cons t rest ih =>
    obtain ⟨name, hname⟩ := (h t (List.mem_cons_self ..)).name
    obtain ⟨others, hothers⟩ := ih fun e he => h e (List.mem_cons_of_mem _ he)
    exact ⟨name :: others, by simp [names, hname, hothers, bind, Except.bind, pure, Except.pure]⟩

theorem declarations_total {ts : List Tree} (h : ∀ t ∈ ts, t.Complete) : ∃ declared, declarations ts = .ok declared := by
  induction ts with
  | nil => exact ⟨[], rfl⟩
  | cons t rest ih =>
    obtain ⟨f, hf⟩ := (h t (List.mem_cons_self ..)).form
    obtain ⟨name, hname⟩ := (h t (List.mem_cons_self ..)).name
    obtain ⟨others, hothers⟩ := ih fun e he => h e (List.mem_cons_of_mem _ he)
    rw [declarations, hf, hname, hothers]
    cases f <;> exact ⟨_, rfl⟩

section Rules

variable {visit : Visit} {depth : Nat} {t : Tree}
  (hvisit : ∀ start e use, e.Within depth → Alive (visit start e use))

include hvisit

theorem function_alive (h : t.Within depth) (start : Nat) : Alive (function visit start t) := by
  obtain ⟨name, hname⟩ := h.complete.name
  obtain ⟨found, hfound, hmem⟩ := h.complete.child .block
  obtain ⟨ps, hps, hcomplete⟩ := h.complete.parametersOf
  obtain ⟨parameters, hparameters⟩ := names_total hcomplete
  refine .inspect hname (.inspect hfound ?_)
  cases found with
  | none => exact .unsupported _
  | some body =>
    refine .inspect hps (.inspect hparameters (.bind .get fun outer => .bind (.extend ..) fun _ => ?_))
    refine .bind (.setDiverged _) fun _ => .bind (hvisit _ body _ (h.inner (hmem body rfl))) fun value => ?_
    refine .bind .get fun _ => .bind (.emit _) fun leave => .bind (.modify _) fun _ => .bind .get fun s => ?_
    split
    · exact .fail _
    · exact .bind (.emit _) fun _ => .emitted

theorem functions_alive {ts : List Tree} (h : ∀ t ∈ ts, t.Within depth) (start : Nat) :
    Alive (functions visit start ts) := by
  induction ts generalizing start with
  | nil => exact .pure _
  | cons t rest ih =>
    refine .bind (function_alive hvisit (h t (List.mem_cons_self ..)) start) fun code => ?_
    exact .bind (ih (fun e he => h e (List.mem_cons_of_mem _ he)) _) fun _ => .pure _

theorem crate_alive (h : t.Within (depth + 1)) (start : Nat) : Alive (crate visit start t) := by
  obtain ⟨items, hitems, hmem⟩ := h.complete.childrenOf .function
  obtain ⟨slots, hslots⟩ := names_total fun e he => h.complete.of_mem (hmem e he)
  refine .inspect hitems (.inspect hslots (.bind (.emit _) fun _ => .bind (.extend ..) fun _ => ?_))
  refine .bind (functions_alive hvisit (fun e he => h.of_mem (hmem e he)) _) fun code => .bind .get fun s => ?_
  split
  · exact .fail _
  · exact .emitted

theorem letStatement_alive (h : t.Within (depth + 1)) (start : Nat) : Alive (letStatement visit start t) := by
  obtain ⟨name, hname⟩ := h.complete.name
  obtain ⟨initial, hinitial, hmem⟩ := h.complete.initializer
  refine .inspect hname (.bind .get fun s => ?_)
  dsimp only
  split
  · exact .fail _
  · refine .inspect hinitial ?_
    cases initial with
    | none => exact .bind (.onEnv _) fun _ => .pure _
    | some e =>
      refine .bind (hvisit _ e _ (h.of_mem (hmem e rfl))) fun _ => .bind .get fun _ => ?_
      exact .bind (.onEnv _) fun _ => .emitted

theorem effect_alive {e : Tree} (h : e.Within depth) (start : Nat) : Alive (effect visit start e) := by
  refine .bind .get fun before => .bind (hvisit _ e _ h) fun _ => .bind .get fun s => ?_
  dsimp only
  split
  · exact .bind (.setLent _) fun _ => .emitted
  · split
    · exact .bind (.setLent _) fun _ => .emitted
    · exact .bind (.onEnv _) fun _ => .bind (.setLent _) fun _ => .emitted

/-- A statement is at hand itself, or one of its children is. -/
theorem statement_alive (h : t.Within (depth + 1)) (heffect : Form.ofTag t.tag ≠ .letStatement →
    Form.ofTag t.tag ≠ .expressionStatement → t.Within depth) (start : Nat) : Alive (statement visit start t) := by
  obtain ⟨f, hf⟩ := h.complete.form
  obtain rfl := Tree.ofTag_of_form hf
  refine .inspect hf ?_
  split
  next hlet => exact letStatement_alive hvisit h start
  next hexpression =>
    split
    next hlast => exact effect_alive hvisit (h.last hlast) start
    · exact .pure _
  next hlet hexpression => exact effect_alive hvisit (heffect hlet hexpression) start

theorem statements_alive {ts : List Tree} (h : ∀ t ∈ ts, t.Within depth) (start : Nat) :
    Alive (statements visit start ts) := by
  induction ts generalizing start with
  | nil => exact .pure _
  | cons t rest ih =>
    have ht := h t (List.mem_cons_self ..)
    have hmore : t.Within (depth + 1) := ⟨ht.complete, ht.targets, ht.height.trans (Nat.le_succ _)⟩
    refine .bind (statement_alive hvisit hmore (fun _ _ => ht) start) fun code => ?_
    exact .bind (ih (fun e he => h e (List.mem_cons_of_mem _ he)) _) fun _ => .pure _

theorem block_alive (h : t.Within (depth + 1)) (start : Nat) : Alive (block visit start t) := by
  obtain ⟨declared, hdeclared⟩ := declarations_total fun e he => h.complete.of_mem he
  obtain ⟨items, hitems, hmem⟩ := h.complete.childrenOf .function
  have hstatements : ∀ e ∈ (if (tail? t).isSome then t.children.dropLast else t.children), e ∈ t.children := by
    intro e he
    split at he
    · exact List.dropLast_subset _ he
    · exact he
  obtain ⟨others, hothers, hinside⟩ :=
    Tree.select_total (fun e he => h.complete.of_mem (hstatements e he)) (· ≠ .function)
  refine .inspect hdeclared (.bind .get fun outer => .bind (.emit _) fun opening => .bind (.extend ..) fun _ => ?_)
  refine .bind (.onEnv _) fun _ => .inspect hitems ?_
  refine .bind (functions_alive hvisit (fun e he => h.of_mem (hmem e he)) _) fun code => .inspect hothers ?_
  refine .bind (statements_alive hvisit (fun e he => h.of_mem (hstatements e (hinside e he))) _) fun body => ?_
  have hleave : ∀ (value : Emissions) (lent : Option Nat), Alive (do
      let closing ← emit (drops (← get).env ++ [.plain .exitScope])
      leaveBlock outer.env lent
      return opening ++ code ++ body ++ value ++ closing : Compile Emissions) := fun value lent =>
    .bind .get fun _ => .bind (.emit _) fun _ => .bind (.bind .get fun _ => .modify _) fun _ => .pure _
  dsimp only
  split
  · exact .bind (.emit _) fun _ => .bind (.pure _) fun r => hleave r.1 r.2
  next e he =>
    have hlast : e ∈ t.children := by
      unfold tail? at he
      split at he
      · cases he
      next last hlast =>
        split at he <;> cases he
        exact List.mem_of_getLast? hlast
    refine .bind (hvisit _ e _ (h.of_mem hlast)) fun _ => .bind .get fun _ => ?_
    exact .bind (.pure _) fun r => hleave r.1 r.2

/-! ### Expressions -/

omit hvisit in
theorem literal_alive (h : t.Complete) : Alive (literal t) := by
  obtain ⟨source, hsource⟩ := h.source
  refine .inspect hsource ?_
  split
  · exact .emit _
  · exact .fail _

omit hvisit in
theorem path_alive (name : Text) (use : Use) : Alive (path name use) := by
  refine .bind (.resolve name) fun found => ?_
  dsimp only
  split
  · split
    · exact .bind (.onEnv _) fun _ => .bind (.setLent _) fun _ => .emit _
    · exact .bind (.setLent _) fun _ => .emit _
  · exact .fail _

theorem binary_alive (h : t.Within (depth + 1)) (start : Nat) : Alive (binary visit start t) := by
  obtain ⟨kept, hkept, hmem⟩ := h.complete.operands
  obtain ⟨op, hop⟩ := h.complete.operator
  have hoperand : ∀ e ∈ kept, e.Within depth := fun e he => h.of_mem (hmem e he)
  refine .inspect hkept ?_
  split
  next a b =>
    refine .bind (hvisit _ a _ (hoperand a (by simp))) fun _ => .bind (hvisit _ b _ (hoperand b (by simp))) fun _ => ?_
    exact .inspect hop .emitted
  · exact .unsupported _

theorem unary_alive (h : t.Within (depth + 1)) (start : Nat) : Alive (unary visit start t) := by
  obtain ⟨kept, hkept, hmem⟩ := h.complete.operands
  obtain ⟨op, hop⟩ := h.complete.operator
  refine .inspect hkept ?_
  split
  next a => exact .bind (hvisit _ a _ (h.of_mem (hmem a (by simp)))) fun _ => .inspect hop .emitted
  · exact .unsupported _

theorem conditional_alive (h : t.Within (depth + 1)) (start : Nat) : Alive (conditional visit start t) := by
  obtain ⟨kept, hkept, hmem⟩ := h.complete.operands
  have hoperand : ∀ e ∈ kept, e.Within depth := fun e he => h.of_mem (hmem e he)
  refine .inspect hkept ?_
  split
  next condition thenBranch rest =>
    refine .bind (hvisit _ _ _ (hoperand condition (by simp))) fun _ => .bind .get fun _ => .bind (.setDiverged _) fun _ => ?_
    refine .bind (hvisit _ _ _ (hoperand thenBranch (by simp))) fun _ => .bind .get fun _ => .bind (.modify _) fun _ => ?_
    dsimp only
    split
    case' h_1 => refine .bind (.emit _) fun _ => ?_
    case' h_2 e _ => refine .bind (hvisit _ e _ (hoperand e (by simp))) fun _ => ?_
    all_goals exact .bind .get fun _ => .bind (.modify _) fun _ => .bind (.emit _) fun _ => .emitted
  · exact .unsupported _

theorem loop_alive (h : t.Within (depth + 1)) (start : Nat) : Alive (loop visit start t) := by
  obtain ⟨kept, hkept, hmem⟩ := h.complete.operands
  have hoperand : ∀ e ∈ kept, e.Within depth := fun e he => h.of_mem (hmem e he)
  refine .inspect hkept ?_
  split
  next condition body =>
    refine .bind .get fun _ => .bind (.setDiverged _) fun _ => .bind (hvisit _ _ _ (hoperand condition (by simp))) fun _ => ?_
    refine .bind (hvisit _ _ _ (hoperand body (by simp))) fun _ => .bind (.onEnv _) fun _ => .bind .get fun now => ?_
    have hend : ∀ (code : Emissions) (exit : Nat) (test : Emissions) (diverged : Bool), Alive (do
        setDiverged diverged
        return test ++ (← emit [.jumpUnless (exit : Nat)]) ++ code ++
          (← emit [.plain .pop, .jump (start : Nat), pushUnit]) : Compile Emissions) := fun _ _ _ _ =>
      .bind (.setDiverged _) fun _ => .bind (.emit _) fun _ => .emitted
    dsimp only
    split
    · split
      · exact .bind (.fail _) fun _ => hend ..
      · exact hend ..
    · exact hend ..
  · exact .unsupported _

theorem arguments_alive {ts : List Tree} (h : ∀ t ∈ ts, t.Within depth) (start : Nat) :
    Alive (arguments visit start ts) := by
  induction ts generalizing start with
  | nil => exact .pure _
  | cons t rest ih =>
    refine .bind (hvisit _ t _ (h t (List.mem_cons_self ..))) fun code => ?_
    exact .bind (ih (fun e he => h e (List.mem_cons_of_mem _ he)) _) fun _ => .pure _

theorem call_alive (h : t.Within (depth + 1)) (start : Nat) : Alive (call visit start t) := by
  obtain ⟨kept, hkept, hmem⟩ := h.complete.operands
  have hoperand : ∀ e ∈ kept, e.Within depth := fun e he => h.of_mem (hmem e he)
  refine .inspect hkept ?_
  split
  · exact .unsupported _
  next callee rest =>
    refine .bind (hvisit _ _ _ (hoperand callee (by simp))) fun _ => ?_
    exact .bind (arguments_alive hvisit (fun e he => hoperand e (List.mem_cons_of_mem _ he)) _) fun _ => .emitted

theorem returning_alive (h : t.Within (depth + 1)) (start : Nat) : Alive (returning visit start t) := by
  unfold returning
  dsimp only
  split
  next hlast => exact .bind (hvisit _ _ _ (h.last hlast)) fun _ => .bind (.setDiverged _) fun _ => .emitted
  · exact .bind (.emit _) fun _ => .bind (.setDiverged _) fun _ => .emitted

theorem assignment_alive (h : t.Within (depth + 1)) (hform : Form.ofTag t.tag = .assignment) (start : Nat) :
    Alive (assignment visit start t) := by
  obtain ⟨kept, hkept, hmem⟩ := h.complete.operands
  have hoperand : ∀ e ∈ kept, e.Within depth := fun e he => h.of_mem (hmem e he)
  refine .inspect hkept ?_
  split
  next target value =>
    have htarget := (hoperand target (by simp)).unwrapped
    have hvalue := fun start use => hvisit start value use (hoperand value (by simp))
    obtain ⟨f, hf⟩ := htarget.complete.form
    obtain ⟨name, hname⟩ := htarget.complete.name
    refine .inspect hf ?_
    split
    case h_1 | h_2 =>
      refine .inspect hname (.bind (.resolve name) fun _ => .bind (hvalue _ _) fun _ => ?_)
      exact .bind .get fun _ => .bind (.onEnv _) fun _ => .emitted
    · have hreference := h.reference (.inl hform) hkept (hoperand target (by simp)) hf
      exact .bind (hvisit _ _ _ hreference) fun _ => .bind (hvalue _ _) fun _ => .emitted
    · exact .unsupported _
  · exact .unsupported _

theorem compoundAssignment_alive (h : t.Within (depth + 1)) (hform : Form.ofTag t.tag = .compoundAssignment)
    (start : Nat) : Alive (compoundAssignment visit start t) := by
  obtain ⟨kept, hkept, hmem⟩ := h.complete.operands
  obtain ⟨op, hop⟩ := h.complete.operator
  have hoperand : ∀ e ∈ kept, e.Within depth := fun e he => h.of_mem (hmem e he)
  refine .inspect hop (.inspect hkept ?_)
  split
  next target value =>
    have htarget := (hoperand target (by simp)).unwrapped
    have hvalue := fun start use => hvisit start value use (hoperand value (by simp))
    obtain ⟨f, hf⟩ := htarget.complete.form
    obtain ⟨name, hname⟩ := htarget.complete.name
    refine .ite (.bind (.unsupported _) fun _ => ?_) ?_
    all_goals
      refine .inspect hf ?_
      split
      case h_1 | h_2 =>
        refine .inspect hname (.bind (.resolve name) fun _ => .bind (path_alive ..) fun _ => ?_)
        exact .bind (hvalue _ _) fun _ => .emitted
      · have hreference := fun start use =>
          hvisit start _ use (h.reference (.inr hform) hkept (hoperand target (by simp)) hf)
        refine .bind (hreference _ _) fun _ => .bind (hreference _ _) fun _ => .bind (hvalue _ _) fun _ => ?_
        exact .bind (.emit _) fun _ => .emitted
      · exact .unsupported _
  · exact .unsupported _

omit hvisit in
theorem borrow_alive (h : t.Complete) : Alive (borrow t) := by
  obtain ⟨mutable, hmutable⟩ := h.isMutable
  have hname : ∀ f, Form.ofTag t.last.unwrapped.tag = f → (f = .path ∨ f = .identifier) →
      ∃ name, t.last.unwrapped.name = .ok name := by
    intro f hf hpath
    cases hlast : t.last with
    | absent =>
      rw [hlast] at hf
      have hother : f = .other := hf.symm
      rcases hpath with rfl | rfl <;> cases hother
    | node =>
      rw [← hlast]
      exact (h.last (by rw [hlast]; rfl)).unwrapped.name
  have hgranted (grant : Environment → Environment) (id : Nat) (code : Program) :
      Alive (onEnv grant >>= fun _ => setLent (some id) >>= fun _ => emit code) :=
    .bind (.onEnv _) fun _ => .bind (.setLent _) fun _ => .emit _
  unfold borrow
  dsimp only
  split
  case h_1 hf =>
    obtain ⟨name, hname⟩ := hname _ hf (.inl rfl)
    refine .inspect hname (.bind (.resolve name) fun found => .refusing _ (.inspect hmutable ?_))
    exact .ite (.refusing _ (hgranted ..)) (.refusing _ (hgranted ..))
  case h_2 hf =>
    obtain ⟨name, hname⟩ := hname _ hf (.inr rfl)
    refine .inspect hname (.bind (.resolve name) fun found => .refusing _ (.inspect hmutable ?_))
    exact .ite (.refusing _ (hgranted ..)) (.refusing _ (hgranted ..))
  · exact .unsupported _

theorem dereference_alive (h : t.Within (depth + 1)) (start : Nat) : Alive (dereference visit start t) := by
  unfold dereference
  split
  next hlast => exact .bind (hvisit _ _ _ (h.last hlast)) fun _ => .emitted
  · exact .unsupported _

theorem group_alive (h : t.Within (depth + 1)) (start : Nat) (use : Use) : Alive (group visit start t use) := by
  unfold group
  split
  · exact .bind (.setLent _) fun _ => .emit _
  next hchildren =>
    have hlast : t.last ∈ t.children := by
      have hne : t.children ≠ [] := by simpa using hchildren
      rw [Tree.last, List.getLast?_eq_some_getLast hne]
      exact List.getLast_mem hne
    exact hvisit _ _ _ (h.of_mem hlast)

theorem wrapper_alive (h : t.Within (depth + 1)) (start : Nat) (use : Use) : Alive (wrapper visit start t use) := by
  unfold wrapper
  split
  next e hchildren => exact hvisit _ e _ (h.of_mem (by simp [hchildren]))
  · exact .unsupported _

/-- No rule reaches for a node that is not there if none does for the nodes below. -/
theorem rule_alive (h : t.Within (depth + 1)) (start : Nat) (use : Use) :
    Alive (rule visit start (Form.ofTag t.tag) t use) := by
  obtain ⟨name, hname⟩ := h.complete.name
  generalize hform : Form.ofTag t.tag = f
  cases f with
  | literal => exact literal_alive h.complete
  | path | identifier => exact .inspect hname (path_alive ..)
  | block => exact block_alive hvisit h start
  | grouped => exact group_alive hvisit h start use
  | arithmetic | comparison | lazyBoolean => exact binary_alive hvisit h start
  | negation => exact unary_alive hvisit h start
  | conditional => exact conditional_alive hvisit h start
  | loop => exact loop_alive hvisit h start
  | call => exact call_alive hvisit h start
  | returning => exact returning_alive hvisit h start
  | assignment => exact assignment_alive hvisit h hform start
  | compoundAssignment => exact compoundAssignment_alive hvisit h hform start
  | borrow => exact borrow_alive h.complete
  | dereference => exact dereference_alive hvisit h start
  | letStatement =>
    exact .bind (statement_alive hvisit h (fun hne => absurd hform hne) start) fun _ => .emitted
  | expressionStatement =>
    exact .bind (statement_alive hvisit h (fun _ hne => absurd hform hne) start) fun _ => .emitted
  | crate | function | parameters | parameter | ascription | terminal | other => exact wrapper_alive hvisit h start use

end Rules

theorem toDepth_alive {depth : Nat} {t : Tree} (h : t.Within depth) (start : Nat) (use : Use) :
    Alive (toDepth depth start t use) := by
  induction depth generalizing start t use with
  | zero =>
    cases t with
    | absent => exact h.complete.elim
    | node => exact absurd h.height (Nat.not_succ_le_zero _)
  | succ depth ih =>
    cases t with
    | absent => exact h.complete.elim
    | node tag children val type =>
      refine .bind (rule_alive (fun start e use he => ih he start use) h start use) fun code => ?_
      exact .ite (.bind (.setLent _) fun _ => .pure _) (.pure _)

theorem program_alive {t : Tree} (h : t.Within t.height) : Alive (program t) := by
  have hmore : t.Within (t.height + 1) := ⟨h.complete, h.targets, Nat.le_succ _⟩
  refine .bind (.onEnv _) fun _ => .bind (crate_alive (fun start e use he => toDepth_alive he start use) hmore 0) fun _ => ?_
  exact .emitted

end Compile

/-- Checking and compiling come to an end on every tree without absent nodes, however malformed it is: the check of a
node has a type from every state, the check of a program has its complaints, and compilation has code or an error,
unless some assignment goes through a dereference of nothing. -/
theorem Tree.compile_total {t : Tree} (h : t.Complete) :
    (∀ c : Checker, ∃ type, (c.checkNode t).1 = .ok type) ∧ (∃ errors, t.complaints = .ok errors) ∧
      (t.hasTargets = true → t.compile ≠ .error .crashed) := by
  obtain ⟨errors, herrors⟩ := Tree.complaints_total h
  refine ⟨fun c => c.checkNode_total h, ⟨errors, herrors⟩, fun htargets hcrash => ?_⟩
  have halive := (Compile.program_alive ⟨h, htargets, Nat.le_refl _⟩).alive {}
  rw [Tree.compile, Tree.emissions, herrors, h.isPresent] at hcrash
  cases errors with
  | cons e es => cases hcrash
  | nil =>
    simp only [Bool.not_true, Bool.false_eq_true, if_false] at hcrash
    split at hcrash
    · change Except.map _ (Except.map Prod.fst (Compile.program t {})) = _ at hcrash
      cases hrun : Compile.program t {} with
      | ok r =>
        rw [hrun] at hcrash
        cases hcrash
      | error e =>
        rw [hrun] at hcrash
        cases hcrash
        exact halive hrun
    · cases hcrash

/-- A program of nodes without the children that their forms call for. -/
def Tree.bare : Tree :=
  crate [function "main" [] "" (block
    [statement (ofForm .assignment []), ofForm .dereference [], ofForm .letStatement [], ofForm .conditional []])]

/-- The bare program is rejected, but it is rejected with an answer. -/
theorem Tree.compile_total_bare : bare.Complete ∧ bare.hasTargets = true ∧ bare.compile ≠ .error .crashed := by
  have hempty : Text.isEmpty "" = true := rfl
  have hcomplete : bare.Complete := by
    simp [hempty, bare, crate, function, block, statement, ident, withText, ofForm, Complete, AllComplete]
  have htargets : bare.hasTargets = true := by decide
  exact ⟨hcomplete, htargets, (Tree.compile_total hcomplete).2.2 htargets⟩

/-- A program with a parameter in the place of a statement. The check does not look below it, but code is generated for
the assignment in it, which goes through a dereference of nothing. -/
def Tree.unchecked : Tree :=
  crate [function "main" [] "" (block
    [statement (ofForm .parameter [assignment (ofForm .dereference []) (int 1)])])]

/-- All nodes of the unchecked program are there and its check finds nothing, but the target of its assignment is no
node. -/
theorem Tree.unchecked_crashes : unchecked.Complete ∧ unchecked.complaints = .ok [] ∧
    unchecked.compile = .error .crashed := by
  have hempty : Text.isEmpty "" = true := rfl
  refine ⟨?_, by decide, by decide⟩
  simp [hempty, unchecked, crate, function, block, statement, assignment, int, literal, ident, withText, ofForm, Complete,
    AllComplete]

end Tenure
