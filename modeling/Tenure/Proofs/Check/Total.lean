import Tenure.Proofs.Tree.Complete

/-!
# Checks that come to an end

A check stops early only at a node that is not there. So where all nodes are there, it has an answer from whatever state
it starts, with a type or with complaints: `Checker.checkNode_total`.
-/

set_option autoImplicit false

namespace Tenure

namespace Check

variable {α β : Type} {visit : Tree → Check Ty} {t : Tree}

/-- A step of a check that gives a result in every state. -/
structure Total (x : Check α) : Prop where
  runs : ∀ c, ∃ a c', x c = (.ok a, c')

namespace Total

variable {x : Check α} {f : α → Check β}

theorem pure (a : α) : Total (Pure.pure a : Check α) := ⟨fun c => ⟨a, c, rfl⟩⟩

theorem get : Total (MonadState.get : Check Checker) := ⟨fun c => ⟨c, c, rfl⟩⟩

theorem modify (g : Checker → Checker) : Total (modify g : Check PUnit) := ⟨fun c => ⟨⟨⟩, g c, rfl⟩⟩

theorem bind (hx : Total x) (hf : ∀ a, Total (f a)) : Total (x >>= f) := by
  refine ⟨fun c => ?_⟩
  obtain ⟨a, c₁, ha⟩ := hx.runs c
  obtain ⟨b, c₂, hb⟩ := (hf a).runs c₁
  refine ⟨b, c₂, ?_⟩
  change ExceptT.bindCont f (x c).1 (x c).2 = _
  rw [ha]
  exact hb

/-- An inspection that has an answer goes before a step. -/
theorem inspect {i : Inspect α} {a : α} (hi : i = .ok a) (hf : Total (f a)) : Total ((liftM i : Check α) >>= f) := by
  subst hi
  exact hf

theorem ite {p : Prop} [Decidable p] {y : Check α} (hx : Total x) (hy : Total y) : Total (if p then x else y) := by
  split
  · exact hx
  · exact hy

theorem report (e : CheckError) : Total (Check.report e) := modify _

theorem require (ok : Bool) (e : CheckError) : Total (Check.require ok e) := ite (pure _) (report e)

theorem malformed (t : Tree) : Total (Check.malformed t) := bind (report _) fun _ => pure _

theorem onScopes (g : Scopes → Scopes) : Total (Check.onScopes g) := modify _

theorem define (name : Text) (type : Ty) (mutable : Bool) : Total (Check.define name type mutable) := onScopes _

theorem inScope (hx : Total x) : Total (Check.inScope x) := by
  refine ⟨fun c => ?_⟩
  obtain ⟨a, c', ha⟩ := hx.runs { c with scopes := c.scopes.enter }
  refine ⟨a, { c' with scopes := c'.scopes.exit }, ?_⟩
  change Prod.map id (fun after : Checker => { after with scopes := after.scopes.exit })
    (x { c with scopes := c.scopes.enter }) = _
  rw [ha]
  rfl

end Total

/-! ## Declarations -/

theorem ascription_total (owner : Text) (written : Option Tree) : Total (ascription owner written) := by
  unfold ascription
  split
  · exact .bind (.report _) fun _ => .pure _
  · split
    · exact .pure _
    · exact .bind (.report _) fun _ => .pure _

theorem parameterTypes_total {ps : List Tree} (h : ∀ p ∈ ps, p.Complete) : Total (parameterTypes ps) := by
  induction ps with
  | nil => exact .pure _
  | cons p rest ih =>
    have hp := h p (List.mem_cons_self ..)
    obtain ⟨written, hwritten, -⟩ := hp.child .ascription
    obtain ⟨name, hname⟩ := hp.name
    refine .inspect hwritten (.inspect hname (.bind (ascription_total ..) fun _ => ?_))
    exact .bind (ih fun e he => h e (List.mem_cons_of_mem _ he)) fun _ => .pure _

theorem signature_total (h : t.Complete) : Total (signature t) := by
  obtain ⟨ps, hps, hcomplete⟩ := h.parametersOf
  obtain ⟨written, hwritten, -⟩ := h.child .ascription
  obtain ⟨name, hname⟩ := h.name
  refine .inspect hps (.bind (parameterTypes_total hcomplete) fun _ => .inspect hwritten ?_)
  split
  · exact .pure _
  · exact .inspect hname (.bind (ascription_total ..) fun _ => .pure _)

theorem declareParameters_total {ps : List (Tree × Ty)} (h : ∀ p ∈ ps, p.1.Complete) : Total (declareParameters ps) := by
  induction ps with
  | nil => exact .pure _
  | cons p rest ih =>
    have hp := h p (List.mem_cons_self ..)
    obtain ⟨name, hname⟩ := hp.name
    obtain ⟨mutable, hmutable⟩ := hp.isMutable
    refine .inspect hname (.inspect hmutable (.bind (.define ..) fun _ => ?_))
    exact ih fun e he => h e (List.mem_cons_of_mem _ he)

theorem declareFunctions_total {ts : List Tree} (h : ∀ t ∈ ts, t.Complete) : Total (declareFunctions ts) := by
  induction ts with
  | nil => exact .pure _
  | cons t rest ih =>
    have ht := h t (List.mem_cons_self ..)
    obtain ⟨name, hname⟩ := ht.name
    refine .bind (signature_total ht) fun _ => .inspect hname (.bind (.define ..) fun _ => ?_)
    exact .bind (ih fun e he => h e (List.mem_cons_of_mem _ he)) fun _ => .pure _

theorem declareGlobals_total {ts : List Tree} (h : ∀ t ∈ ts, t.Complete) (known : List (Text × Signature)) :
    Total (declareGlobals ts known) := by
  induction ts generalizing known with
  | nil => exact .pure _
  | cons t rest ih =>
    have ht := h t (List.mem_cons_self ..)
    have hrest := fun known => ih (fun e he => h e (List.mem_cons_of_mem _ he)) known
    obtain ⟨name, hname⟩ := ht.name
    refine .inspect hname (.ite (.bind (.report _) fun _ => hrest _) ?_)
    exact .bind (signature_total ht) fun _ => .bind (.onScopes _) fun _ => hrest _

theorem splitNamed_total {ts : List Tree} (h : ∀ t ∈ ts, t.Complete) (name : Text) :
    ∃ r, splitNamed name ts = .ok r ∧ (∀ e ∈ r.1, e ∈ ts) ∧ ∀ e ∈ r.2, e ∈ ts := by
  induction ts with
  | nil => exact ⟨_, rfl, nofun, nofun⟩
  | cons t rest ih =>
    obtain ⟨found, hfound⟩ := (h t (List.mem_cons_self ..)).name
    obtain ⟨r, hr, hfirst, hothers⟩ := ih fun e he => h e (List.mem_cons_of_mem _ he)
    rw [splitNamed, hfound]
    change ∃ r', (if found = name then pure (some t, rest) else
      splitNamed name rest >>= fun r => pure (r.1, t :: r.2) : Inspect _) = .ok r' ∧ _
    split
    · refine ⟨_, rfl, fun e he => ?_, fun e he => List.mem_cons_of_mem _ he⟩
      obtain rfl := Option.mem_some.mp he
      exact List.mem_cons_self ..
    · refine ⟨(r.1, t :: r.2), by rw [hr]; rfl, fun e he => List.mem_cons_of_mem _ (hfirst e he), fun e he => ?_⟩
      exact List.mem_cons.mpr ((List.mem_cons.mp he).imp_right (hothers e))

/-! ## Rules -/

section Rules

variable (hvisit : ∀ e : Tree, (e.isPresent = true → e.Complete) → Total (visit e))

include hvisit

theorem inOrder_total {ts : List Tree} (h : ∀ t ∈ ts, t.Complete) (last : Ty) : Total (inOrder visit ts last) := by
  induction ts generalizing last with
  | nil => exact .pure _
  | cons t rest ih =>
    refine .bind (hvisit t fun _ => h t (List.mem_cons_self ..)) fun _ => ?_
    exact ih (fun e he => h e (List.mem_cons_of_mem _ he)) _

theorem all_total {ts : List Tree} (h : ∀ t ∈ ts, t.Complete) : Total (all visit ts) := by
  induction ts with
  | nil => exact .pure _
  | cons t rest ih =>
    refine .bind (hvisit t fun _ => h t (List.mem_cons_self ..)) fun _ => ?_
    exact .bind (ih fun e he => h e (List.mem_cons_of_mem _ he)) fun _ => .pure _

theorem function_total (h : t.Complete) (s : Signature) : Total (function visit t s) := by
  obtain ⟨name, hname⟩ := h.name
  obtain ⟨found, hfound, hmem⟩ := h.child .block
  obtain ⟨ps, hps, hcomplete⟩ := h.parametersOf
  refine .inspect hname (.inspect hfound ?_)
  cases found with
  | none => exact .report _
  | some body =>
    refine .bind (.onScopes _) fun _ => .inspect hps (.bind ?_ fun _ => .bind (.modify _) fun _ => ?_)
    · exact declareParameters_total fun p hp => hcomplete p.1 (List.of_mem_zip hp).1
    · exact .bind (hvisit body fun _ => h.of_mem (hmem body rfl)) fun _ => .bind (.modify _) fun _ => .require ..

theorem blockItems_total {ts : List Tree} (h : ∀ t ∈ ts, t.Complete) (signatures : List Signature) (last : Ty) :
    Total (blockItems visit ts signatures last) := by
  induction ts generalizing signatures last with
  | nil => exact .pure _
  | cons t rest ih =>
    have ht := h t (List.mem_cons_self ..)
    have hrest := fun signatures last => ih (fun e he => h e (List.mem_cons_of_mem _ he)) signatures last
    obtain ⟨f, hf⟩ := ht.form
    refine .inspect hf (.ite ?_ ?_)
    · exact .bind (function_total hvisit ht _) fun _ => hrest _ _
    · exact .bind (hvisit t fun _ => ht) fun _ => hrest _ _

theorem block_total (h : t.Complete) : Total (block visit t) := by
  obtain ⟨functions, hfunctions, hmem⟩ := h.childrenOf .function
  refine .inScope (.inspect hfunctions ?_)
  refine .bind (declareFunctions_total fun e he => h.of_mem (hmem e he)) fun _ => ?_
  exact blockItems_total hvisit (fun e he => h.of_mem he) _ _

theorem functionItem_total (h : t.Complete) : Total (functionItem visit t) := by
  obtain ⟨name, hname⟩ := h.name
  refine .bind (signature_total h) fun s => .inspect hname (.bind (.define ..) fun _ => ?_)
  exact .bind (function_total hvisit h s) fun _ => .pure _

theorem crateFunctions_total {ts : List Tree} (h : ∀ t ∈ ts, t.Complete) (known : List (Text × Signature)) :
    Total (crateFunctions visit known ts) := by
  induction ts with
  | nil => exact .pure _
  | cons t rest ih =>
    have ht := h t (List.mem_cons_self ..)
    obtain ⟨name, hname⟩ := ht.name
    refine .inspect hname (.bind (function_total hvisit ht _) fun _ => ?_)
    exact ih fun e he => h e (List.mem_cons_of_mem _ he)

theorem crate_total (h : t.Complete) : Total (crate visit t) := by
  obtain ⟨functions, hfunctions, hmem⟩ := h.childrenOf .function
  have hcomplete : ∀ e ∈ functions, e.Complete := fun e he => h.of_mem (hmem e he)
  obtain ⟨⟨main, others⟩, hsplit, hmain, hothers⟩ := splitNamed_total hcomplete "main"
  obtain ⟨rest, hrest, hinside⟩ := Tree.select_total (fun e he => h.of_mem he) (· ≠ .function)
  refine .inspect hfunctions (.bind (declareGlobals_total hcomplete _) fun known => .inspect hsplit ?_)
  refine .bind (crateFunctions_total hvisit (fun e he => hcomplete e (hothers e he)) known) fun _ => .inspect hrest ?_
  refine .bind (inOrder_total hvisit (fun e he => h.of_mem (hinside e he)) _) fun _ => ?_
  cases main with
  | none => exact .bind (.report _) fun _ => .pure _
  | some m => exact .bind (function_total hvisit (hcomplete m (hmain m rfl)) _) fun _ => .pure _

theorem letStatement_total (h : t.Complete) : Total (letStatement visit t) := by
  obtain ⟨name, hname⟩ := h.name
  obtain ⟨mutable, hmutable⟩ := h.isMutable
  obtain ⟨written, hwritten, -⟩ := h.child .ascription
  obtain ⟨initial, hinitial, hmem⟩ := h.initializer
  refine .inspect hname (.inspect hmutable (.inspect hwritten ?_))
  dsimp only
  split
  case' h_2 => refine .bind (ascription_total ..) fun _ => ?_
  all_goals
    refine .bind (.pure _) fun declared => .inspect hinitial ?_
    cases initial with
    | none => exact .bind (.require ..) fun _ => .bind .get fun _ => .bind (.onScopes _) fun _ => .pure _
    | some e =>
      refine .bind (hvisit e fun _ => h.of_mem (hmem e rfl)) fun _ => ?_
      cases declared with
      | none => exact .bind (.define ..) fun _ => .pure _
      | some type => exact .bind (.require ..) fun _ => .bind (.define ..) fun _ => .pure _

theorem last_total (h : t.Complete) : Total (visit t.last) := hvisit t.last h.last

theorem expressionStatement_total (h : t.Complete) : Total (expressionStatement visit t) :=
  .bind (last_total hvisit h) fun _ => .pure _

theorem returning_total (h : t.Complete) : Total (returning visit t) := by
  refine .bind (last_total hvisit h) fun _ => .bind .get fun c => ?_
  dsimp only
  split
  · exact .bind (.report _) fun _ => .pure _
  · exact .bind (.require ..) fun _ => .pure _

omit hvisit in
theorem literal_total (h : t.Complete) : Total (literal t) := by
  obtain ⟨source, hsource⟩ := h.source
  refine .inspect hsource ?_
  dsimp only
  split
  · exact .bind (.report _) fun _ => .pure _
  · split
    · exact .pure _
    · exact .bind (.report _) fun _ => .pure _

omit hvisit in
theorem path_total (h : t.Complete) : Total (path t) := by
  obtain ⟨name, hname⟩ := h.name
  refine .inspect hname (.bind .get fun _ => ?_)
  split
  · exact .pure _
  · exact .bind (.report _) fun _ => .pure _

omit hvisit in
theorem binary_total (left right : Ty) (op : Text) : Total (binary left right op) := by
  refine .ite ?_ (.ite ?_ (.ite (.ite (.pure _) (.ite (.pure _) ?_)) (.ite ?_ ?_)))
  · exact .bind (.require ..) fun _ => .bind (.require ..) fun _ => .pure _
  · exact .bind (.require ..) fun _ => .bind (.require ..) fun _ => .pure _
  · exact .bind (.report _) fun _ => .pure _
  · exact .bind (.require ..) fun _ => .pure _
  · exact .bind (.report _) fun _ => .pure _

theorem operation_total (h : t.Complete) : Total (operation visit t) := by
  obtain ⟨kept, hkept, hmem⟩ := h.operands
  obtain ⟨op, hop⟩ := h.operator
  have hoperand : ∀ e ∈ kept, Total (visit e) := fun e he => hvisit e fun _ => h.of_mem (hmem e he)
  refine .inspect hkept ?_
  split
  next a b =>
    refine .bind (hoperand a (by simp)) fun _ => .bind (hoperand b (by simp)) fun _ => .inspect hop ?_
    exact binary_total ..
  · exact .malformed t

theorem comparison_total (h : t.Complete) : Total (comparison visit t) := by
  obtain ⟨kept, hkept, hmem⟩ := h.operands
  obtain ⟨op, hop⟩ := h.operator
  have hoperand : ∀ e ∈ kept, Total (visit e) := fun e he => hvisit e fun _ => h.of_mem (hmem e he)
  refine .inspect hkept ?_
  split
  next a b =>
    refine .bind (hoperand a (by simp)) fun _ => .bind (hoperand b (by simp)) fun _ => .inspect hop ?_
    refine .ite (.bind (.require ..) fun _ => .pure _) (.ite ?_ (.bind (.report _) fun _ => .pure _))
    split
    · exact .pure _
    · exact .bind (.report _) fun _ => .pure _
  · exact .malformed t

theorem negation_total (h : t.Complete) : Total (negation visit t) := by
  obtain ⟨op, hop⟩ := h.operator
  refine .bind (last_total hvisit h) fun _ => .inspect hop ?_
  exact .ite (.bind (.require ..) fun _ => .pure _)
    (.ite (.bind (.require ..) fun _ => .pure _) (.bind (.report _) fun _ => .pure _))

theorem branches_total {thenBranch : Tree} {elseBranch : Option Tree} (hthen : thenBranch.Complete)
    (helse : ∀ e ∈ elseBranch, e.Complete) : Total (branches visit thenBranch elseBranch) := by
  refine .bind .get fun _ => .bind (hvisit _ fun _ => hthen) fun _ => .bind .get fun _ => .bind (.onScopes _) fun _ => ?_
  dsimp only
  split
  · exact .bind (.onScopes _) fun _ => .pure _
  next e =>
    refine .bind (hvisit e fun _ => helse e rfl) fun _ => .bind (.require ..) fun _ => ?_
    exact .bind (.onScopes _) fun _ => .pure _

theorem conditional_total (h : t.Complete) : Total (conditional visit t) := by
  obtain ⟨kept, hkept, hmem⟩ := h.operands
  have hoperand : ∀ e ∈ kept, e.Complete := fun e he => h.of_mem (hmem e he)
  refine .inspect hkept ?_
  split
  next condition thenBranch rest =>
    refine .bind (hvisit condition fun _ => hoperand _ (by simp)) fun _ => .bind (.require ..) fun _ => ?_
    refine branches_total hvisit (hoperand _ (by simp)) fun e he => hoperand e ?_
    exact List.mem_cons_of_mem _ (List.mem_cons_of_mem _ (List.mem_of_head? he))
  · exact .malformed t

theorem loop_total (h : t.Complete) : Total (loop visit t) := by
  obtain ⟨kept, hkept, hmem⟩ := h.operands
  have hoperand : ∀ e ∈ kept, Total (visit e) := fun e he => hvisit e fun _ => h.of_mem (hmem e he)
  refine .inspect hkept ?_
  split
  next condition body =>
    refine .bind (hoperand _ (by simp)) fun _ => .bind (.require ..) fun _ => .bind (.modify _) fun _ => ?_
    exact .bind (hoperand _ (by simp)) fun _ => .bind (.modify _) fun _ => .pure _
  · exact .malformed t

omit hvisit in
theorem compareArguments_total (ps as : List Ty) (number : Nat) : Total (compareArguments ps as number) := by
  induction ps generalizing as number with
  | nil => exact .pure _
  | cons p ps ih =>
    cases as with
    | nil => exact .pure _
    | cons a as => exact .bind (.require ..) fun _ => ih ..

theorem call_total (h : t.Complete) : Total (call visit t) := by
  obtain ⟨kept, hkept, hmem⟩ := h.operands
  have hoperand : ∀ e ∈ kept, e.Complete := fun e he => h.of_mem (hmem e he)
  refine .inspect hkept ?_
  split
  · exact .malformed t
  next callee arguments =>
    refine .bind (hvisit callee fun _ => hoperand _ (by simp)) fun _ => ?_
    refine .bind (all_total hvisit fun e he => hoperand e (List.mem_cons_of_mem _ he)) fun _ => ?_
    split
    · exact .ite (.bind (compareArguments_total ..) fun _ => .pure _) (.bind (.report _) fun _ => .pure _)
    · exact .bind (.report _) fun _ => .pure _

theorem store_total {target : Tree} (h : target.Complete) (value : Ty) (plain : Bool) :
    Total (store visit target value plain) := by
  obtain ⟨f, hf⟩ := h.form
  obtain ⟨name, hname⟩ := h.name
  refine .inspect hf ?_
  split
  case h_1 | h_2 =>
    refine .inspect hname (.bind .get fun _ => ?_)
    split
    · exact .report _
    · exact .bind .get fun _ => .ite (.bind (.onScopes _) fun _ => .require ..) (.bind (.require ..) fun _ => .require ..)
  · refine .bind (last_total hvisit h) fun _ => ?_
    split
    · exact .bind (.require ..) fun _ => .require ..
    · exact .report _
  · exact .report _

theorem assignment_total (h : t.Complete) : Total (assignment visit t) := by
  obtain ⟨kept, hkept, hmem⟩ := h.operands
  have hoperand : ∀ e ∈ kept, e.Complete := fun e he => h.of_mem (hmem e he)
  refine .inspect hkept ?_
  split
  next target value =>
    refine .bind (hvisit value fun _ => hoperand _ (by simp)) fun _ => ?_
    exact .bind (store_total hvisit (hoperand target (by simp)).unwrapped _ _) fun _ => .pure _
  · exact .malformed t

theorem compoundAssignment_total (h : t.Complete) : Total (compoundAssignment visit t) := by
  obtain ⟨kept, hkept, hmem⟩ := h.operands
  obtain ⟨op, hop⟩ := h.operator
  have hoperand : ∀ e ∈ kept, e.Complete := fun e he => h.of_mem (hmem e he)
  refine .inspect hkept (.inspect hop ?_)
  split
  next target value _ _ =>
    have htarget := (hoperand target (by simp)).unwrapped
    refine .bind (hvisit _ fun _ => htarget) fun _ => .bind (hvisit value fun _ => hoperand _ (by simp)) fun _ => ?_
    exact .bind (binary_total ..) fun _ => .bind (store_total hvisit htarget _ _) fun _ => .pure _
  · exact .malformed t

theorem borrow_total (h : t.Complete) : Total (borrow visit t) := by
  obtain ⟨mutable, hmutable⟩ := h.isMutable
  unfold borrow
  dsimp only
  split
  next hlast =>
    have htarget := (h.last hlast).unwrapped
    obtain ⟨f, hf⟩ := htarget.form
    obtain ⟨name, hname⟩ := htarget.name
    refine .inspect hmutable (.bind (last_total hvisit h) fun _ => .ite (.inspect hf (.ite ?_ ?_)) ?_)
    · exact .inspect hname (.bind .get fun _ => .bind (.require ..) fun _ => .pure _)
    · exact .pure _
    · exact .pure _
  · exact .malformed t

theorem dereference_total (h : t.Complete) : Total (dereference visit t) := by
  refine .bind (last_total hvisit h) fun _ => ?_
  split
  · exact .pure _
  · exact .bind (.report _) fun _ => .pure _

/-- Every rule comes to an end on a node if the checks of the nodes below do. -/
theorem rule_total (h : t.Complete) (f : Form) : Total (rule visit f t) := by
  cases f with
  | crate => exact crate_total hvisit h
  | function => exact functionItem_total hvisit h
  | block => exact block_total hvisit h
  | letStatement => exact letStatement_total hvisit h
  | expressionStatement => exact expressionStatement_total hvisit h
  | literal => exact literal_total h
  | path | identifier => exact path_total h
  | returning => exact returning_total hvisit h
  | arithmetic | lazyBoolean => exact operation_total hvisit h
  | comparison => exact comparison_total hvisit h
  | negation => exact negation_total hvisit h
  | grouped => exact last_total hvisit h
  | conditional => exact conditional_total hvisit h
  | loop => exact loop_total hvisit h
  | call => exact call_total hvisit h
  | assignment => exact assignment_total hvisit h
  | compoundAssignment => exact compoundAssignment_total hvisit h
  | borrow => exact borrow_total hvisit h
  | dereference => exact dereference_total hvisit h
  | ascription | terminal | parameters | parameter => exact .pure _
  | other => exact inOrder_total hvisit (fun e he => h.of_mem he) _

end Rules

/-- A node that is not there is no obstacle itself, only one among the children of a node is. -/
theorem toDepth_total (depth : Nat) (h : t.isPresent = true → t.Complete) : Total (toDepth depth t) := by
  induction depth generalizing t with
  | zero => exact .pure _
  | succ depth ih =>
    cases t with
    | absent => exact .pure _
    | node tag children val type => exact rule_total (fun e he => ih he) (h rfl) _

end Check

/-- The check of a tree without absent nodes has a type for it, from every state. -/
theorem Checker.checkNode_total (c : Checker) {t : Tree} (h : t.Complete) : ∃ type, (c.checkNode t).1 = .ok type := by
  obtain ⟨type, c', hrun⟩ := (Check.toDepth_total t.height fun _ => h).runs c
  exact ⟨type, congrArg Prod.fst hrun⟩

/-- The check of a whole program has a list of complaints. -/
theorem Tree.complaints_total {t : Tree} (h : t.Complete) : ∃ errors, t.complaints = .ok errors := by
  obtain ⟨type, hrun⟩ := Checker.checkNode_total .initial h
  refine ⟨(Checker.initial.checkNode t).2.errors, ?_⟩
  rw [Tree.complaints, Checker.checkProgram]
  generalize Checker.initial.checkNode t = r at hrun
  obtain ⟨_, c⟩ := r
  subst hrun
  rfl

end Tenure
