import Tenure.Proofs.Check.Total
import Tenure.Proofs.Order.Checks
import Tenure.Tree.Build

/-!
# Checks that leave their surroundings alone

The check of a node declares names in the innermost scope only, closes the scopes that it opens, and comes back to the
functions and the loops around the node. What every rule does on its own is collected in `Check.Respected`: a relation
of states that respects these few changes holds before and after the check of any node, `Check.toDepth_steady`. One such
relation is `Check.Balanced`, another that bindings are numbered in the order of their declaration.
-/

set_option autoImplicit false

namespace Tenure

namespace Check

variable {α β : Type} {R : Checker → Checker → Prop}

/-- A relation of states that respects what the rules do to a state: complaining, declaring in the innermost scope,
giving a first value, and working inside a scope, a function, a loop or the two branches of a conditional. -/
structure Respected (R : Checker → Checker → Prop) : Prop where
  refl (c : Checker) : R c c
  trans {c c' c'' : Checker} (h : R c c') (h' : R c' c'') : R c c''
  complain (c : Checker) (es : List CheckError) : R c { c with errors := c.errors ++ es }
  define (c : Checker) (name : Text) (type : Ty) (mutable : Bool) :
    R c { c with scopes := c.scopes.define name type mutable }
  defer (c : Checker) (name : Text) (type : Ty) (mutable : Bool) (loops : Int) :
    R c { c with scopes := c.scopes.defineDeferred name type mutable loops }
  settle (c : Checker) (name : Text) : R c { c with scopes := c.scopes.settle name }
  scope {c c' : Checker} (h : R { c with scopes := c.scopes.enter } c') : R c { c' with scopes := c'.scopes.exit }
  function {c c' : Checker} {f : Enclosing} (h : R { c with functions := f :: c.functions } c') :
    R c { c' with functions := c'.functions.drop 1 }
  loop {c c' : Checker} (h : R { c with loops := c.loops + 1 } c') : R c { c' with loops := c'.loops - 1 }
  branches {c c₁ c' : Checker} {settled : List Nat} (hsettled : ∀ n ∈ settled, n ∈ c.scopes.awaiting) (h : R c c₁)
    (h' : R { c₁ with scopes := { c₁.scopes with awaiting := settled ++ c₁.scopes.awaiting } } c') :
    R c { c' with scopes := { c'.scopes with awaiting := c'.scopes.awaiting.filter fun n => !settled.contains n } }

/-- A relation of states that respects declarations in the global scope. -/
def Respected.Globals (R : Checker → Checker → Prop) : Prop :=
  ∀ (c : Checker) (name : Text) (type : Ty), R c { c with scopes := c.scopes.defineGlobal name type }

/-- A step of a check that, if it has a result, leads to a related state. -/
structure Steady (R : Checker → Checker → Prop) (x : Check α) : Prop where
  leads {c c' : Checker} {a : α} (h : x c = (.ok a, c')) : R c c'

/-- A step with a result goes through a first step with a result. -/
theorem of_bind {x : Check α} {f : α → Check β} {c c' : Checker} {b : β} (h : (x >>= f) c = (.ok b, c')) :
    ∃ a c₁, x c = (.ok a, c₁) ∧ f a c₁ = (.ok b, c') := by
  rcases hxc : x c with ⟨e | a, c₁⟩
  · rw [bind_error hxc] at h
    cases h
  · exact ⟨a, c₁, rfl, (bind_ok hxc f).symm.trans h⟩

theorem of_inspect {i : Inspect α} {f : α → Check β} {c c' : Checker} {b : β}
    (h : ((liftM i : Check α) >>= f) c = (.ok b, c')) : ∃ a, f a c = (.ok b, c') := by
  cases i with
  | error e => cases h
  | ok a => exact ⟨a, h⟩

namespace Steady

variable {x : Check α} {f : α → Check β}

theorem pure (hR : Respected R) (a : α) : Steady R (Pure.pure a : Check α) where
  leads {c c' a} h := by
    cases h
    exact hR.refl c

theorem bind (hR : Respected R) (hx : Steady R x) (hf : ∀ a, Steady R (f a)) : Steady R (x >>= f) where
  leads {c c' b} h := by
    obtain ⟨a, c₁, ha, hb⟩ := of_bind h
    exact hR.trans (hx.leads ha) ((hf a).leads hb)

/-- An inspection goes before a step. -/
theorem inspect {i : Inspect α} (hf : ∀ a, i = .ok a → Steady R (f a)) : Steady R ((liftM i : Check α) >>= f) := by
  cases i with
  | error e => exact ⟨nofun⟩
  | ok a => exact hf a rfl

/-- A step that looks at the state. -/
theorem look {f : Checker → Check β} (hf : ∀ c, Steady R (f c)) : Steady R (get >>= f) :=
  ⟨fun {c _ _} h => (hf c).leads h⟩

theorem ite {p : Prop} [Decidable p] {y : Check α} (hx : Steady R x) (hy : Steady R y) :
    Steady R (if p then x else y) := by
  split
  · exact hx
  · exact hy

/-- A change of the scopes that leads to a related state. -/
theorem onScopes {g : Scopes → Scopes} (hg : ∀ c : Checker, R c { c with scopes := g c.scopes }) :
    Steady R (Check.onScopes g) where
  leads {c c' a} h := by
    cases h
    exact hg c

theorem of_writes (hR : Respected R) (hx : Writes x) : Steady R x where
  leads {c c' a} h := by
    obtain ⟨r, es, hx⟩ := hx.same
    rw [hx] at h
    cases h
    exact hR.complain c es

variable (hR : Respected R)

include hR

theorem report (e : CheckError) : Steady R (Check.report e) := of_writes hR (.report e)

theorem require (ok : Bool) (e : CheckError) : Steady R (Check.require ok e) := of_writes hR (.require ok e)

theorem malformed (t : Tree) : Steady R (Check.malformed t) := of_writes hR (.malformed t)

theorem define (name : Text) (type : Ty) (mutable : Bool) : Steady R (Check.define name type mutable) :=
  onScopes fun c => hR.define c name type mutable

theorem inScope (hx : Steady R x) : Steady R (Check.inScope x) where
  leads {c c' a} h := by
    rcases hxc : x { c with scopes := c.scopes.enter } with ⟨r, c₁⟩
    have hrun : Check.inScope x c = (r, { c₁ with scopes := c₁.scopes.exit }) := by
      show Prod.map id (fun after : Checker => { after with scopes := after.scopes.exit })
        (x { c with scopes := c.scopes.enter }) = _
      rw [hxc]
      rfl
    rw [hrun] at h
    cases h
    exact hR.scope (hx.leads hxc)

end Steady

/-! ## Rules -/

/-- A tree without crates, unless declarations in the global scope are respected too. -/
def Fits (R : Checker → Checker → Prop) (t : Tree) : Prop := t.crateless = true ∨ Respected.Globals R

namespace Fits

variable {t e : Tree}

theorem of_mem (h : Fits R t) (he : e ∈ t.children) : Fits R e := h.imp_left fun h => Tree.everyNode_of_mem h he

theorem last (h : Fits R t) : Fits R t.last := h.imp_left Tree.everyNode_last

theorem unwrapped (h : Fits R t) : Fits R t.unwrapped := h.imp_left Tree.everyNode_unwrapped

theorem operands (h : Fits R t) {kept : List Tree} (hkept : t.operands = .ok kept) : ∀ e ∈ kept, Fits R e :=
  fun _ he => h.of_mem (Tree.mem_of_select hkept he)

end Fits

section Rules

variable {visit : Tree → Check Ty} {t : Tree} (hR : Respected R)
  (hvisit : ∀ e : Tree, Fits R e → Steady R (visit e))

include hR in
theorem declareParameters_steady (ps : List (Tree × Ty)) : Steady R (declareParameters ps) := by
  induction ps with
  | nil => exact .pure hR _
  | cons p rest ih => exact .inspect fun name _ => .inspect fun mutable _ => .bind hR (.define hR ..) fun _ => ih

include hR in
theorem declareFunctions_steady (ts : List Tree) : Steady R (declareFunctions ts) := by
  induction ts with
  | nil => exact .pure hR _
  | cons t rest ih =>
    refine .bind hR (.of_writes hR (.signature t)) fun s => .inspect fun name _ => ?_
    exact .bind hR (.define hR ..) fun _ => .bind hR ih fun _ => .pure hR _

include hR in
theorem declareGlobals_steady (hglobals : Respected.Globals R) (ts : List Tree) (known : List (Text × Signature)) :
    Steady R (declareGlobals ts known) := by
  induction ts generalizing known with
  | nil => exact .pure hR _
  | cons t rest ih =>
    refine .inspect fun name _ => .ite (.bind hR (.report hR _) fun _ => ih _) ?_
    refine .bind hR (.of_writes hR (.signature t)) fun s => .bind hR (.onScopes fun c => ?_) fun _ => ih _
    exact hglobals c name s.type

include hR hvisit

theorem inOrder_steady {ts : List Tree} (h : ∀ e ∈ ts, Fits R e) (last : Ty) : Steady R (inOrder visit ts last) := by
  induction ts generalizing last with
  | nil => exact .pure hR _
  | cons t rest ih =>
    refine .bind hR (hvisit t (h t (List.mem_cons_self ..))) fun _ => ?_
    exact ih (fun e he => h e (List.mem_cons_of_mem _ he)) _

theorem all_steady {ts : List Tree} (h : ∀ e ∈ ts, Fits R e) : Steady R (all visit ts) := by
  induction ts with
  | nil => exact .pure hR _
  | cons t rest ih =>
    refine .bind hR (hvisit t (h t (List.mem_cons_self ..))) fun _ => ?_
    exact .bind hR (ih fun e he => h e (List.mem_cons_of_mem _ he)) fun _ => .pure hR _

/-- The scope of a function is closed and the function is left only after its body: the step from the parameters to the
end of the body is one inside a function inside a scope. -/
theorem function_steady (h : Fits R t) (s : Signature) : Steady R (function visit t s) := by
  refine .inspect fun name _ => .inspect fun found hfound => ?_
  cases found with
  | none => exact .report hR _
  | some body =>
    have hbody := hvisit body (h.of_mem (Tree.mem_of_firstWith hfound))
    refine ⟨fun {c c' a} hrun => ?_⟩
    obtain ⟨_, c₁, henter, hrun⟩ := of_bind hrun
    cases henter
    obtain ⟨ps, hrun⟩ := of_inspect hrun
    obtain ⟨_, c₂, hdeclare, hrun⟩ := of_bind hrun
    obtain ⟨_, c₃, hpush, hrun⟩ := of_bind hrun
    cases hpush
    obtain ⟨got, c₄, hgot, hrun⟩ := of_bind hrun
    obtain ⟨_, c₅, hleave, hrun⟩ := of_bind hrun
    cases hleave
    have hinside := hR.trans ((declareParameters_steady hR _).leads hdeclare) (hR.function (hbody.leads hgot))
    exact hR.trans (hR.scope hinside) ((Steady.require hR ..).leads hrun)

theorem blockItems_steady {ts : List Tree} (h : ∀ e ∈ ts, Fits R e) (signatures : List Signature) (last : Ty) :
    Steady R (blockItems visit ts signatures last) := by
  induction ts generalizing signatures last with
  | nil => exact .pure hR _
  | cons t rest ih =>
    have ht := h t (List.mem_cons_self ..)
    have hrest := fun signatures last => ih (fun e he => h e (List.mem_cons_of_mem _ he)) signatures last
    refine .inspect fun f _ => .ite ?_ ?_
    · exact .bind hR (function_steady hR hvisit ht _) fun _ => hrest _ _
    · exact .bind hR (hvisit t ht) fun _ => hrest _ _

theorem block_steady (h : Fits R t) : Steady R (block visit t) := by
  refine .inScope hR (.inspect fun items _ => .bind hR (declareFunctions_steady hR items) fun signatures => ?_)
  exact blockItems_steady hR hvisit (fun e he => h.of_mem he) _ _

theorem functionItem_steady (h : Fits R t) : Steady R (functionItem visit t) := by
  refine .bind hR (.of_writes hR (.signature t)) fun s => .inspect fun name _ => .bind hR (.define hR ..) fun _ => ?_
  exact .bind hR (function_steady hR hvisit h s) fun _ => .pure hR _

theorem crateFunctions_steady {ts : List Tree} (h : ∀ e ∈ ts, Fits R e) (known : List (Text × Signature)) :
    Steady R (crateFunctions visit known ts) := by
  induction ts with
  | nil => exact .pure hR _
  | cons t rest ih =>
    have ht := h t (List.mem_cons_self ..)
    refine .inspect fun name _ => .bind hR (function_steady hR hvisit ht _) fun _ => ?_
    exact ih fun e he => h e (List.mem_cons_of_mem _ he)

theorem crate_steady (hglobals : Respected.Globals R) : Steady R (crate visit t) := by
  have hfits : ∀ e : Tree, Fits R e := fun _ => .inr hglobals
  refine .inspect fun items _ => .bind hR (declareGlobals_steady hR hglobals ..) fun known => .inspect fun split _ => ?_
  refine .bind hR (crateFunctions_steady hR hvisit (fun e _ => hfits e) known) fun _ => .inspect fun rest _ => ?_
  refine .bind hR (inOrder_steady hR hvisit (fun e _ => hfits e) _) fun _ => ?_
  split
  · exact .bind hR (.report hR _) fun _ => .pure hR _
  · exact .bind hR (function_steady hR hvisit (hfits _) _) fun _ => .pure hR _

theorem letStatement_steady (h : Fits R t) : Steady R (letStatement visit t) := by
  refine .inspect fun name _ => .inspect fun mutable _ => .inspect fun written _ => ?_
  dsimp only
  split
  case' h_2 => refine .bind hR (.of_writes hR (.ascription ..)) fun _ => ?_
  all_goals
    refine .bind hR (.pure hR _) fun declared => .inspect fun initial hinitial => ?_
    split
    next e =>
      refine .bind hR (hvisit e (h.of_mem (Tree.mem_of_firstWith hinitial))) fun got => ?_
      split
      · exact .bind hR (.define hR ..) fun _ => .pure hR _
      · exact .bind hR (.require hR ..) fun _ => .bind hR (.define hR ..) fun _ => .pure hR _
    · refine .bind hR (.require hR ..) fun _ => .look fun c => .bind hR (.onScopes fun c => ?_) fun _ => .pure hR _
      exact hR.defer ..

theorem expressionStatement_steady (h : Fits R t) : Steady R (expressionStatement visit t) :=
  .bind hR (hvisit _ h.last) fun _ => .pure hR _

theorem returning_steady (h : Fits R t) : Steady R (returning visit t) := by
  refine .bind hR (hvisit _ h.last) fun type => .look fun c => ?_
  split
  · exact .bind hR (.report hR _) fun _ => .pure hR _
  · exact .bind hR (.require hR ..) fun _ => .pure hR _

omit hvisit in
theorem path_steady : Steady R (path t) := by
  refine .inspect fun name _ => .look fun c => ?_
  split
  · exact .pure hR _
  · exact .bind hR (.report hR _) fun _ => .pure hR _

theorem operation_steady (h : Fits R t) : Steady R (operation visit t) := by
  refine .inspect fun kept hkept => ?_
  have hfits := h.operands hkept
  split
  next a b =>
    refine .bind hR (hvisit a (hfits a (by simp))) fun left => .bind hR (hvisit b (hfits b (by simp))) fun right => ?_
    exact .inspect fun op _ => .of_writes hR (.binary ..)
  · exact .malformed hR t

theorem comparison_steady (h : Fits R t) : Steady R (comparison visit t) := by
  refine .inspect fun kept hkept => ?_
  have hfits := h.operands hkept
  split
  next a b =>
    refine .bind hR (hvisit a (hfits a (by simp))) fun left => .bind hR (hvisit b (hfits b (by simp))) fun right => ?_
    refine .inspect fun op _ => .ite (.bind hR (.require hR ..) fun _ => .pure hR _) (.ite ?_ ?_)
    · split
      · exact .pure hR _
      · exact .bind hR (.report hR _) fun _ => .pure hR _
    · exact .bind hR (.report hR _) fun _ => .pure hR _
  · exact .malformed hR t

theorem negation_steady (h : Fits R t) : Steady R (negation visit t) := by
  refine .bind hR (hvisit _ h.last) fun type => .inspect fun op _ => .ite ?_ (.ite ?_ ?_)
  · exact .bind hR (.require hR ..) fun _ => .pure hR _
  · exact .bind hR (.require hR ..) fun _ => .pure hR _
  · exact .bind hR (.report hR _) fun _ => .pure hR _

/-- What the first branch settled was waiting before it, waits again during the second branch, and not after it. -/
theorem branches_steady {a : Tree} {rest : Option Tree} (ha : Fits R a) (hrest : ∀ e ∈ rest, Fits R e) :
    Steady R (branches visit a rest) := by
  refine ⟨fun {c c' type} hrun => ?_⟩
  obtain ⟨_, _, hbefore, hrun⟩ := of_bind hrun
  cases hbefore
  obtain ⟨thenType, c₁, hthen, hrun⟩ := of_bind hrun
  obtain ⟨_, _, hafter, hrun⟩ := of_bind hrun
  cases hafter
  obtain ⟨_, c₂, hagain, hrun⟩ := of_bind hrun
  cases hagain
  have hsettled : ∀ n ∈ c.scopes.awaiting.filter fun n => !c₁.scopes.awaiting.contains n, n ∈ c.scopes.awaiting :=
    fun n hn => List.mem_of_mem_filter hn
  have hfirst := (hvisit a ha).leads hthen
  cases rest with
  | none =>
    cases hrun
    exact hR.branches hsettled hfirst (hR.refl _)
  | some e =>
    obtain ⟨elseType, c₃, helse, hrun⟩ := of_bind hrun
    obtain ⟨_, c₄, hrequire, hrun⟩ := of_bind hrun
    cases hrun
    have hsecond := hR.trans ((hvisit e (hrest e rfl)).leads helse) ((Steady.require hR ..).leads hrequire)
    exact hR.branches hsettled hfirst hsecond

theorem conditional_steady (h : Fits R t) : Steady R (conditional visit t) := by
  refine .inspect fun kept hkept => ?_
  have hfits := h.operands hkept
  split
  next condition a rest =>
    refine .bind hR (hvisit _ (hfits condition (by simp))) fun type => .bind hR (.require hR ..) fun _ => ?_
    refine branches_steady hR hvisit (hfits a (by simp)) fun e he => hfits e ?_
    exact List.mem_cons_of_mem _ (List.mem_cons_of_mem _ (List.mem_of_mem_head? he))
  · exact .malformed hR t

theorem loop_steady (h : Fits R t) : Steady R (loop visit t) := by
  refine .inspect fun kept hkept => ?_
  have hfits := h.operands hkept
  split
  next condition body =>
    refine .bind hR (hvisit _ (hfits condition (by simp))) fun type => .bind hR (.require hR ..) fun _ => ?_
    refine ⟨fun {c c' a} hrun => ?_⟩
    obtain ⟨_, c₁, hinside, hrun⟩ := of_bind hrun
    cases hinside
    obtain ⟨_, c₂, hbody, hrun⟩ := of_bind hrun
    cases hrun
    exact hR.loop ((hvisit _ (hfits body (by simp))).leads hbody)
  · exact .malformed hR t

theorem call_steady (h : Fits R t) : Steady R (call visit t) := by
  refine .inspect fun kept hkept => ?_
  have hfits := h.operands hkept
  split
  · exact .malformed hR t
  next callee arguments =>
    refine .bind hR (hvisit _ (hfits callee (by simp))) fun type => ?_
    refine .bind hR (all_steady hR hvisit fun e he => hfits e (List.mem_cons_of_mem _ he)) fun got => ?_
    split
    · exact .ite (.bind hR (.of_writes hR (.compareArguments ..)) fun _ => .pure hR _)
        (.bind hR (.report hR _) fun _ => .pure hR _)
    · exact .bind hR (.report hR _) fun _ => .pure hR _

theorem store_steady {target : Tree} (h : Fits R target) (value : Ty) (plain : Bool) :
    Steady R (store visit target value plain) := by
  refine .inspect fun form _ => ?_
  split
  case h_1 | h_2 =>
    refine .inspect fun name _ => .look fun c => ?_
    split
    · exact .report hR _
    · refine .look fun c => .ite ?_ (.bind hR (.require hR ..) fun _ => .require hR ..)
      exact .bind hR (.onScopes fun c => hR.settle c name) fun _ => .require hR ..
  · refine .bind hR (hvisit _ h.last) fun type => ?_
    split
    · exact .bind hR (.require hR ..) fun _ => .require hR ..
    · exact .report hR _
  · exact .report hR _

theorem assignment_steady (h : Fits R t) : Steady R (assignment visit t) := by
  refine .inspect fun kept hkept => ?_
  have hfits := h.operands hkept
  split
  next target value =>
    refine .bind hR (hvisit _ (hfits value (by simp))) fun type => ?_
    exact .bind hR (store_steady hR hvisit (hfits target (by simp)).unwrapped _ _) fun _ => .pure hR _
  · exact .malformed hR t

theorem compoundAssignment_steady (h : Fits R t) : Steady R (compoundAssignment visit t) := by
  refine .inspect fun kept hkept => .inspect fun op _ => ?_
  have hfits := h.operands hkept
  split
  next target value op _ =>
    have htarget := (hfits target (by simp)).unwrapped
    refine .bind hR (hvisit _ htarget) fun left => .bind hR (hvisit _ (hfits value (by simp))) fun right => ?_
    refine .bind hR (.of_writes hR (.binary ..)) fun type => ?_
    exact .bind hR (store_steady hR hvisit htarget _ _) fun _ => .pure hR _
  · exact .malformed hR t

theorem borrow_steady (h : Fits R t) : Steady R (borrow visit t) := by
  refine .ite (.inspect fun mutable _ => .bind hR (hvisit _ h.last) fun type => ?_) (.malformed hR t)
  refine .ite (.inspect fun form _ => .ite (.inspect fun name _ => .look fun c => ?_) (.pure hR _)) (.pure hR _)
  exact .bind hR (.require hR ..) fun _ => .pure hR _

theorem dereference_steady (h : Fits R t) : Steady R (dereference visit t) := by
  refine .bind hR (hvisit _ h.last) fun type => ?_
  split
  · exact .pure hR _
  · exact .bind hR (.report hR _) fun _ => .pure hR _

/-- Every rule leads to a related state if the checks of the nodes below do; that of a crate declares globals. -/
theorem rule_steady (h : Fits R t) {f : Form} (hf : f = .crate → Respected.Globals R) : Steady R (rule visit f t) := by
  cases f with
  | crate => exact crate_steady hR hvisit (hf rfl)
  | function => exact functionItem_steady hR hvisit h
  | block => exact block_steady hR hvisit h
  | letStatement => exact letStatement_steady hR hvisit h
  | expressionStatement => exact expressionStatement_steady hR hvisit h
  | literal => exact .of_writes hR (.literal t)
  | path | identifier => exact path_steady hR
  | returning => exact returning_steady hR hvisit h
  | arithmetic | lazyBoolean => exact operation_steady hR hvisit h
  | comparison => exact comparison_steady hR hvisit h
  | negation => exact negation_steady hR hvisit h
  | grouped => exact hvisit _ h.last
  | conditional => exact conditional_steady hR hvisit h
  | loop => exact loop_steady hR hvisit h
  | call => exact call_steady hR hvisit h
  | assignment => exact assignment_steady hR hvisit h
  | compoundAssignment => exact compoundAssignment_steady hR hvisit h
  | borrow => exact borrow_steady hR hvisit h
  | dereference => exact dereference_steady hR hvisit h
  | ascription | terminal | parameters | parameter => exact .pure hR _
  | other => exact inOrder_steady hR hvisit (fun e he => h.of_mem he) _

end Rules

/-- The check of a node leads to a related state, by induction on the depth. -/
theorem toDepth_steady (hR : Respected R) (depth : Nat) {t : Tree} (h : Fits R t) : Steady R (toDepth depth t) := by
  induction depth generalizing t with
  | zero => exact .pure hR _
  | succ depth ih =>
    cases t with
    | absent => exact .pure hR _
    | node tag children val type =>
      refine rule_steady hR (fun e he => ih he) h fun hform => h.resolve_left fun hcrateless => ?_
      rw [Tree.crateless, Tree.everyNode, Bool.and_eq_true] at hcrateless
      exact of_decide_eq_true hcrateless.1 hform

end Check

/-! ## Bindings in the order of their declaration -/

namespace Scopes

variable {s : Scopes}

/-- Every binding has a number below that of the next declaration, as in every state that a check comes to. -/
def Numbered (s : Scopes) : Prop := ∀ scope ∈ s.all, ∀ entry ∈ scope, entry.2.serial < s.declared

instance (s : Scopes) : Decidable s.Numbered := inferInstanceAs (Decidable (∀ scope ∈ s.all, ∀ entry ∈ scope, _))

theorem all_bind (s : Scopes) (name : Text) (b : Binding) :
    ∃ scope rest, s.all = scope :: rest ∧ (s.bind name b).all = ((name, b) :: scope) :: rest := by
  cases hinner : s.inner with
  | nil => exact ⟨s.global, [], by simp [all, hinner], by simp [all, bind, hinner]⟩
  | cons scope rest => exact ⟨scope, rest ++ [s.global], by simp [all, hinner], by simp [all, bind, hinner]⟩

theorem mem_all_exit {scope : Scope} (h : scope ∈ s.exit.all) : scope ∈ s.all :=
  List.mem_append.mpr ((List.mem_append.mp h).imp_left List.mem_of_mem_drop)

theorem Numbered.bind (h : s.Numbered) (name : Text) {b : Binding} (hb : b.serial = s.declared) :
    (s.bind name b).Numbered := by
  obtain ⟨scope, rest, hall, hbind⟩ := all_bind s name b
  intro scope' hscope' entry hentry
  rw [hbind] at hscope'
  rw [declared_bind]
  have hold : ∀ scope' ∈ scope :: rest, ∀ entry ∈ scope', entry.2.serial < s.declared + 1 :=
    fun scope' hscope' entry hentry => Nat.lt_succ_of_lt (h scope' (hall ▸ hscope') entry hentry)
  rcases List.mem_cons.mp hscope' with rfl | hrest
  · rcases List.mem_cons.mp hentry with rfl | hentry
    · exact Nat.lt_succ_of_le (Nat.le_of_eq hb)
    · exact hold scope (List.mem_cons_self ..) entry hentry
  · exact hold scope' (List.mem_cons_of_mem _ hrest) entry hentry

theorem Numbered.defineGlobal (h : s.Numbered) (name : Text) (type : Ty) : (s.defineGlobal name type).Numbered := by
  intro scope hscope entry hentry
  have hold : ∀ scope ∈ s.all, entry ∈ scope → entry.2.serial < s.declared + 1 :=
    fun scope hscope hentry => Nat.lt_succ_of_lt (h scope hscope entry hentry)
  rcases List.mem_append.mp hscope with hinner | hglobal
  · exact hold scope (List.mem_append_left _ hinner) hentry
  · rw [List.mem_singleton] at hglobal
    subst hglobal
    rcases List.mem_cons.mp hentry with rfl | hentry
    · exact Nat.lt_succ_self _
    · exact hold s.global (List.mem_append_right _ (List.mem_singleton_self _)) hentry

theorem Numbered.settle (h : s.Numbered) (name : Text) : (s.settle name).Numbered := by
  unfold Scopes.settle
  split <;> exact h

end Scopes

theorem Check.respected_numbered : Respected fun c c' => c.scopes.Numbered → c'.scopes.Numbered where
  refl _ h := h
  trans h h' hc := h' (h hc)
  complain _ _ h := h
  define _ name _ _ h := h.bind name rfl
  defer _ name _ _ _ h := h.bind name rfl
  settle _ name h := h.settle name
  scope h hc := by
    have hentered := h fun scope hscope entry hentry => by
      rcases List.mem_cons.mp hscope with rfl | hscope
      · cases hentry
      · exact hc scope hscope entry hentry
    exact fun scope hscope => hentered scope (Scopes.mem_all_exit hscope)
  function h := h
  loop h := h
  branches _ h h' hc := h' (h hc)

namespace Checker

/-- The bindings of the initial state are numbered. -/
theorem initial_numbered : initial.scopes.Numbered := by decide

/-- A check that ends with a type keeps the bindings numbered, also that of a crate. -/
theorem checkNode_numbered {c c' : Checker} {t : Tree} {type : Ty} (hc : c.scopes.Numbered)
    (h : c.checkNode t = (.ok type, c')) : c'.scopes.Numbered :=
  (Check.toDepth_steady Check.respected_numbered t.height
    (.inr fun _ name type hnumbered => hnumbered.defineGlobal name type)).leads h hc

end Checker

/-! ## Balance -/

/-- The scopes around the innermost one, the functions and the loops are what they were, and of the bindings that there
were none has lost its value. -/
structure Check.Balanced (c c' : Checker) : Prop where
  outer : c'.scopes.all.tail = c.scopes.all.tail
  functions : c'.functions = c.functions
  loops : c'.loops = c.loops
  declared : c.scopes.declared ≤ c'.scopes.declared
  awaiting : ∀ n < c.scopes.declared, n ∈ c'.scopes.awaiting → n ∈ c.scopes.awaiting

namespace Scopes

variable {s s' : Scopes}

theorem tail_all_bind (s : Scopes) (name : Text) (b : Binding) : (s.bind name b).all.tail = s.all.tail := by
  obtain ⟨scope, rest, hall, hbind⟩ := all_bind s name b
  rw [hall, hbind]
  rfl

theorem awaiting_bind (s : Scopes) (name : Text) (b : Binding) : (s.bind name b).awaiting = s.awaiting := by
  unfold bind
  split <;> rfl

theorem tail_all_settle (s : Scopes) (name : Text) : (s.settle name).all.tail = s.all.tail := by
  unfold settle
  split <;> rfl

theorem declared_settle (s : Scopes) (name : Text) : (s.settle name).declared = s.declared := by
  unfold settle
  split <;> rfl

theorem mem_awaiting_settle {name : Text} {n : Nat} (h : n ∈ (s.settle name).awaiting) : n ∈ s.awaiting := by
  unfold settle at h
  split at h
  · exact List.mem_of_mem_filter h
  · exact h

/-- Closing a scope leaves the scopes around it. -/
theorem all_exit (h : s.all.tail ≠ []) : s.exit.all = s.all.tail := by
  cases hinner : s.inner with
  | nil => simp [all, hinner] at h
  | cons scope rest => simp [all, exit, hinner]

theorem depth_eq (s : Scopes) : s.depth = s.all.tail.length + 1 := by
  cases hinner : s.inner with
  | nil => simp [all, depth, hinner]
  | cons scope rest => simp [all, depth, hinner]

end Scopes

theorem Check.respected_balanced : Respected Balanced where
  refl _ := ⟨rfl, rfl, rfl, Nat.le_refl _, fun _ _ h => h⟩
  trans h h' :=
    { outer := h'.outer.trans h.outer
      functions := h'.functions.trans h.functions
      loops := h'.loops.trans h.loops
      declared := Nat.le_trans h.declared h'.declared
      awaiting := fun n hn hmem => h.awaiting n hn (h'.awaiting n (Nat.lt_of_lt_of_le hn h.declared) hmem) }
  complain _ _ := ⟨rfl, rfl, rfl, Nat.le_refl _, fun _ _ h => h⟩
  define c name type mutable :=
    { outer := c.scopes.tail_all_bind ..
      functions := rfl
      loops := rfl
      declared := (c.scopes.declared_bind ..).symm ▸ Nat.le_succ _
      awaiting := fun n _ hmem => c.scopes.awaiting_bind .. ▸ hmem }
  defer c name type mutable loops :=
    { outer := c.scopes.tail_all_bind ..
      functions := rfl
      loops := rfl
      declared := (c.scopes.declared_bind ..).symm ▸ Nat.le_succ _
      awaiting := fun n hn hmem => (List.mem_cons.mp hmem).resolve_left (Nat.ne_of_lt hn) }
  settle c name :=
    { outer := c.scopes.tail_all_settle name
      functions := rfl
      loops := rfl
      declared := Nat.le_of_eq (c.scopes.declared_settle name).symm
      awaiting := fun _ _ => Scopes.mem_awaiting_settle }
  scope {c c'} h := by
    have houter : c'.scopes.all.tail = c.scopes.all := h.outer
    have hexit : c'.scopes.exit.all = c.scopes.all := by
      rw [Scopes.all_exit (by rw [houter]; simp [Scopes.all]), houter]
    exact { h with outer := congrArg List.tail hexit }
  function {c c' f} h := by
    have hfunctions : c'.functions = f :: c.functions := h.functions
    exact { h with functions := congrArg (List.drop 1) hfunctions }
  loop {c c'} h := by
    have hloops : c'.loops = c.loops + 1 := h.loops
    exact { h with loops := by simp [hloops] }
  branches {c c₁ c' settled} hsettled h h' :=
    { outer := h'.outer.trans h.outer
      functions := h'.functions.trans h.functions
      loops := h'.loops.trans h.loops
      declared := Nat.le_trans h.declared h'.declared
      awaiting := fun n hn hmem => by
        have hafter := h'.awaiting n (Nat.lt_of_lt_of_le hn h.declared) (List.mem_of_mem_filter hmem)
        exact (List.mem_append.mp hafter).elim (hsettled n) (h.awaiting n hn) }

/-- The check of a node without absent nodes and without crates ends with a type and leaves the state balanced: as many
scopes, the same functions and loops around it, no complaint lost, and in the scopes around the innermost one the same
bindings, none of which awaits a value that did not before. -/
theorem Checker.checkNode_balanced (c : Checker) (hc : c.scopes.Numbered) {t : Tree} (ht : t.Complete)
    (hcrateless : t.crateless = true) : ∃ type c', c.checkNode t = (.ok type, c') ∧
      c'.scopes.depth = c.scopes.depth ∧ c'.functions = c.functions ∧ c'.loops = c.loops ∧ c.errors <+: c'.errors ∧
      c'.scopes.all.tail = c.scopes.all.tail ∧
      ∀ scope ∈ c.scopes.all.tail, ∀ entry ∈ scope,
        c'.scopes.awaits entry.2 = true → c.scopes.awaits entry.2 = true := by
  obtain ⟨type, htype⟩ := c.checkNode_total ht
  obtain ⟨c', hrun⟩ : ∃ c', c.checkNode t = (.ok type, c') := ⟨_, Prod.ext htype rfl⟩
  have hbalanced : Check.Balanced c c' :=
    (Check.toDepth_steady Check.respected_balanced t.height (.inl hcrateless)).leads hrun
  refine ⟨type, c', hrun, ?_, hbalanced.functions, hbalanced.loops, ?_, hbalanced.outer, ?_⟩
  · rw [Scopes.depth_eq, Scopes.depth_eq, hbalanced.outer]
  · have hprefix := (Check.appends_toDepth t.height t).errors c
    rwa [show Check.toDepth t.height t c = (.ok type, c') from hrun] at hprefix
  · intro scope hscope entry hentry h
    rw [Scopes.awaits, List.contains_iff_mem] at h ⊢
    exact hbalanced.awaiting _ (hc scope (List.mem_of_mem_tail hscope) entry hentry) h

/-- A state inside a block of a function, around which a variable awaits its value. -/
def Checker.expecting : Checker :=
  { Checker.initial with
    scopes := (Checker.initial.scopes.enter.defineDeferred "x" .i32 false 0).enter
    functions := [⟨"f", .i32⟩] }

/-- A block with an item, a conditional that gives the variable its value in both branches, and a loop without body. -/
def Tree.supplying : Tree :=
  block [
    function "g" [] "i32" (block [int 1]),
    statement (conditional (bool true) (block [statement (assignment (path "x") (int 1))])
      (block [statement (assignment (path "x") (call (path "g") []))])),
    statement (loop (bool false) (block [letStatement "y" true "i32" .absent])),
    path "x"]

/-- The check of the block leaves that state balanced. -/
theorem Checker.checkNode_balanced_supplying : Checker.expecting.scopes.Numbered ∧ Tree.supplying.Complete ∧
    Tree.supplying.crateless = true ∧ ∃ type c', Checker.expecting.checkNode .supplying = (.ok type, c') ∧
      c'.scopes.depth = Checker.expecting.scopes.depth ∧ c'.functions = Checker.expecting.functions ∧
      c'.loops = Checker.expecting.loops ∧ Checker.expecting.errors <+: c'.errors ∧
      c'.scopes.all.tail = Checker.expecting.scopes.all.tail ∧
      ∀ scope ∈ Checker.expecting.scopes.all.tail, ∀ entry ∈ scope,
        c'.scopes.awaits entry.2 = true → Checker.expecting.scopes.awaits entry.2 = true := by
  have hwritten : Text.isEmpty "i32" = false := rfl
  have hnumbered : Checker.expecting.scopes.Numbered := by decide
  have hcomplete : Tree.supplying.Complete := by
    simp [hwritten, Tree.supplying, Tree.block, Tree.function, Tree.statement, Tree.conditional, Tree.loop,
      Tree.assignment, Tree.letStatement, Tree.call, Tree.path, Tree.int, Tree.bool, Tree.literal, Tree.ident,
      Tree.ascription, Tree.mutable, Tree.withText, Tree.ofForm, Tree.isPresent, Tree.Complete, Tree.AllComplete]
  have hcrateless : Tree.supplying.crateless = true := by decide
  exact ⟨hnumbered, hcomplete, hcrateless, Checker.checkNode_balanced _ hnumbered hcomplete hcrateless⟩

end Tenure
