import Tenure.Proofs.Compile.Resolution
import Tenure.Proofs.Typing.Programs

/-!
# Names that the checker knows

The checker keeps scopes of names and code generation an environment of slots. Where code is generated for a tree in which
the checker finds nothing, and every name that the checker knows stands for a visible slot (`Surrounds`), no name of the
tree is unknown to code generation (`Knows`). There is one lemma for each form, over the trees below.
-/

set_option autoImplicit false

namespace Tenure

open Check (Clean Appends Same)

namespace Compile

variable {α β : Type}

/-! ## Steps that find their names -/

/-- A step of code generation does not stop at an unknown name. -/
def Finds (x : Compile α) (s : CompileState) : Prop := ∀ name, x s ≠ .error (.failed (.unknownVariable name))

namespace Finds

variable {x : Compile α} {f : α → Compile β} {s : CompileState}

theorem bind (hx : Finds x s) (hf : ∀ a s₁, x s = .ok (a, s₁) → Finds (f a) s₁) : Finds (x >>= f) s := by
  intro name h
  change (x s >>= fun p => f p.1 p.2) = _ at h
  cases hxs : x s with
  | error e =>
    rw [hxs] at h
    cases h
    exact hx name hxs
  | ok p =>
    rw [hxs] at h
    exact hf p.1 p.2 hxs name h

theorem pure (a : α) : Finds (Pure.pure a : Compile α) s := fun _ h => by cases h

/-- A value is given to a step. -/
theorem given {a : α} (hf : Finds (f a) s) : Finds (Pure.pure a >>= f) s := hf

theorem fail {e : CompileError} (h : ∀ name, e ≠ .unknownVariable name) : Finds (Compile.fail e : Compile α) s := by
  intro name hfail
  cases hfail
  exact h name rfl

theorem unsupported (what : Unsupported) : Finds (Compile.unsupported what : Compile α) s := fail (by simp)

/-- A tree is inspected before a step. -/
theorem inspect {i : Inspect α} (hf : ∀ a, i = .ok a → Finds (f a) s) : Finds ((liftM i : Compile α) >>= f) s := by
  cases i with
  | error e =>
    cases e
    exact fun _ h => by cases h
  | ok a => exact hf a rfl

/-- The state is looked at before a step. -/
theorem look {f : CompileState → Compile β} (hf : Finds (f s) s) : Finds (MonadState.get >>= f) s := hf

theorem modify {g : CompileState → CompileState} {f : PUnit → Compile β} (hf : Finds (f ⟨⟩) (g s)) :
    Finds ((MonadState.modifyGet fun s => (PUnit.unit, g s)) >>= f) s := hf

theorem onEnv {g : Environment → Environment} {f : Unit → Compile β} (hf : Finds (f ()) { s with env := g s.env }) :
    Finds (Compile.onEnv g >>= f) s := hf

theorem setLent {id : Option Nat} {f : Unit → Compile β} (hf : Finds (f ()) { s with lent := id }) :
    Finds (Compile.setLent id >>= f) s := hf

theorem setDiverged {b : Bool} {f : Unit → Compile β} (hf : Finds (f ()) { s with diverged := b }) :
    Finds (Compile.setDiverged b >>= f) s := hf

theorem emit {code : Program} : Finds (Compile.emit code) s := fun _ h => by cases h

/-- Code is emitted before a step. -/
theorem emitting {code : Program} {f : Emissions → Compile β} (hf : Finds (f (code.map fun i => ⟨i, s.env⟩)) s) :
    Finds (Compile.emit code >>= f) s := hf

/-- Emitting code ends a rule. -/
theorem emitted {code : Program} {g : Emissions → β} : Finds (Compile.emit code >>= fun c => Pure.pure (g c)) s :=
  emitting (pure _)

theorem ite {p : Prop} [Decidable p] {x y : Compile α} (hx : Finds x s) (hy : Finds y s) :
    Finds (if p then x else y) s := by
  split
  · exact hx
  · exact hy

theorem resolve {name : Text} (h : (s.env.places.find? name).isSome = true) : Finds (Compile.resolve name) s := by
  have hsearch := Environment.map_fst_search? name s.env.frames 0
  refine look ?_
  cases hfind : s.env.find? name with
  | some found => exact pure _
  | none =>
    obtain ⟨place, hplace⟩ := Option.isSome_iff_exists.mp h
    rw [show Environment.search? name s.env.frames 0 = none from hfind, ← Environment.places, hplace] at hsearch
    cases hsearch

/-- A refusal goes before a step. -/
theorem refusing {p : Prop} [Decidable p] {y : Compile β} {e : CompileError} (he : ∀ name, e ≠ .unknownVariable name)
    (hy : Finds y s) : Finds (if p then (Compile.fail e : Compile PUnit) >>= fun _ => y else y) s :=
  ite (bind (fail he) fun _ _ h => absurd h fail_ok) hy

theorem extend (names : List Text) (owner : FrameOwner) : Finds (Compile.extend names owner) s :=
  ite (unsupported _) (look (ite (unsupported _) fun _ h => by cases h))

end Finds

end Compile

/-! ## Surroundings -/

/-- Code is generated inside a function, and every name that the checker knows stands for a slot. -/
structure Surrounds (c : Checker) (s : CompileState) : Prop where
  inside : c.functions ≠ []
  distinct : s.env.Distinct
  known : ∀ {name τ}, c.scopes.lookup? name = some τ → (s.env.places.find? name).isSome = true

namespace Surrounds

variable {c c' : Checker} {s s' : CompileState}

theorem same (h : Surrounds c s) (hsame : Same c c') : Surrounds c' s where
  inside := hsame.functions ▸ h.inside
  distinct := h.distinct
  known hname := h.known ((hsame.lookup? _).symm.trans hname)

theorem before (h : Surrounds c' s) (hsame : Same c c') : Surrounds c s where
  inside := hsame.functions ▸ h.inside
  distinct := h.distinct
  known hname := h.known ((hsame.lookup? _).trans hname)

/-- What changes neither numbers nor names nor visibility of bindings leaves the surroundings. -/
theorem keeps (h : Surrounds c s) (hkeeps : s.env.Keeps s'.env) (hplaces : s'.env.places = s.env.places) :
    Surrounds c s' where
  inside := h.inside
  distinct := hkeeps.distinct h.distinct
  known hname := hplaces.symm ▸ h.known hname

end Surrounds

/-- Checking a tree and finding nothing leaves the scopes as they were, and code generation knows all names of the tree
and has the same names around it afterwards. -/
structure Knows (check : Tree → Check Ty) (visit : Compile.Visit) (t : Tree) : Prop where
  same : ∀ {c c' : Checker} {τ : Ty}, Clean (check t) c τ c' → Same c c'
  finds : ∀ {c c' : Checker} {τ : Ty} {s : CompileState} (start : Nat) (use : Use), Clean (check t) c τ c' →
    Surrounds c s → Compile.Finds (visit start t use) s
  next : ∀ {c c' : Checker} {τ : Ty} {s s' : CompileState} {start : Nat} {use : Use} {code : Emissions},
    Clean (check t) c τ c' → Surrounds c s → visit start t use s = .ok (code, s') → Surrounds c' s'

namespace Compile

/-! ## Expressions -/

section Expressions

variable {check : Tree → Check Ty} [∀ t, Appends (check t)] {visit : Visit} {c c' : Checker} {τ : Ty} {t a b : Tree}
  {s : CompileState}

theorem literal_finds (t : Tree) : Finds (literal t) s := by
  refine .inspect fun source _ => ?_
  split
  · exact .emit
  · exact .fail (by simp)

/-- A variable that the checker knows. -/
theorem path_finds {name : Text} (hname : c.scopes.lookup? name = some τ) (use : Use) (hs : Surrounds c s) :
    Finds (path name use) s := by
  refine .bind (.resolve (hs.known hname)) fun found s₁ _ => ?_
  dsimp only
  split
  · split
    · exact .onEnv (.setLent .emit)
    · exact .setLent .emit
  · exact .fail (by simp)

/-- Using a variable leaves the surroundings. -/
theorem path_surrounds {name : Text} {use : Use} {s' : CompileState} {code : Emissions} (hs : Surrounds c s)
    (h : path name use s = .ok (code, s')) : Surrounds c s' := by
  obtain ⟨hkeeps, x, hx, -⟩ : Resolves (Resolve.path name) 0 s code s' := path_resolves h
  simp only [Resolve.path, Resolve.bind_some, Resolve.position_some, Resolve.pure_some] at hx
  obtain ⟨_, _, ⟨-, hplaces⟩, -, hplaces'⟩ := hx
  exact hs.keeps hkeeps (hplaces'.symm.trans hplaces)

omit [∀ t, Appends (check t)] in
theorem binary_finds (ha : Knows check visit a) (hb : Knows check visit b) (hoperands : t.operands = .ok [a, b])
    (hcheck : ∃ left right op c₁, Clean (check a) c left c₁ ∧ Clean (check b) c₁ right c' ∧ t.operator = .ok op ∧
      BinaryTyped op left right τ) :
    Same c c' ∧ ∀ start s, Surrounds c s → Finds (binary visit start t) s := by
  obtain ⟨left, right, op, c₁, hleft, hright, -⟩ := hcheck
  refine ⟨(ha.same hleft).trans (hb.same hright), fun start s hs => .inspect fun _ hoperands' => ?_⟩
  cases hoperands.symm.trans hoperands'
  refine .bind (ha.finds _ _ hleft hs) fun _ s₁ hone => .bind (hb.finds _ _ hright (ha.next hleft hs hone)) fun _ _ _ => ?_
  exact .inspect fun _ _ => .emitted

theorem unary_finds (ha : Knows check visit a) (hchildren : t.children = [a]) (hoperands : t.operands = .ok [a])
    (hcheck : Clean (Check.negation check t) c τ c') :
    Same c c' ∧ ∀ start s, Surrounds c s → Finds (unary visit start t) s := by
  obtain ⟨hlast, -⟩ := Check.negation_ok hcheck
  rw [Tree.last_of_children hchildren] at hlast
  refine ⟨ha.same hlast, fun start s hs => .inspect fun _ hoperands' => ?_⟩
  cases hoperands.symm.trans hoperands'
  exact .bind (ha.finds _ _ hlast hs) fun _ _ _ => .inspect fun _ _ => .emitted

theorem conditional_finds {condition : Tree} (hcondition : Knows check visit condition) (ha : Knows check visit a)
    (hb : Knows check visit b) (hoperands : t.operands = .ok [condition, a, b])
    (hcheck : Clean (Check.conditional check t) c τ c') :
    Same c c' ∧ ∀ start s, Surrounds c s → Finds (conditional visit start t) s := by
  obtain ⟨c₁, c₂, c₃, c₄, htest, hthen, hsame, helse, hsame'⟩ := Check.conditional_ok hoperands hcheck
  refine ⟨((((hcondition.same htest).trans (ha.same hthen)).trans hsame).trans (hb.same helse)).trans hsame',
    fun start s hs => .inspect fun _ hoperands' => ?_⟩
  cases hoperands.symm.trans hoperands'
  refine .bind (hcondition.finds _ _ htest hs) fun test s₁ hone => .look (.setDiverged ?_)
  have hs₁ : Surrounds c₁ { s₁ with diverged := false } := (hcondition.next htest hs hone).keeps (.refl _) rfl
  refine .bind (ha.finds _ _ hthen hs₁) fun _ s₂ htwo => .look ?_
  have hs₂ := (ha.next hthen hs₁ htwo).same hsame
  obtain ⟨hkeeps, hplaces⟩ := restored_keeps s₂.env s₁.env
  refine .modify (.bind (hb.finds _ _ helse (hs₂.keeps hkeeps hplaces)) fun _ _ _ => .look (.modify ?_))
  exact .emitting (.emitted)

theorem loop_finds {condition : Tree} (hcondition : Knows check visit condition) (ha : Knows check visit a)
    (hoperands : t.operands = .ok [condition, a]) (hcheck : Clean (Check.loop check t) c τ c') :
    Same c c' ∧ ∀ start s, Surrounds c s → Finds (loop visit start t) s := by
  obtain ⟨-, υ, c₁, c₂, c₃, htest, hsame, hbody, hsame'⟩ := Check.loop_ok hoperands hcheck
  refine ⟨(((hcondition.same htest).trans hsame).trans (ha.same hbody)).trans hsame',
    fun start s hs => .inspect fun _ hoperands' => ?_⟩
  cases hoperands.symm.trans hoperands'
  have hs₀ : Surrounds c { s with diverged := false } := hs.keeps (.refl _) rfl
  refine .look (.setDiverged (.bind (hcondition.finds _ _ htest hs₀) fun test s₁ hone => ?_))
  have hs₁ := (hcondition.next htest hs₀ hone).same hsame
  refine .bind (ha.finds _ _ hbody hs₁) fun code s₂ _ => .onEnv (.look ?_)
  have hend : ∀ {u : CompileState} {exit : Nat}, Finds (do
      setDiverged s.diverged
      return test ++ (← emit [.jumpUnless (exit : Nat)]) ++ code ++
        (← emit [.plain .pop, .jump (start : Nat), pushUnit]) : Compile Emissions) u :=
    .setDiverged (.emitting .emitted)
  split
  · split
    · exact .bind (.fail (by simp)) fun _ _ _ => hend
    · exact hend
  · exact hend

theorem arguments_finds {ts : List Tree} (hts : ∀ e ∈ ts, Knows check visit e) {τs : List Ty}
    (hcheck : Clean (Check.all check ts) c τs c') :
    Same c c' ∧ ∀ start s, Surrounds c s → Finds (arguments visit start ts) s := by
  induction ts generalizing c τs with
  | nil =>
    obtain ⟨-, rfl⟩ := Check.clean_pure.mp hcheck
    exact ⟨.refl _, fun _ _ _ => .pure _⟩
  | cons e rest ih =>
    simp only [Check.all, Check.clean_bind, Check.clean_pure] at hcheck
    obtain ⟨υ, c₁, he, υs, _, hrest, -, rfl⟩ := hcheck
    have hknows := hts e (List.mem_cons_self ..)
    obtain ⟨hsame, hfinds⟩ := ih (fun e he => hts e (List.mem_cons_of_mem _ he)) hrest
    refine ⟨(hknows.same he).trans hsame, fun start s hs => ?_⟩
    refine .bind (hknows.finds _ _ he hs) fun _ s₁ hone => ?_
    exact .bind (hfinds _ _ (hknows.next he hs hone)) fun _ _ _ => .pure _

theorem call_finds {callee : Tree} {arguments : List Tree} (hcallee : Knows check visit callee)
    (harguments : ∀ e ∈ arguments, Knows check visit e) (hoperands : t.operands = .ok (callee :: arguments))
    (hcheck : Clean (Check.call check t) c τ c') :
    Same c c' ∧ ∀ start s, Surrounds c s → Finds (call visit start t) s := by
  obtain ⟨parameters, c₁, hfunction, hall⟩ := Check.call_ok hoperands hcheck
  obtain ⟨hsame, hfinds⟩ := arguments_finds harguments hall
  refine ⟨(hcallee.same hfunction).trans hsame, fun start s hs => .inspect fun _ hoperands' => ?_⟩
  cases hoperands.symm.trans hoperands'
  refine .bind (hcallee.finds _ _ hfunction hs) fun _ s₁ hone => ?_
  exact .bind (hfinds _ _ (hcallee.next hfunction hs hone)) fun _ _ _ => .emitted

theorem returning_finds (hlast : t.last.isPresent = true → Knows check visit t.last)
    (habsent : ∀ c τ c', t.last.isPresent = false → Clean (check t.last) c τ c' → τ = .unit ∧ c' = c)
    (hcheck : Clean (Check.returning check t) c τ c') :
    Same c c' ∧ ∀ start s, Surrounds c s → Finds (returning visit start t) s := by
  obtain ⟨hvalue, -⟩ := Check.returning_ok hcheck
  cases hpresent : t.last.isPresent with
  | true =>
    refine ⟨(hlast hpresent).same hvalue, fun start s hs => ?_⟩
    simp only [returning, hpresent, if_true]
    exact .bind ((hlast hpresent).finds _ _ hvalue hs) fun _ _ _ => .setDiverged .emitted
  | false =>
    obtain ⟨-, rfl⟩ := habsent _ _ _ hpresent hvalue
    refine ⟨.refl _, fun start s _ => ?_⟩
    simp only [returning, hpresent, Bool.false_eq_true, if_false]
    exact .emitting (.setDiverged .emitted)

theorem dereference_finds (ha : Knows check visit t.last) (hcheck : Clean (Check.dereference check t) c τ c') :
    Same c c' ∧ ∀ start s, Surrounds c s → Finds (dereference visit start t) s := by
  obtain ⟨mutable, hlast⟩ := Check.dereference_ok hcheck
  refine ⟨ha.same hlast, fun start s hs => .ite ?_ (.unsupported _)⟩
  exact .bind (ha.finds _ _ hlast hs) fun _ _ _ => .emitted

/-- A borrow of a variable, in parentheses or not: the check has looked at all of the operand. -/
theorem borrow_finds (ha : Knows check visit t.last) (hvariable : FindsVariable check t.last t.last.unwrapped)
    (hpresent : t.last.unwrapped.isPresent = true) (hcheck : Clean (Check.borrow check t) c τ c') :
    Same c c' ∧ ∀ s, Surrounds c s → Finds (borrow t) s := by
  obtain ⟨υ, mutable, hlast, -, -⟩ := Check.borrow_ok hcheck
  have hgranted {u : CompileState} (grant : Environment → Environment) (id : Nat) (code : Program) :
      Finds (onEnv grant >>= fun _ => setLent (some id) >>= fun _ => emit code) u := .onEnv (.setLent .emit)
  refine ⟨ha.same hlast, fun s hs => ?_⟩
  unfold borrow
  dsimp only
  generalize t.last.unwrapped = target at hvariable hpresent
  cases target with
  | absent => cases hpresent
  | node tag children val type =>
    rw [Tree.tag]
    cases htag : Form.ofTag tag
    case path | identifier =>
      obtain ⟨rfl, name, hname, hlookup⟩ := hvariable (by simp [Tree.form, htag]) hlast
      refine .inspect fun _ hname' => ?_
      cases hname.symm.trans hname'
      refine .bind (.resolve (hs.known hlookup)) fun found _ _ => .refusing (by simp) (.inspect fun _ _ => ?_)
      exact .ite (.refusing (by simp) (hgranted _ _ _)) (.refusing (by simp) (hgranted _ _ _))
    all_goals exact .unsupported _

/-- The target of an assignment is resolved before the value, and checked after it. -/
theorem assignment_finds {target value : Tree}
    (htarget : target.unwrapped.form = .ok .dereference → Knows check visit target.unwrapped.last)
    (hvalue : Knows check visit value) (hoperands : t.operands = .ok [target, value])
    (hcheck : Clean (Check.assignment check t) c τ c') :
    Same c c' ∧ ∀ start s, Surrounds c s → Finds (assignment visit start t) s := by
  obtain ⟨rfl, type, c₁, hval, hstore⟩ := Check.assignment_ok hoperands hcheck
  have hsame := hvalue.same hval
  rcases Check.store_ok hstore with ⟨hvariable, hsame', name, hname, hlookup⟩ | ⟨hdereference, hlast⟩
  · refine ⟨hsame.trans hsame', fun start s hs => .inspect fun _ hoperands' => ?_⟩
    cases hoperands.symm.trans hoperands'
    refine .inspect fun form hform => ?_
    rw [hsame.lookup?] at hlookup
    rcases hvariable with hform' | hform' <;> cases hform.symm.trans hform'
    all_goals
      refine .inspect fun _ hname' => ?_
      cases hname.symm.trans hname'
      refine .bind (.resolve (hs.known hlookup)) fun found _ hfound => ?_
      obtain ⟨-, rfl⟩ := resolve_ok.mp hfound
      exact .bind (hvalue.finds _ _ hval hs) fun _ _ _ => .look (.onEnv .emitted)
  · have hreference := htarget hdereference
    refine ⟨hsame.trans (hreference.same hlast), fun start s hs => .inspect fun _ hoperands' => ?_⟩
    cases hoperands.symm.trans hoperands'
    refine .inspect fun form hform => ?_
    cases hform.symm.trans hdereference
    -- code is generated for the reference first, but it has been checked after the value
    refine .bind (hreference.finds _ _ hlast (hs.same hsame)) fun _ s₁ hone => ?_
    have hs₁ := ((hreference.next hlast (hs.same hsame) hone).before (hreference.same hlast)).before hsame
    exact .bind (hvalue.finds _ _ hval hs₁) fun _ _ _ => .emitted

theorem compoundAssignment_finds {target value : Tree}
    (htarget : target.unwrapped.form = .ok .dereference → Knows check visit target.unwrapped.last)
    (hold : ∀ {c c' τ}, Clean (check target.unwrapped) c τ c' → Same c c')
    (hvalue : Knows check visit value) (hoperands : t.operands = .ok [target, value])
    (hcheck : Clean (Check.compoundAssignment check t) c τ c') :
    Same c c' ∧ ∀ start s, Surrounds c s → Finds (compoundAssignment visit start t) s := by
  obtain ⟨rfl, written, op, left, right, result, c₁, c₂, hwritten, -, hleft, hright, -, hstore⟩ :=
    Check.compoundAssignment_ok hoperands hcheck
  have hsame := (hold hleft).trans (hvalue.same hright)
  rcases Check.store_ok hstore with ⟨hvariable, hsame', name, hname, hlookup⟩ | ⟨hdereference, hlast⟩
  · refine ⟨hsame.trans hsame', fun start s hs => .inspect fun _ _ => .inspect fun _ hoperands' => ?_⟩
    cases hoperands.symm.trans hoperands'
    rw [hsame.lookup?] at hlookup
    refine .refusing (by simp) (.inspect fun form hform => ?_)
    rcases hvariable with hform' | hform' <;> cases hform.symm.trans hform'
    all_goals
      refine .inspect fun _ hname' => ?_
      cases hname.symm.trans hname'
      refine .bind (.resolve (hs.known hlookup)) fun found s₀ hfound => ?_
      obtain ⟨-, rfl⟩ := resolve_ok.mp hfound
      refine .bind (path_finds hlookup _ hs) fun code s₁ hpath => ?_
      exact .bind (hvalue.finds _ _ hright ((path_surrounds hs hpath).same (hold hleft))) fun _ _ _ => .emitted
  · have hreference := htarget hdereference
    refine ⟨hsame.trans (hreference.same hlast), fun start s hs => .inspect fun _ _ => .inspect fun _ hoperands' => ?_⟩
    cases hoperands.symm.trans hoperands'
    refine .refusing (by simp) (.inspect fun form hform => ?_)
    cases hform.symm.trans hdereference
    have hs₂ := hs.same hsame
    refine .bind (hreference.finds _ _ hlast hs₂) fun _ s₁ hone => ?_
    have hs₁ := (hreference.next hlast hs₂ hone).before (hreference.same hlast)
    refine .bind (hreference.finds _ _ hlast hs₁) fun _ s₂ htwo => ?_
    have hagain := ((hreference.next hlast hs₁ htwo).before (hreference.same hlast)).before (hvalue.same hright)
    exact .bind (hvalue.finds _ _ hright hagain) fun _ _ _ => .emitting .emitted

omit [∀ t, Appends (check t)] in
theorem group_finds (ha : Knows check visit a) (hchildren : t.children = [a]) {use : Use} (hcheck : Clean (check a) c τ c') :
    ∀ start s, Surrounds c s → Finds (group visit start t use) s := by
  intro start s hs
  rw [group, hchildren, Tree.last_of_children hchildren]
  exact ha.finds _ _ hcheck hs

omit [∀ t, Appends (check t)] in
theorem wrapper_finds (ha : Knows check visit a) (hchildren : t.children = [a]) {use : Use}
    (hcheck : Clean (check a) c τ c') : ∀ start s, Surrounds c s → Finds (wrapper visit start t use) s := by
  intro start s hs
  rw [wrapper, hchildren]
  exact ha.finds _ _ hcheck hs

end Expressions

end Compile

end Tenure
