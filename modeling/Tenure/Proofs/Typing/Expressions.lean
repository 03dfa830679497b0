import Tenure.Proofs.Compile.Steps
import Tenure.Proofs.Typing.Names
import Tenure.Proofs.Typing.Normal

/-!
# Types of expressions

Where the checker finds nothing in an expression, the term that name resolution makes of it has the type that the checker
gives to the expression: `Corresponds`, with one lemma for each form. Checking an expression leaves the names that are
known as they were; the statements of a block declare theirs one after the other, each in the next slot of its frame.
-/

set_option autoImplicit false

namespace Tenure

open Check (Clean Appends Same)

theorem Resolve.lift_bind_some {α β : Type} {x : Inspect α} {f : α → Resolve β} {p p' : Places} {b : β} :
    (liftM x >>= f) p = some (b, p') ↔ ∃ a, x = .ok a ∧ f a p = some (b, p') := by
  cases x with
  | error e =>
    refine ⟨fun h => ?_, fun ⟨_, h, _⟩ => by cases h⟩
    cases h
  | ok a => exact ⟨fun h => ⟨a, rfl, h⟩, fun ⟨_, h, h'⟩ => by cases h; exact h'⟩

theorem Resolve.lift_some {α : Type} {x : Inspect α} {p p' : Places} {a : α} :
    (liftM x : Resolve α) p = some (a, p') ↔ x = .ok a ∧ p' = p := by
  cases x with
  | error e =>
    refine ⟨fun h => ?_, fun ⟨h, _⟩ => by cases h⟩
    cases h
  | ok b =>
    refine ⟨fun h => ?_, ?_⟩
    · cases h
      exact ⟨rfl, rfl⟩
    · rintro ⟨h, rfl⟩
      cases h
      rfl

theorem Resolve.position_some {name : Text} {p p' : Places} {place : Nat × Nat} :
    Resolve.position name p = some (place, p') ↔ p.find? name = some place ∧ p' = p := by
  rw [Resolve.position, Resolve.bind_apply, Resolve.get_apply, Option.bind_some]
  cases h : p.find? name with
  | none =>
    refine ⟨fun h' => ?_, fun ⟨h', _⟩ => by cases h'⟩
    cases h'
  | some place' =>
    simp only [Resolve.pure_some, Option.some.injEq]
    exact and_congr_right fun _ => eq_comm

/-- The type of what a function has to return; the function at which a program starts may return anything. -/
def Enclosing.returns (f : Enclosing) : Option Ty := if f.name = "main" then none else some f.result

/-- A term has the types that a check has found in a function, wherever the places agree with the scopes of the check. The
check has left the scopes as they were. -/
structure Elaborates (f : Enclosing) (c c' : Checker) (p : Places) {n : Nat} (x : Term n) (τs : List Ty) : Prop where
  same : Same c c'
  typed : ∀ Γ, Agrees c.scopes p Γ → x.Typed f.returns Γ τs

/-- Checking and resolving a tree correspond. -/
def Corresponds (check : Tree → Check Ty) (resolve : Resolve.Visit) (t : Tree) : Prop :=
  ∀ ⦃c c' : Checker⦄ ⦃p p' : Places⦄ ⦃x : Term 1⦄ ⦃τ : Ty⦄ ⦃f : Enclosing⦄ ⦃fs : List Enclosing⦄,
    c.functions = f :: fs → Clean (check t) c τ c' → resolve t p = some (x, p') → p' = p ∧ Elaborates f c c' p x [τ]

namespace Elaborates

variable {f : Enclosing} {c c₁ c₂ : Checker} {p : Places} {n m k : Nat} {x : Term n} {y : Term m} {z : Term k}
  {τs υs ρs : List Ty}

theorem map (hx : Elaborates f c c₁ p x τs) (h : ∀ Γ, x.Typed f.returns Γ τs → y.Typed f.returns Γ υs) :
    Elaborates f c c₁ p y υs :=
  ⟨hx.same, fun Γ hΓ => h Γ (hx.typed Γ hΓ)⟩

theorem agrees {Γ : Context} (hx : Elaborates f c c₁ p x τs) (hΓ : Agrees c.scopes p Γ) : Agrees c₁.scopes p Γ :=
  hΓ.congr hx.same.lookup?

theorem map₂ (hx : Elaborates f c c₁ p x τs) (hy : Elaborates f c₁ c₂ p y υs)
    (h : ∀ Γ, x.Typed f.returns Γ τs → y.Typed f.returns Γ υs → z.Typed f.returns Γ ρs) : Elaborates f c c₂ p z ρs :=
  ⟨hx.same.trans hy.same, fun Γ hΓ => h Γ (hx.typed Γ hΓ) (hy.typed Γ (hx.agrees hΓ))⟩

theorem after (h : Same c c₁) (hx : Elaborates f c₁ c₂ p x τs) : Elaborates f c c₂ p x τs :=
  ⟨h.trans hx.same, fun Γ hΓ => hx.typed Γ (hΓ.congr h.lookup?)⟩

theorem before (hx : Elaborates f c c₁ p x τs) (h : Same c₁ c₂) : Elaborates f c c₂ p x τs :=
  ⟨hx.same.trans h, hx.typed⟩

end Elaborates

/-! ## Expressions -/

section Expressions

variable {check : Tree → Check Ty} [∀ t, Appends (check t)] {resolve : Resolve.Visit} {c c' : Checker} {p p' : Places}
  {x : Term 1} {τ : Ty} {f : Enclosing} {fs : List Enclosing} {t a b : Tree}

theorem literal_typed (hcheck : Clean (Check.literal t) c τ c') (hresolve : Resolve.literal t p = some (x, p')) :
    p' = p ∧ Elaborates f c c' p x [τ] := by
  obtain ⟨rfl, source, l, hsource, hread, rfl⟩ := Check.literal_ok hcheck
  obtain ⟨_, hsource', hresolve⟩ := Resolve.lift_bind_some.mp hresolve
  cases hsource.symm.trans hsource'
  rw [hread] at hresolve
  obtain ⟨rfl, rfl⟩ := Resolve.pure_some.mp hresolve
  exact ⟨rfl, .refl _, fun Γ _ => .constant l⟩

theorem path_typed (hcheck : Clean (Check.path t) c τ c')
    (hresolve : (do Resolve.path (← t.name) : Resolve (Term 1)) p = some (x, p')) :
    p' = p ∧ Elaborates f c c' p x [τ] := by
  obtain ⟨rfl, name, hname, hlookup⟩ := Check.path_ok hcheck
  obtain ⟨_, hname', hresolve⟩ := Resolve.lift_bind_some.mp hresolve
  cases hname.symm.trans hname'
  simp only [Resolve.path, Resolve.bind_some, Resolve.position_some, Resolve.pure_some] at hresolve
  obtain ⟨⟨frame, slot⟩, _, ⟨hfind, rfl⟩, rfl, rfl⟩ := hresolve
  exact ⟨rfl, .refl _, fun Γ hΓ => .load (hΓ.slot hlookup hfind)⟩

omit [∀ t, Appends (check t)] in
/-- An operation on two operands, once it is known what the check has found. -/
theorem binary_typed (ha : Corresponds check resolve a) (hb : Corresponds check resolve b) (hf : c.functions = f :: fs)
    (hoperands : t.operands = .ok [a, b])
    (hcheck : ∃ left right op c₁, Clean (check a) c left c₁ ∧ Clean (check b) c₁ right c' ∧ t.operator = .ok op ∧
      BinaryTyped op left right τ)
    (hresolve : Resolve.binary resolve t p = some (x, p')) : p' = p ∧ Elaborates f c c' p x [τ] := by
  obtain ⟨left, right, op, c₁, hleft, hright, hop, htyped⟩ := hcheck
  obtain ⟨_, hoperands', hresolve⟩ := Resolve.lift_bind_some.mp hresolve
  cases hoperands.symm.trans hoperands'
  obtain ⟨y, _, hy, hresolve⟩ := Resolve.bind_some.mp hresolve
  obtain ⟨z, _, hz, hresolve⟩ := Resolve.bind_some.mp hresolve
  obtain ⟨_, hop', hresolve⟩ := Resolve.lift_bind_some.mp hresolve
  cases hop.symm.trans hop'
  obtain ⟨rfl, rfl⟩ := Resolve.pure_some.mp hresolve
  obtain ⟨rfl, hely⟩ := ha hf hleft hy
  obtain ⟨rfl, helz⟩ := hb (hely.same.functions.trans hf) hright hz
  exact ⟨rfl, hely.map₂ helz fun Γ => .binary htyped⟩

theorem unary_typed (ha : Corresponds check resolve a) (hf : c.functions = f :: fs) (hchildren : t.children = [a])
    (hoperands : t.operands = .ok [a]) (hcheck : Clean (Check.negation check t) c τ c')
    (hresolve : Resolve.unary resolve t p = some (x, p')) : p' = p ∧ Elaborates f c c' p x [τ] := by
  obtain ⟨hlast, op, hop, htyped⟩ := Check.negation_ok hcheck
  rw [Tree.last_of_children hchildren] at hlast
  obtain ⟨_, hoperands', hresolve⟩ := Resolve.lift_bind_some.mp hresolve
  cases hoperands.symm.trans hoperands'
  obtain ⟨y, _, hy, hresolve⟩ := Resolve.bind_some.mp hresolve
  obtain ⟨_, hop', hresolve⟩ := Resolve.lift_bind_some.mp hresolve
  cases hop.symm.trans hop'
  obtain ⟨rfl, rfl⟩ := Resolve.pure_some.mp hresolve
  obtain ⟨rfl, hely⟩ := ha hf hlast hy
  exact ⟨rfl, hely.map fun Γ => .unary htyped⟩

theorem conditional_typed {condition : Tree} (hcondition : Corresponds check resolve condition)
    (ha : Corresponds check resolve a) (hb : Corresponds check resolve b) (hf : c.functions = f :: fs)
    (hoperands : t.operands = .ok [condition, a, b]) (hcheck : Clean (Check.conditional check t) c τ c')
    (hresolve : Resolve.conditional resolve t p = some (x, p')) : p' = p ∧ Elaborates f c c' p x [τ] := by
  obtain ⟨c₁, c₂, c₃, c₄, htest, hthen, hsame, helse, hsame'⟩ := Check.conditional_ok hoperands hcheck
  obtain ⟨_, hoperands', hresolve⟩ := Resolve.lift_bind_some.mp hresolve
  cases hoperands.symm.trans hoperands'
  simp only [Resolve.bind_some, Resolve.pure_some] at hresolve
  obtain ⟨y, _, hy, z, _, hz, w, _, hw, rfl, rfl⟩ := hresolve
  obtain ⟨rfl, hely⟩ := hcondition hf htest hy
  obtain ⟨rfl, helz⟩ := ha (hely.same.functions.trans hf) hthen hz
  have hsame₃ := (hely.same.trans helz.same).trans hsame
  obtain ⟨rfl, helw⟩ := hb (hsame₃.functions.trans hf) helse hw
  refine ⟨rfl, (hsame₃.trans helw.same).trans hsame', fun Γ hΓ => ?_⟩
  exact .conditional (hely.typed Γ hΓ) (helz.typed Γ (hely.agrees hΓ)) (helw.typed Γ (hΓ.congr hsame₃.lookup?))

theorem loop_typed {condition : Tree} (hcondition : Corresponds check resolve condition)
    (ha : Corresponds check resolve a) (hf : c.functions = f :: fs) (hoperands : t.operands = .ok [condition, a])
    (hcheck : Clean (Check.loop check t) c τ c') (hresolve : Resolve.loop resolve t p = some (x, p')) :
    p' = p ∧ Elaborates f c c' p x [τ] := by
  obtain ⟨rfl, υ, c₁, c₂, c₃, htest, hsame, hbody, hsame'⟩ := Check.loop_ok hoperands hcheck
  obtain ⟨_, hoperands', hresolve⟩ := Resolve.lift_bind_some.mp hresolve
  cases hoperands.symm.trans hoperands'
  simp only [Resolve.bind_some, Resolve.pure_some] at hresolve
  obtain ⟨y, _, hy, z, _, hz, rfl, rfl⟩ := hresolve
  obtain ⟨rfl, hely⟩ := hcondition hf htest hy
  obtain ⟨rfl, helz⟩ := ha ((hely.same.trans hsame).functions.trans hf) hbody hz
  exact ⟨rfl, hely.map₂ ((helz.after hsame).before hsame') fun Γ => .loop⟩

theorem arguments_typed {ts : List Tree} (hts : ∀ e ∈ ts, Corresponds check resolve e) {y : Term ts.length} {τs : List Ty}
    (hf : c.functions = f :: fs) (hcheck : Clean (Check.all check ts) c τs c')
    (hresolve : Resolve.arguments resolve ts p = some (y, p')) : p' = p ∧ Elaborates f c c' p y τs := by
  induction ts generalizing c p τs with
  | nil =>
    obtain ⟨rfl, rfl⟩ := Check.clean_pure.mp hcheck
    obtain ⟨rfl, rfl⟩ := Resolve.pure_some.mp hresolve
    exact ⟨rfl, .refl _, fun Γ _ => .nothing⟩
  | cons e rest ih =>
    simp only [Check.all, Check.clean_bind, Check.clean_pure] at hcheck
    obtain ⟨υ, c₁, he, υs, _, hrest, rfl, rfl⟩ := hcheck
    simp only [Resolve.arguments, Resolve.bind_some, Resolve.pure_some] at hresolve
    obtain ⟨y, _, hy, ys, _, hys, rfl, rfl⟩ := hresolve
    obtain ⟨rfl, hely⟩ := hts e (List.mem_cons_self ..) hf he hy
    obtain ⟨rfl, helys⟩ := ih (fun e he => hts e (List.mem_cons_of_mem _ he)) (hely.same.functions.trans hf) hrest hys
    exact ⟨rfl, hely.map₂ helys fun Γ => .also⟩

theorem call_typed {callee : Tree} {arguments : List Tree} (hcallee : Corresponds check resolve callee)
    (harguments : ∀ e ∈ arguments, Corresponds check resolve e) (hf : c.functions = f :: fs)
    (hoperands : t.operands = .ok (callee :: arguments)) (hcheck : Clean (Check.call check t) c τ c')
    (hresolve : Resolve.call resolve t p = some (x, p')) : p' = p ∧ Elaborates f c c' p x [τ] := by
  obtain ⟨parameters, c₁, hfunction, hall⟩ := Check.call_ok hoperands hcheck
  obtain ⟨_, hoperands', hresolve⟩ := Resolve.lift_bind_some.mp hresolve
  cases hoperands.symm.trans hoperands'
  simp only [Resolve.bind_some, Resolve.pure_some] at hresolve
  obtain ⟨y, _, hy, ys, _, hys, rfl, rfl⟩ := hresolve
  obtain ⟨rfl, hely⟩ := hcallee hf hfunction hy
  obtain ⟨rfl, helys⟩ := arguments_typed harguments (hely.same.functions.trans hf) hall hys
  exact ⟨rfl, hely.map₂ helys fun Γ => .call⟩

theorem returning_typed (hlast : t.last.isPresent = true → Corresponds check resolve t.last)
    (habsent : ∀ c τ c', t.last.isPresent = false → Clean (check t.last) c τ c' → τ = .unit ∧ c' = c)
    (hf : c.functions = f :: fs) (hcheck : Clean (Check.returning check t) c τ c')
    (hresolve : Resolve.returning resolve t p = some (x, p')) : p' = p ∧ Elaborates f c c' p x [τ] := by
  obtain ⟨hvalue, f', fs', hf', hresult⟩ := Check.returning_ok hcheck
  obtain ⟨y, rfl, rfl, hely⟩ : ∃ y, x = .returning y ∧ p' = p ∧ Elaborates f c c' p y [τ] := by
    unfold Resolve.returning at hresolve
    split at hresolve
    next hpresent =>
      obtain ⟨y, _, hy, hresolve⟩ := Resolve.bind_some.mp hresolve
      obtain ⟨rfl, rfl⟩ := Resolve.pure_some.mp hresolve
      exact ⟨y, rfl, hlast hpresent hf hvalue hy⟩
    next hpresent =>
      obtain ⟨rfl, rfl⟩ := habsent _ _ _ (Bool.eq_false_iff.mpr hpresent) hvalue
      rw [pure_bind] at hresolve
      obtain ⟨rfl, rfl⟩ := Resolve.pure_some.mp hresolve
      exact ⟨_, rfl, rfl, .refl _, fun Γ _ => .constant .unit⟩
  cases (hely.same.functions.trans hf).symm.trans hf'
  refine ⟨rfl, hely.map fun Γ => .returning fun ρ hρ => ?_⟩
  unfold Enclosing.returns at hρ
  split at hρ
  · cases hρ
  next hname =>
    cases hρ
    exact hresult.resolve_left hname

theorem dereference_typed (ha : Corresponds check resolve t.last) (hf : c.functions = f :: fs)
    (hcheck : Clean (Check.dereference check t) c τ c') (hresolve : Resolve.dereference resolve t p = some (x, p')) :
    p' = p ∧ Elaborates f c c' p x [τ] := by
  obtain ⟨mutable, hlast⟩ := Check.dereference_ok hcheck
  simp only [Resolve.dereference, Resolve.bind_some, Resolve.pure_some] at hresolve
  obtain ⟨y, _, hy, rfl, rfl⟩ := hresolve
  obtain ⟨rfl, hely⟩ := ha hf hlast hy
  exact ⟨rfl, hely.map fun Γ => .dereference⟩

/-- A check of a tree finds the type of a variable. -/
def FindsVariable (check : Tree → Check Ty) (t target : Tree) : Prop :=
  ∀ ⦃c c' : Checker⦄ ⦃τ : Ty⦄, target.form = .ok .path ∨ target.form = .ok .identifier → Clean (check t) c τ c' →
    c' = c ∧ ∃ name, target.name = .ok name ∧ c.scopes.lookup? name = some τ

/-- A borrow of a variable, in parentheses or not. The check looks at the whole operand, name resolution only at the
variable. -/
theorem borrow_typed (hvariable : FindsVariable check t.last t.last.unwrapped)
    (hpresent : t.last.unwrapped.isPresent = true)
    (hcheck : Clean (Check.borrow check t) c τ c') (hresolve : Resolve.borrow t p = some (x, p')) :
    p' = p ∧ Elaborates f c c' p x [τ] := by
  obtain ⟨υ, mutable, hlast, hmutable, rfl⟩ := Check.borrow_ok hcheck
  unfold Resolve.borrow at hresolve
  dsimp only at hresolve
  generalize t.last.unwrapped = target at hvariable hpresent hresolve
  cases target with
  | absent => cases hpresent
  | node tag children val type =>
    rw [Tree.tag] at hresolve
    cases htag : Form.ofTag tag <;> rw [htag] at hresolve
    case path | identifier =>
      obtain ⟨rfl, name, hname, hlookup⟩ := hvariable (by simp [Tree.form, htag]) hlast
      obtain ⟨_, hname', hresolve⟩ := Resolve.lift_bind_some.mp hresolve
      cases hname.symm.trans hname'
      simp only [Resolve.bind_some, Resolve.position_some, Resolve.lift_some, Resolve.pure_some] at hresolve
      obtain ⟨⟨frame, slot⟩, _, ⟨hfind, rfl⟩, _, _, ⟨hmutable', rfl⟩, rfl, rfl⟩ := hresolve
      cases hmutable.symm.trans hmutable'
      exact ⟨rfl, .refl _, fun Γ hΓ => .borrow (hΓ.slot hlookup hfind)⟩
    all_goals cases hresolve

theorem assignment_typed {target value : Tree}
    (htarget : target.unwrapped.form = .ok .dereference → Corresponds check resolve target.unwrapped.last)
    (hvalue : Corresponds check resolve value) (hf : c.functions = f :: fs) (hoperands : t.operands = .ok [target, value])
    (hcheck : Clean (Check.assignment check t) c τ c') (hresolve : Resolve.assignment resolve t p = some (x, p')) :
    p' = p ∧ Elaborates f c c' p x [τ] := by
  obtain ⟨rfl, type, c₁, hval, hstore⟩ := Check.assignment_ok hoperands hcheck
  obtain ⟨_, hoperands', hresolve⟩ := Resolve.lift_bind_some.mp hresolve
  cases hoperands.symm.trans hoperands'
  obtain ⟨form, hform, hresolve⟩ := Resolve.lift_bind_some.mp hresolve
  rcases Check.store_ok hstore with ⟨hvariable, hsame, name, hname, hlookup⟩ | ⟨hdereference, hlast⟩
  · obtain ⟨frame, slot, y, rfl, hfind, hy⟩ : ∃ frame slot y, x = .seq (.store frame slot y) Resolve.unit ∧
        p.find? name = some (frame, slot) ∧ resolve value p = some (y, p') := by
      rcases hvariable with hform' | hform' <;> cases hform.symm.trans hform'
      all_goals
        obtain ⟨_, hname', hresolve⟩ := Resolve.lift_bind_some.mp hresolve
        cases hname.symm.trans hname'
        simp only [Resolve.bind_some, Resolve.position_some, Resolve.pure_some] at hresolve
        obtain ⟨⟨frame, slot⟩, _, ⟨hfind, rfl⟩, y, _, hy, rfl, rfl⟩ := hresolve
        exact ⟨frame, slot, y, rfl, hfind, hy⟩
    obtain ⟨rfl, hely⟩ := hvalue hf hval hy
    refine ⟨rfl, hely.same.trans hsame, fun Γ hΓ => ?_⟩
    exact .seq (.store ((hely.agrees hΓ).slot hlookup hfind) (hely.typed Γ hΓ)) (.constant .unit)
  · cases hform.symm.trans hdereference
    simp only [Resolve.bind_some, Resolve.pure_some] at hresolve
    obtain ⟨r, _, hr, y, _, hy, rfl, rfl⟩ := hresolve
    obtain ⟨rfl, hely⟩ := hvalue hf hval hy
    obtain ⟨rfl, helr⟩ := htarget hdereference (hely.same.functions.trans hf) hlast hr
    exact ⟨rfl, hely.map₂ helr fun Γ hy hr => .seq (.discard (.update hr hy)) (.constant .unit)⟩

/-- The operator of a compound assignment is its symbol without the last octet. -/
theorem compoundOperator_eq {written op : Text} (h : Check.compoundOperator? written = some op) :
    op = ⟨written.octets.dropLast⟩ := by
  unfold Check.compoundOperator? at h
  split at h
  · cases h
  · split at h
    next hends =>
      cases h
      simp only [Text.trimTail, hends, if_true, List.dropLast_eq_take]
      rfl
    · cases h

theorem compoundAssignment_typed {target value : Tree}
    (htarget : target.unwrapped.form = .ok .dereference → Corresponds check resolve target.unwrapped.last)
    (hvariable : FindsVariable check target.unwrapped target.unwrapped)
    (hdereference : target.unwrapped.form = .ok .dereference →
      Corresponds check (Resolve.dereference resolve) target.unwrapped)
    (hvalue : Corresponds check resolve value) (hf : c.functions = f :: fs) (hoperands : t.operands = .ok [target, value])
    (hcheck : Clean (Check.compoundAssignment check t) c τ c')
    (hresolve : Resolve.compoundAssignment resolve t p = some (x, p')) : p' = p ∧ Elaborates f c c' p x [τ] := by
  obtain ⟨rfl, written, op, left, right, result, c₁, c₂, hwritten, hop, hleft, hright, htyped, hstore⟩ :=
    Check.compoundAssignment_ok hoperands hcheck
  obtain rfl := compoundOperator_eq hop
  obtain ⟨_, hwritten', hresolve⟩ := Resolve.lift_bind_some.mp hresolve
  cases hwritten.symm.trans hwritten'
  obtain ⟨_, hoperands', hresolve⟩ := Resolve.lift_bind_some.mp hresolve
  cases hoperands.symm.trans hoperands'
  obtain ⟨form, hform, hresolve⟩ := Resolve.lift_bind_some.mp hresolve
  rcases Check.store_ok hstore with ⟨hvar, hsame, name, hname, hlookup⟩ | ⟨hderef, hlast⟩
  · obtain ⟨rfl, name', hname', hlookup'⟩ := hvariable hvar hleft
    cases hname.symm.trans hname'
    obtain ⟨frame, slot, y, rfl, hfind, hy⟩ : ∃ frame slot y,
        x = .seq (.store frame slot (.binary ⟨written.octets.dropLast⟩ (.load frame slot) y)) Resolve.unit ∧
        p.find? name = some (frame, slot) ∧ resolve value p = some (y, p') := by
      rcases hvar with hform' | hform' <;> cases hform.symm.trans hform'
      all_goals
        obtain ⟨_, hname', hresolve⟩ := Resolve.lift_bind_some.mp hresolve
        cases hname.symm.trans hname'
        simp only [Resolve.bind_some, Resolve.position_some, Resolve.pure_some] at hresolve
        obtain ⟨⟨frame, slot⟩, _, ⟨hfind, rfl⟩, y, _, hy, rfl, rfl⟩ := hresolve
        exact ⟨frame, slot, y, rfl, hfind, hy⟩
    obtain ⟨rfl, hely⟩ := hvalue hf hright hy
    refine ⟨rfl, hely.same.trans hsame, fun Γ hΓ => ?_⟩
    have hload : (Term.load frame slot).Typed f.returns Γ [left] := .load (hΓ.slot hlookup' hfind)
    exact .seq (.store ((hely.agrees hΓ).slot hlookup hfind) (.binary htyped hload (hely.typed Γ hΓ))) (.constant .unit)
  · cases hform.symm.trans hderef
    simp only [Resolve.bind_some, Resolve.pure_some] at hresolve
    obtain ⟨r, p₁, hr, again, p₂, hagain, y, _, hy, rfl, rfl⟩ := hresolve
    have hold : Resolve.dereference resolve target.unwrapped p₁ = some (.dereference again, p₂) :=
      Resolve.bind_some.mpr ⟨again, p₂, hagain, rfl⟩
    obtain ⟨rfl, helold⟩ := hdereference hderef hf hleft hold
    have hf₁ := helold.same.functions.trans hf
    obtain ⟨rfl, hely⟩ := hvalue hf₁ hright hy
    obtain ⟨rfl, helr⟩ := htarget hderef (hely.same.functions.trans hf₁) hlast hr
    have helnew := helold.map₂ hely fun Γ => .binary htyped
    exact ⟨rfl, helnew.map₂ helr fun Γ hnew hr => .seq (.discard (.update hr hnew)) (.constant .unit)⟩

end Expressions

end Tenure
