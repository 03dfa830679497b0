import Tenure.Proofs.Typing.Terms

/-!
# Checks that find nothing

A check only ever adds complaints. So where a check ends without any, all the steps that it is made of do, and each
says what it has found: `Check.Clean` and the lemmas about the single rules.
-/

set_option autoImplicit false

namespace Tenure

theorem Ty.isBool_iff {τ : Ty} : τ.isBool = true ↔ τ = .bool := by cases τ <;> simp [Ty.isBool]

namespace Check

variable {α β : Type} {c c' : Checker}

/-- A step of a check that never takes back a complaint. -/
class Appends (x : Check α) : Prop where
  errors : ∀ c, c.errors <+: (x c).2.errors

/-- A step of a check succeeds and adds no complaint. -/
def Clean (x : Check α) (c : Checker) (a : α) (c' : Checker) : Prop := x c = (.ok a, c') ∧ c'.errors = c.errors

theorem bind_ok {x : Check α} {a : α} {c₁ : Checker} (h : x c = (.ok a, c₁)) (f : α → Check β) :
    (x >>= f) c = f a c₁ := by
  show ExceptT.bindCont f (x c).1 (x c).2 = _
  rw [h]
  rfl

theorem bind_error {x : Check α} {e : Missing} {c₁ : Checker} (h : x c = (.error e, c₁)) (f : α → Check β) :
    (x >>= f) c = (.error e, c₁) := by
  show ExceptT.bindCont f (x c).1 (x c).2 = _
  rw [h]
  rfl

/-! ## Complaints are never taken back -/

section Appends

instance appends_pure (a : α) : Appends (pure a : Check α) := ⟨fun _ => List.prefix_rfl⟩

instance appends_lift (x : Inspect α) : Appends (liftM x : Check α) := ⟨fun _ => List.prefix_rfl⟩

theorem Appends.bind {x : Check α} {f : α → Check β} (hx : Appends x) (hf : ∀ a, Appends (f a)) : Appends (x >>= f) where
  errors c := by
    replace hx := hx.errors c
    rcases hxc : x c with ⟨e | a, c₁⟩
    · rw [hxc] at hx
      rw [bind_error hxc]
      exact hx
    · rw [hxc] at hx
      rw [bind_ok hxc]
      exact hx.trans ((hf a).errors c₁)

instance appends_bind (x : Check α) (f : α → Check β) [Appends x] [∀ a, Appends (f a)] : Appends (x >>= f) :=
  .bind inferInstance fun _ => inferInstance

instance appends_get : Appends (get : Check Checker) := ⟨fun _ => List.prefix_rfl⟩

instance appends_onScopes (f : Scopes → Scopes) : Appends (onScopes f) := ⟨fun _ => List.prefix_rfl⟩

instance appends_define (name : Text) (type : Ty) (mutable : Bool) : Appends (define name type mutable) :=
  ⟨fun _ => List.prefix_rfl⟩

instance appends_modify (f : Checker → Scopes) (g : Checker → List Enclosing) (h : Checker → Int) :
    Appends (modify fun c => { scopes := f c, errors := c.errors, functions := g c, loops := h c } : Check PUnit) :=
  ⟨fun _ => List.prefix_rfl⟩

instance appends_report (e : CheckError) : Appends (report e) := ⟨fun _ => List.prefix_append ..⟩

instance appends_ite (p : Prop) [Decidable p] (x y : Check α) [Appends x] [Appends y] : Appends (if p then x else y) := by
  split <;> infer_instance

instance appends_require (ok : Bool) (e : CheckError) : Appends (require ok e) := by
  unfold require
  infer_instance

instance appends_malformed (t : Tree) : Appends (malformed t) := by
  unfold malformed
  infer_instance

instance appends_inScope (x : Check α) [Appends x] : Appends (inScope x) :=
  ⟨fun c => Appends.errors (x := x) { c with scopes := c.scopes.enter }⟩

variable (visit : Tree → Check Ty) [∀ t, Appends (visit t)]

instance appends_ascription (owner : Text) (written : Option Tree) : Appends (ascription owner written) := by
  unfold ascription
  split
  · infer_instance
  · split <;> infer_instance

instance appends_parameterTypes (ps : List Tree) : Appends (parameterTypes ps) := by
  induction ps with
  | nil => exact appends_pure _
  | cons p rest ih =>
    unfold parameterTypes
    infer_instance

instance appends_signature (t : Tree) : Appends (signature t) := by
  unfold signature
  refine .bind inferInstance fun _ => ?_
  refine .bind inferInstance fun _ => ?_
  refine .bind inferInstance fun _ => ?_
  split <;> infer_instance

instance appends_inOrder (ts : List Tree) (last : Ty) : Appends (inOrder visit ts last) := by
  induction ts generalizing last with
  | nil => exact appends_pure _
  | cons t rest ih =>
    unfold inOrder
    infer_instance

instance appends_declareParameters (ps : List (Tree × Ty)) : Appends (declareParameters ps) := by
  induction ps with
  | nil => exact appends_pure _
  | cons p rest ih =>
    unfold declareParameters
    infer_instance

instance appends_declareFunctions (ts : List Tree) : Appends (declareFunctions ts) := by
  induction ts with
  | nil => exact appends_pure _
  | cons t rest ih =>
    unfold declareFunctions
    infer_instance

instance appends_function (t : Tree) (s : Signature) : Appends (function visit t s) := by
  unfold function
  refine .bind inferInstance fun _ => .bind inferInstance fun _ => ?_
  split <;> infer_instance

instance appends_blockItems (ts : List Tree) (signatures : List Signature) (last : Ty) :
    Appends (blockItems visit ts signatures last) := by
  induction ts generalizing signatures last with
  | nil => exact appends_pure _
  | cons t rest ih =>
    unfold blockItems
    infer_instance

instance appends_block (t : Tree) : Appends (block visit t) := by
  unfold block
  infer_instance

instance appends_functionItem (t : Tree) : Appends (functionItem visit t) := by
  unfold functionItem
  infer_instance

instance appends_declareGlobals (ts : List Tree) (known : List (Text × Signature)) :
    Appends (declareGlobals ts known) := by
  induction ts generalizing known with
  | nil => exact appends_pure _
  | cons t rest ih =>
    unfold declareGlobals
    infer_instance

instance appends_crateFunctions (known : List (Text × Signature)) (ts : List Tree) :
    Appends (crateFunctions visit known ts) := by
  induction ts with
  | nil => exact appends_pure _
  | cons t rest ih =>
    unfold crateFunctions
    infer_instance

instance appends_crate (t : Tree) : Appends (crate visit t) := by
  unfold crate
  refine .bind inferInstance fun _ => .bind inferInstance fun _ => .bind inferInstance fun r => ?_
  refine .bind inferInstance fun _ => .bind inferInstance fun _ => .bind inferInstance fun _ => ?_
  split <;> infer_instance

instance appends_letStatement (t : Tree) : Appends (letStatement visit t) := by
  unfold letStatement
  refine .bind inferInstance fun _ => .bind inferInstance fun _ => .bind inferInstance fun written => ?_
  dsimp only
  split
  case' h_2 => refine .bind inferInstance fun _ => ?_
  all_goals
    refine .bind inferInstance fun declared => .bind inferInstance fun initial => ?_
    split
    · refine .bind inferInstance fun got => ?_
      split <;> infer_instance
    · infer_instance

instance appends_expressionStatement (t : Tree) : Appends (expressionStatement visit t) := by
  unfold expressionStatement
  infer_instance

instance appends_returning (t : Tree) : Appends (returning visit t) := by
  unfold returning
  refine .bind inferInstance fun _ => .bind inferInstance fun c => ?_
  split <;> infer_instance

instance appends_literal (t : Tree) : Appends (literal t) := by
  unfold literal
  refine .bind inferInstance fun _ => ?_
  dsimp only
  split
  · infer_instance
  · split <;> infer_instance

instance appends_path (t : Tree) : Appends (path t) := by
  unfold path
  refine .bind inferInstance fun _ => .bind inferInstance fun _ => ?_
  split <;> infer_instance

instance appends_binary (left right : Ty) (op : Text) : Appends (binary left right op) := by
  unfold binary
  infer_instance

instance appends_operation (t : Tree) : Appends (operation visit t) := by
  unfold operation
  refine .bind inferInstance fun _ => ?_
  split <;> infer_instance

instance appends_comparison (t : Tree) : Appends (comparison visit t) := by
  unfold comparison
  refine .bind inferInstance fun _ => ?_
  split
  · refine .bind inferInstance fun _ => .bind inferInstance fun _ => .bind inferInstance fun _ => ?_
    dsimp only
    split
    · infer_instance
    · split
      · split <;> infer_instance
      · infer_instance
  · infer_instance

instance appends_negation (t : Tree) : Appends (negation visit t) := by
  unfold negation
  infer_instance

instance appends_branches (thenBranch : Tree) (elseBranch : Option Tree) :
    Appends (branches visit thenBranch elseBranch) := by
  unfold branches
  refine .bind inferInstance fun _ => .bind inferInstance fun _ => ?_
  refine .bind inferInstance fun _ => .bind inferInstance fun _ => ?_
  split <;> infer_instance

instance appends_conditional (t : Tree) : Appends (conditional visit t) := by
  unfold conditional
  refine .bind inferInstance fun _ => ?_
  split <;> infer_instance

instance appends_loop (t : Tree) : Appends (loop visit t) := by
  unfold loop
  refine .bind inferInstance fun _ => ?_
  split <;> infer_instance

instance appends_compareArguments (ps as : List Ty) (number : Nat) : Appends (compareArguments ps as number) := by
  induction ps generalizing as number with
  | nil => exact appends_pure _
  | cons p ps ih =>
    cases as with
    | nil => exact appends_pure _
    | cons a as =>
      unfold compareArguments
      infer_instance

instance appends_all (ts : List Tree) : Appends (all visit ts) := by
  induction ts with
  | nil => exact appends_pure _
  | cons t rest ih =>
    unfold all
    infer_instance

instance appends_call (t : Tree) : Appends (call visit t) := by
  unfold call
  refine .bind inferInstance fun _ => ?_
  split
  · infer_instance
  · refine .bind inferInstance fun _ => .bind inferInstance fun _ => ?_
    split <;> infer_instance

instance appends_store (target : Tree) (value : Ty) (plain : Bool) : Appends (store visit target value plain) := by
  unfold store
  refine .bind inferInstance fun _ => ?_
  split
  · refine .bind inferInstance fun _ => .bind inferInstance fun _ => ?_
    split <;> infer_instance
  · refine .bind inferInstance fun _ => .bind inferInstance fun _ => ?_
    split <;> infer_instance
  · refine .bind inferInstance fun _ => ?_
    split <;> infer_instance
  · infer_instance

instance appends_assignment (t : Tree) : Appends (assignment visit t) := by
  unfold assignment
  refine .bind inferInstance fun _ => ?_
  split <;> infer_instance

instance appends_compoundAssignment (t : Tree) : Appends (compoundAssignment visit t) := by
  unfold compoundAssignment
  refine .bind inferInstance fun _ => .bind inferInstance fun _ => ?_
  split <;> infer_instance

instance appends_borrow (t : Tree) : Appends (borrow visit t) := by
  unfold borrow
  infer_instance

instance appends_dereference (t : Tree) : Appends (dereference visit t) := by
  unfold dereference
  refine .bind inferInstance fun _ => ?_
  split <;> infer_instance

instance appends_rule (f : Form) (t : Tree) : Appends (rule visit f t) := by
  cases f <;> unfold rule <;> infer_instance

end Appends

instance appends_toDepth (depth : Nat) (t : Tree) : Appends (toDepth depth t) := by
  induction depth generalizing t with
  | zero => exact appends_pure _
  | succ depth ih =>
    cases t with
    | absent => exact appends_pure _
    | node tag children val type => exact appends_rule _ _ _

/-! ## What the steps of a clean check say -/

section Clean

variable {x : Check α} {f : α → Check β} {a : α} {b : β}

@[simp] theorem clean_pure {a' : α} : Clean (pure a) c a' c' ↔ a' = a ∧ c' = c := by
  refine ⟨fun ⟨h, _⟩ => ?_, ?_⟩
  · cases h
    exact ⟨rfl, rfl⟩
  · rintro ⟨rfl, rfl⟩
    exact ⟨rfl, rfl⟩

theorem Clean.bind (h : Clean (x >>= f) c b c') (hx : Appends x) (hf : ∀ a, Appends (f a)) :
    ∃ a c₁, Clean x c a c₁ ∧ Clean (f a) c₁ b c' := by
  obtain ⟨h, herrors⟩ := h
  have hgrows := hx.errors c
  rcases hxc : x c with ⟨e | a, c₁⟩
  · rw [bind_error hxc] at h
    cases h
  · rw [bind_ok hxc] at h
    rw [hxc] at hgrows
    have hgrows' := (hf a).errors c₁
    rw [h, herrors] at hgrows'
    have heq : c₁.errors = c.errors := (hgrows.eq_of_length_le hgrows'.length_le).symm
    exact ⟨a, c₁, ⟨hxc, heq⟩, h, herrors.trans heq.symm⟩

/-- Two steps one after the other. -/
theorem Clean.bind₂ {γ : Type} {y : Check β} {g : α → β → Check γ} {r : γ}
    (h : Clean (x >>= fun a => y >>= fun b => g a b) c r c') (hx : Appends x) (hy : Appends y)
    (hg : ∀ a b, Appends (g a b)) :
    ∃ a c₁ b c₂, Clean x c a c₁ ∧ Clean y c₁ b c₂ ∧ Clean (g a b) c₂ r c' := by
  obtain ⟨a, c₁, ha, h⟩ := h.bind hx fun a => .bind hy (hg a)
  obtain ⟨b, c₂, hb, h⟩ := h.bind hy (hg a)
  exact ⟨a, c₁, b, c₂, ha, hb, h⟩

/-- Rules without complaints, one after the other. -/
theorem Clean.seq {c₁ : Checker} (hx : Clean x c a c₁) (hf : Clean (f a) c₁ b c') : Clean (x >>= f) c b c' :=
  ⟨by rw [bind_ok hx.1, hf.1], hf.2.trans hx.2⟩

@[simp] theorem clean_bind [Appends x] [∀ a, Appends (f a)] :
    Clean (x >>= f) c b c' ↔ ∃ a c₁, Clean x c a c₁ ∧ Clean (f a) c₁ b c' := by
  refine ⟨fun h => h.bind inferInstance inferInstance, ?_⟩
  rintro ⟨a, c₁, hx, hf⟩
  exact hx.seq hf

@[simp] theorem clean_lift {x : Inspect α} : Clean (liftM x) c a c' ↔ x = .ok a ∧ c' = c := by
  refine ⟨fun ⟨h, _⟩ => ?_, ?_⟩
  · cases x with
    | error e => cases h
    | ok a =>
      cases h
      exact ⟨rfl, rfl⟩
  · rintro ⟨rfl, rfl⟩
    exact ⟨rfl, rfl⟩

theorem clean_lift_bind {x : Inspect α} :
    Clean (liftM x >>= f) c b c' ↔ ∃ a, x = .ok a ∧ Clean (f a) c b c' := by
  cases x with
  | error e =>
    refine ⟨fun ⟨h, _⟩ => ?_, fun ⟨_, h, _⟩ => by cases h⟩
    cases h
  | ok a => exact ⟨fun h => ⟨a, rfl, h⟩, fun ⟨_, h, h'⟩ => by cases h; exact h'⟩

theorem clean_get_bind {f : Checker → Check β} : Clean (get >>= f) c b c' ↔ Clean (f c) c b c' := Iff.rfl

@[simp] theorem clean_get {a : Checker} : Clean get c a c' ↔ a = c ∧ c' = c := by
  refine ⟨fun ⟨h, _⟩ => ?_, ?_⟩
  · cases h
    exact ⟨rfl, rfl⟩
  · rintro ⟨rfl, rfl⟩
    exact ⟨rfl, rfl⟩

@[simp] theorem clean_report {e : CheckError} {u : Unit} : ¬ Clean (report e) c u c' := by
  rintro ⟨h, herrors⟩
  cases h
  simp at herrors

theorem clean_report_bind {e : CheckError} {f : Unit → Check β} [∀ a, Appends (f a)] :
    ¬ Clean (report e >>= f) c b c' := by
  simp only [clean_bind, clean_report, false_and, exists_false, not_false_eq_true]

@[simp] theorem clean_require {ok : Bool} {e : CheckError} {u : Unit} :
    Clean (require ok e) c u c' ↔ ok = true ∧ c' = c := by
  unfold require
  cases ok <;> simp

@[simp] theorem clean_onScopes {f : Scopes → Scopes} {u : Unit} :
    Clean (onScopes f) c u c' ↔ c' = { c with scopes := f c.scopes } := by
  refine ⟨fun ⟨h, _⟩ => ?_, ?_⟩
  · cases h
    rfl
  · rintro rfl
    exact ⟨rfl, rfl⟩

@[simp] theorem clean_define {name : Text} {type : Ty} {mutable : Bool} {u : Unit} :
    Clean (define name type mutable) c u c' ↔ c' = { c with scopes := c.scopes.define name type mutable } :=
  clean_onScopes

@[simp] theorem clean_modify {f : Checker → Scopes} {g : Checker → List Enclosing} {h : Checker → Int} {u : PUnit} :
    Clean (modify fun c => { scopes := f c, errors := c.errors, functions := g c, loops := h c } : Check PUnit) c u c' ↔
      c' = { scopes := f c, errors := c.errors, functions := g c, loops := h c } := by
  refine ⟨fun ⟨h, _⟩ => ?_, ?_⟩
  · cases h
    rfl
  · rintro rfl
    exact ⟨rfl, rfl⟩

@[simp] theorem clean_malformed {t : Tree} {τ : Ty} : ¬ Clean (malformed t) c τ c' := by
  exact clean_report_bind

/-- A step in a scope of its own. -/
theorem Clean.inScope (h : Clean (inScope x) c a c') :
    ∃ c₁, Clean x { c with scopes := c.scopes.enter } a c₁ ∧ c' = { c₁ with scopes := c₁.scopes.exit } := by
  obtain ⟨h, herrors⟩ := h
  generalize hc : { c with scopes := c.scopes.enter } = inside
  replace h : ((x inside).1, ({ (x inside).2 with scopes := (x inside).2.scopes.exit } : Checker)) = (.ok a, c') := by
    rw [← hc]
    exact h
  rcases hx : x inside with ⟨r, c₁⟩
  rw [hx] at h
  cases h
  exact ⟨c₁, ⟨hx, by rw [← hc]; exact herrors⟩, rfl⟩

end Clean

/-- Two states that differ only in the order of declarations, in what is still without a value and in complaints. -/
structure Same (c c' : Checker) : Prop where
  inner : c'.scopes.inner = c.scopes.inner
  global : c'.scopes.global = c.scopes.global
  functions : c'.functions = c.functions

namespace Same

theorem refl (c : Checker) : Same c c := ⟨rfl, rfl, rfl⟩

theorem trans {c₁ : Checker} (h : Same c c₁) (h' : Same c₁ c') : Same c c' :=
  ⟨h'.inner.trans h.inner, h'.global.trans h.global, h'.functions.trans h.functions⟩

theorem lookup? (h : Same c c') (name : Text) : c'.scopes.lookup? name = c.scopes.lookup? name := by
  simp only [Scopes.lookup?, Scopes.find?, Scopes.all, h.inner, h.global]

theorem settle (c : Checker) (name : Text) : Same c { c with scopes := c.scopes.settle name } := by
  unfold Scopes.settle
  split <;> exact ⟨rfl, rfl, rfl⟩

end Same

/-! ## Expressions -/

section Rules

variable {visit : Tree → Check Ty} [∀ t, Appends (visit t)] {t a b : Tree} {τ : Ty}

theorem ty_of_readInt {text : Text} {l : Literal} (h : Literal.readInt text = .ok l) : l.ty = .i32 := by
  unfold Literal.readInt at h
  dsimp only at h
  split at h
  · cases h
  · split at h <;> cases h
    rfl

theorem ty_of_readFloat {text : Text} {l : Literal} (h : Literal.readFloat text = .ok l) : l.ty = .f32 := by
  unfold Literal.readFloat at h
  split at h <;> cases h
  rfl

theorem ty_of_readBool {val : Payload} {text : Text} {l : Literal} (h : Literal.readBool val text = .ok l) :
    l.ty = .bool := by
  unfold Literal.readBool at h
  split at h
  · cases h
    rfl
  · split at h <;> cases h
    rfl

theorem ty_of_readChar {text : Text} {l : Literal} (h : Literal.readChar text = .ok l) : l.ty = .char := by
  unfold Literal.readChar at h
  simp only [bind, Except.bind] at h
  split at h
  · split at h
    · split at h <;> cases h
      rfl
    · cases h
  · split at h <;> cases h
    rfl

theorem ty_of_readString {text : Text} {l : Literal} (h : Literal.readString text = .ok l) : l.ty = .str := by
  unfold Literal.readString at h
  split at h
  · split at h <;> cases h
    rfl
  · cases h
    rfl

/-- A literal has the type of its kind. -/
theorem ty_of_read {source : Tree} {l : Literal} (htype : Literal.typeOfKind? (Literal.kindOf source) = some τ)
    (hread : Literal.read source = .ok l) : l.ty = τ := by
  simp only [Literal.typeOfKind?] at htype
  simp only [Literal.read] at hread
  split at htype
  next hkind =>
    rw [if_pos hkind] at hread
    cases htype
    exact ty_of_readInt hread
  next hkind =>
    rw [if_neg hkind] at hread
    split at htype
    next hkind =>
      rw [if_pos hkind] at hread
      cases htype
      exact ty_of_readFloat hread
    next hkind =>
      rw [if_neg hkind] at hread
      split at htype
      next hkind =>
        rw [if_pos hkind] at hread
        cases htype
        exact ty_of_readBool hread
      next hkind =>
        rw [if_neg hkind] at hread
        split at htype
        next hkind =>
          rw [if_pos hkind] at hread
          cases htype
          exact ty_of_readChar hread
        next hkind =>
          rw [if_neg hkind] at hread
          split at htype
          next hkind =>
            rw [if_pos hkind] at hread
            cases htype
            exact ty_of_readString hread
          · cases htype

theorem literal_ok (h : Clean (literal t) c τ c') :
    c' = c ∧ ∃ source l, Literal.source t = .ok source ∧ Literal.read source = .ok l ∧ l.ty = τ := by
  obtain ⟨source, hsource, h⟩ := clean_lift_bind.mp h
  dsimp only at h
  split at h
  · exact absurd h clean_report_bind
  next type htype =>
    split at h
    next l hread =>
      obtain ⟨rfl, rfl⟩ := clean_pure.mp h
      exact ⟨rfl, source, l, hsource, hread, ty_of_read htype hread⟩
    · exact absurd h clean_report_bind

theorem path_ok (h : Clean (path t) c τ c') :
    c' = c ∧ ∃ name, t.name = .ok name ∧ c.scopes.lookup? name = some τ := by
  obtain ⟨name, hname, h⟩ := clean_lift_bind.mp h
  rw [clean_get_bind] at h
  split at h
  next type hlookup =>
    obtain ⟨rfl, rfl⟩ := clean_pure.mp h
    exact ⟨rfl, name, hname, hlookup⟩
  · exact absurd h clean_report_bind

theorem binary_ok {left right : Ty} {op : Text} (h : Clean (binary left right op) c τ c') :
    c' = c ∧ BinaryTyped op left right τ := by
  unfold binary at h
  split at h
  next hop =>
    simp only [clean_bind, clean_require, clean_pure] at h
    obtain ⟨_, _, ⟨hleft, rfl⟩, _, _, ⟨hright, rfl⟩, rfl, rfl⟩ := h
    exact ⟨rfl, .arithmetic hop hleft hright⟩
  split at h
  next hop =>
    simp only [clean_bind, clean_require, clean_pure] at h
    obtain ⟨_, _, ⟨hleft, rfl⟩, _, _, ⟨hright, rfl⟩, rfl, rfl⟩ := h
    obtain rfl := Ty.isBool_iff.mp hleft
    obtain rfl := Ty.isBool_iff.mp hright
    exact ⟨rfl, .lazy hop⟩
  split at h
  next hop =>
    split at h
    next hbool =>
      obtain ⟨rfl, rfl⟩ := hbool
      obtain ⟨rfl, rfl⟩ := clean_pure.mp h
      exact ⟨rfl, .truths hop⟩
    split at h
    next hint =>
      obtain ⟨rfl, rfl⟩ := hint
      obtain ⟨rfl, rfl⟩ := clean_pure.mp h
      exact ⟨rfl, .bits hop⟩
    · exact absurd h clean_report_bind
  split at h
  next hop =>
    simp only [clean_bind, clean_require, clean_pure, Bool.and_eq_true, decide_eq_true_eq] at h
    obtain ⟨_, _, ⟨⟨rfl, rfl⟩, rfl⟩, rfl, rfl⟩ := h
    exact ⟨rfl, .shift hop⟩
  · exact absurd h clean_report_bind

theorem operation_ok (hoperands : t.operands = .ok [a, b]) (h : Clean (operation visit t) c τ c') :
    ∃ left right op c₁, Clean (visit a) c left c₁ ∧ Clean (visit b) c₁ right c' ∧ t.operator = .ok op ∧
      BinaryTyped op left right τ := by
  obtain ⟨_, hoperands', h⟩ := clean_lift_bind.mp h
  cases hoperands.symm.trans hoperands'
  simp only [clean_bind, clean_lift] at h
  obtain ⟨left, c₁, ha, right, c₂, hb, op, _, ⟨hop, rfl⟩, h⟩ := h
  obtain ⟨rfl, htyped⟩ := binary_ok h
  exact ⟨left, right, op, c₁, ha, hb, hop, htyped⟩

theorem ordered_of_complaint {left right : Ty} (h : orderComplaint? left right = none) :
    left.isNumeric = true ∧ right.isNumeric = true ∨ left = .char ∧ right = .char := by
  unfold orderComplaint? at h
  split at h
  next hnumeric => exact .inl (Bool.and_eq_true_iff.mp hnumeric)
  split at h
  next hchar => exact .inr hchar
  split at h <;> cases h

theorem comparison_ok (hoperands : t.operands = .ok [a, b]) (h : Clean (comparison visit t) c τ c') :
    ∃ left right op c₁, Clean (visit a) c left c₁ ∧ Clean (visit b) c₁ right c' ∧ t.operator = .ok op ∧
      BinaryTyped op left right τ := by
  obtain ⟨_, hoperands', h⟩ := clean_lift_bind.mp h
  cases hoperands.symm.trans hoperands'
  obtain ⟨left, c₁, right, c₂, ha, hb, h⟩ := h.bind₂ inferInstance inferInstance fun _ _ =>
    .bind inferInstance fun _ => by
      dsimp only
      split
      · infer_instance
      · split
        · split <;> infer_instance
        · infer_instance
  obtain ⟨op, hop, h⟩ := clean_lift_bind.mp h
  suffices h : c' = c₂ ∧ BinaryTyped op left right τ from ⟨left, right, op, c₁, ha, h.1 ▸ hb, hop, h.2⟩
  dsimp only at h
  split at h
  next hequality =>
    simp only [clean_bind, clean_require, clean_pure] at h
    obtain ⟨_, _, ⟨-, rfl⟩, rfl, rfl⟩ := h
    exact ⟨rfl, .equality hequality⟩
  split at h
  next horder =>
    split at h
    next hcomplaint =>
      obtain ⟨rfl, rfl⟩ := clean_pure.mp h
      exact ⟨rfl, .order horder (ordered_of_complaint hcomplaint)⟩
    · exact absurd h clean_report_bind
  · exact absurd h clean_report_bind

theorem negation_ok (h : Clean (negation visit t) c τ c') :
    Clean (visit t.last) c τ c' ∧ ∃ op, t.operator = .ok op ∧ UnaryTyped op τ := by
  simp only [negation, clean_bind, clean_lift] at h
  obtain ⟨type, c₁, hlast, op, _, ⟨hop, rfl⟩, h⟩ := h
  split at h
  next hcomplement =>
    simp only [clean_bind, clean_require, clean_pure, Bool.or_eq_true, decide_eq_true_eq] at h
    obtain ⟨_, _, ⟨htype, rfl⟩, rfl, rfl⟩ := h
    exact ⟨hlast, op, hop, hcomplement ▸ .complement (htype.imp_left Ty.isBool_iff.mp)⟩
  split at h
  next hnegation =>
    simp only [clean_bind, clean_require, clean_pure] at h
    obtain ⟨_, _, ⟨htype, rfl⟩, rfl, rfl⟩ := h
    exact ⟨hlast, op, hop, hnegation ▸ .negation htype⟩
  · exact absurd h clean_report_bind

theorem branches_ok (h : Clean (branches visit a (some b)) c τ c') :
    ∃ c₁ c₂ c₃, Clean (visit a) c τ c₁ ∧ Same c₁ c₂ ∧ Clean (visit b) c₂ τ c₃ ∧ Same c₃ c' := by
  unfold branches at h
  rw [clean_get_bind] at h
  simp only [clean_bind, clean_get, clean_onScopes, clean_require, clean_pure, decide_eq_true_eq] at h
  obtain ⟨thenType, c₁, ha, _, _, ⟨rfl, rfl⟩, _, c₂, rfl, elseType, c₃, hb, _, _, ⟨rfl, rfl⟩, _, _, rfl, rfl, rfl⟩ := h
  refine ⟨_, _, _, ha, ?_, hb, ?_⟩ <;> exact ⟨rfl, rfl, rfl⟩

theorem conditional_ok {condition : Tree} (hoperands : t.operands = .ok [condition, a, b])
    (h : Clean (conditional visit t) c τ c') :
    ∃ c₁ c₂ c₃ c₄, Clean (visit condition) c .bool c₁ ∧ Clean (visit a) c₁ τ c₂ ∧ Same c₂ c₃ ∧
      Clean (visit b) c₃ τ c₄ ∧ Same c₄ c' := by
  obtain ⟨_, hoperands', h⟩ := clean_lift_bind.mp h
  cases hoperands.symm.trans hoperands'
  simp only [clean_bind, clean_require] at h
  obtain ⟨type, c₁, hcondition, _, _, ⟨hbool, rfl⟩, h⟩ := h
  obtain rfl := Ty.isBool_iff.mp hbool
  obtain ⟨c₂, c₃, c₄, h⟩ := branches_ok h
  exact ⟨_, c₂, c₃, c₄, hcondition, h⟩

theorem loop_ok {condition : Tree} (hoperands : t.operands = .ok [condition, a]) (h : Clean (loop visit t) c τ c') :
    τ = .unit ∧ ∃ υ c₁ c₂ c₃, Clean (visit condition) c .bool c₁ ∧ Same c₁ c₂ ∧ Clean (visit a) c₂ υ c₃ ∧
      Same c₃ c' := by
  obtain ⟨_, hoperands', h⟩ := clean_lift_bind.mp h
  cases hoperands.symm.trans hoperands'
  simp only [clean_bind, clean_require, clean_modify, clean_pure] at h
  obtain ⟨type, c₁, hcondition, _, _, ⟨hbool, rfl⟩, _, _, rfl, υ, c₃, hbody, _, _, rfl, rfl, rfl⟩ := h
  obtain rfl := Ty.isBool_iff.mp hbool
  refine ⟨rfl, υ, _, _, c₃, hcondition, ?_, hbody, ?_⟩ <;> exact ⟨rfl, rfl, rfl⟩

theorem compareArguments_ok {parameters got : List Ty} {number : Nat} {u : Unit}
    (hlength : got.length = parameters.length) (h : Clean (compareArguments parameters got number) c u c') :
    got = parameters ∧ c' = c := by
  induction parameters generalizing got number with
  | nil =>
    obtain rfl := List.length_eq_zero_iff.mp hlength
    exact ⟨rfl, (clean_pure.mp h).2⟩
  | cons p ps ih =>
    cases got with
    | nil => cases hlength
    | cons τ got =>
      simp only [compareArguments, clean_bind, clean_require, decide_eq_true_eq] at h
      obtain ⟨_, _, ⟨rfl, rfl⟩, h⟩ := h
      obtain ⟨rfl, rfl⟩ := ih (Nat.succ.inj hlength) h
      exact ⟨rfl, rfl⟩

theorem call_ok {callee : Tree} {arguments : List Tree} (hoperands : t.operands = .ok (callee :: arguments))
    (h : Clean (call visit t) c τ c') :
    ∃ parameters c₁, Clean (visit callee) c (.function parameters τ) c₁ ∧ Clean (all visit arguments) c₁ parameters c' := by
  obtain ⟨_, hoperands', h⟩ := clean_lift_bind.mp h
  cases hoperands.symm.trans hoperands'
  obtain ⟨type, c₁, got, c₂, hcallee, harguments, h⟩ := h.bind₂ inferInstance inferInstance fun _ _ => by
    split <;> infer_instance
  split at h
  next parameters result =>
    split at h
    next hlength =>
      simp only [clean_bind, clean_pure] at h
      obtain ⟨_, _, hcompare, rfl, rfl⟩ := h
      obtain ⟨rfl, rfl⟩ := compareArguments_ok hlength hcompare
      exact ⟨got, c₁, hcallee, harguments⟩
    · exact absurd h clean_report_bind
  · exact absurd h clean_report_bind

theorem returning_ok (h : Clean (returning visit t) c τ c') :
    Clean (visit t.last) c τ c' ∧ ∃ f fs, c'.functions = f :: fs ∧ (f.name = "main" ∨ τ = f.result) := by
  obtain ⟨type, c₁, hlast, h⟩ := h.bind inferInstance fun _ => .bind inferInstance fun _ => by
    split <;> infer_instance
  rw [clean_get_bind] at h
  split at h
  · exact absurd h clean_report_bind
  next f fs hfunctions =>
    simp only [clean_bind, clean_require, clean_pure, Bool.or_eq_true, decide_eq_true_eq] at h
    obtain ⟨_, _, ⟨hresult, rfl⟩, rfl, rfl⟩ := h
    exact ⟨hlast, f, fs, hfunctions, hresult⟩

theorem dereference_ok (h : Clean (dereference visit t) c τ c') :
    ∃ mutable, Clean (visit t.last) c (.reference τ mutable) c' := by
  obtain ⟨type, c₁, hlast, h⟩ := h.bind inferInstance fun _ => by split <;> infer_instance
  split at h
  next target mutable =>
    obtain ⟨rfl, rfl⟩ := clean_pure.mp h
    exact ⟨mutable, hlast⟩
  · exact absurd h clean_report_bind

theorem borrow_ok (h : Clean (borrow visit t) c τ c') :
    ∃ υ mutable, Clean (visit t.last) c υ c' ∧ t.isMutable = .ok mutable ∧ τ = .reference υ mutable := by
  unfold borrow at h
  dsimp only at h
  split at h
  · simp only [clean_bind, clean_lift] at h
    obtain ⟨mutable, _, ⟨hmutable, rfl⟩, υ, c₁, hlast, h⟩ := h
    refine ⟨υ, mutable, ?_⟩
    suffices h : c' = c₁ ∧ τ = .reference υ mutable from ⟨h.1 ▸ hlast, hmutable, h.2⟩
    split at h
    · simp only [clean_bind, clean_lift] at h
      obtain ⟨form, _, ⟨-, rfl⟩, h⟩ := h
      split at h
      · simp only [clean_bind, clean_lift, clean_get, clean_require, clean_pure] at h
        obtain ⟨name, _, ⟨-, rfl⟩, _, _, ⟨rfl, rfl⟩, _, _, ⟨-, rfl⟩, rfl, rfl⟩ := h
        exact ⟨rfl, rfl⟩
      · exact (clean_pure.mp h).symm
    · exact (clean_pure.mp h).symm
  · exact absurd h clean_malformed

/-- A store into a variable or through a reference. -/
theorem store_ok {target : Tree} {value : Ty} {plain : Bool} {u : Unit}
    (h : Clean (store visit target value plain) c u c') :
    ((target.form = .ok .path ∨ target.form = .ok .identifier) ∧ Same c c' ∧
      ∃ name, target.name = .ok name ∧ c.scopes.lookup? name = some value) ∨
    (target.form = .ok .dereference ∧ Clean (visit target.last) c (.reference value true) c') := by
  obtain ⟨form, hform, h⟩ := clean_lift_bind.mp h
  split at h
  case h_1 | h_2 =>
    refine .inl ⟨by simp [hform], ?_⟩
    obtain ⟨name, hname, h⟩ := clean_lift_bind.mp h
    rw [clean_get_bind] at h
    split at h
    · exact absurd h clean_report
    next declared hdeclared =>
      simp only [clean_get_bind] at h
      split at h
      · simp only [clean_bind, clean_onScopes, clean_require, decide_eq_true_eq] at h
        obtain ⟨_, _, rfl, rfl, rfl⟩ := h
        exact ⟨Same.settle _ _, name, hname, hdeclared⟩
      · simp only [clean_bind, clean_require, decide_eq_true_eq] at h
        obtain ⟨_, _, ⟨-, rfl⟩, rfl, rfl⟩ := h
        exact ⟨.refl _, name, hname, hdeclared⟩
  case h_3 =>
    obtain ⟨type, c₁, hlast, h⟩ := h.bind inferInstance fun _ => by split <;> infer_instance
    split at h
    next goal mutable =>
      simp only [clean_bind, clean_require, decide_eq_true_eq] at h
      obtain ⟨_, _, ⟨rfl, rfl⟩, rfl, rfl⟩ := h
      exact .inr ⟨hform, hlast⟩
    · exact absurd h clean_report
  case h_4 => exact absurd h clean_report

theorem assignment_ok {target value : Tree} (hoperands : t.operands = .ok [target, value])
    (h : Clean (assignment visit t) c τ c') :
    τ = .unit ∧ ∃ type c₁, Clean (visit value) c type c₁ ∧ Clean (store visit target.unwrapped type true) c₁ () c' := by
  obtain ⟨_, hoperands', h⟩ := clean_lift_bind.mp h
  cases hoperands.symm.trans hoperands'
  simp only [clean_bind, clean_pure] at h
  obtain ⟨type, c₁, hvalue, _, _, hstore, rfl, rfl⟩ := h
  exact ⟨rfl, type, c₁, hvalue, hstore⟩

theorem compoundAssignment_ok {target value : Tree} (hoperands : t.operands = .ok [target, value])
    (h : Clean (compoundAssignment visit t) c τ c') :
    τ = .unit ∧ ∃ written op left right result c₁ c₂, t.operator = .ok written ∧ compoundOperator? written = some op ∧
      Clean (visit target.unwrapped) c left c₁ ∧ Clean (visit value) c₁ right c₂ ∧ BinaryTyped op left right result ∧
      Clean (store visit target.unwrapped result false) c₂ () c' := by
  obtain ⟨_, hoperands', h⟩ := clean_lift_bind.mp h
  cases hoperands.symm.trans hoperands'
  obtain ⟨written, hwritten, h⟩ := clean_lift_bind.mp h
  cases hop : compoundOperator? written with
  | none =>
    rw [hop] at h
    exact absurd h clean_malformed
  | some op =>
    rw [hop] at h
    simp only [clean_bind, clean_pure] at h
    obtain ⟨left, c₁, htarget, right, c₂, hvalue, result, _, hbinary, _, _, hstore, rfl, rfl⟩ := h
    obtain ⟨rfl, htyped⟩ := binary_ok hbinary
    exact ⟨rfl, written, op, left, right, result, c₁, _, hwritten, hop, htarget, hvalue, htyped, hstore⟩

/-! ## Statements and items -/

theorem ascription_ok {owner : Text} {written : Option Tree} (h : Clean (ascription owner written) c τ c') : c' = c := by
  unfold ascription at h
  split at h
  · exact absurd h clean_report_bind
  · split at h
    · exact (clean_pure.mp h).2
    · exact absurd h clean_report_bind

/-- A name is declared with a type. -/
def Declares (name : Text) (type : Ty) (c c' : Checker) : Prop :=
  ∃ binding : Binding, binding.type = type ∧ Same { c with scopes := c.scopes.bind name binding } c'

theorem Declares.define (c : Checker) (name : Text) (type : Ty) (mutable : Bool) :
    Declares name type c { c with scopes := c.scopes.define name type mutable } :=
  ⟨{ type, mutable, serial := c.scopes.declared }, rfl, .refl _⟩

theorem letStatement_ok (h : Clean (letStatement visit t) c τ c') :
    τ = .unit ∧ ∃ name, t.name = .ok name ∧
      ((t.initializer = .ok none ∧ ∃ type, Declares name type c c') ∨
        ∃ e type c₁, t.initializer = .ok (some e) ∧ Clean (visit e) c type c₁ ∧ Declares name type c₁ c') := by
  obtain ⟨name, hname, h⟩ := clean_lift_bind.mp h
  obtain ⟨mutable, -, h⟩ := clean_lift_bind.mp h
  obtain ⟨written, -, h⟩ := clean_lift_bind.mp h
  dsimp only at h
  cases written with
  | none =>
    rw [pure_bind] at h
    obtain ⟨initial, hinitial, h⟩ := clean_lift_bind.mp h
    cases initial with
    | none =>
      simp only [clean_bind, clean_require, Option.isSome_none, Bool.false_eq_true, false_and, exists_false] at h
    | some e =>
      simp only [clean_bind, clean_define, clean_pure] at h
      obtain ⟨got, c₁, he, _, _, rfl, rfl, rfl⟩ := h
      exact ⟨rfl, name, hname, .inr ⟨e, got, c₁, hinitial, he, .define _ _ _ _⟩⟩
  | some written =>
    obtain ⟨type, c₀, hwritten, hrest⟩ := h.bind inferInstance fun _ => .bind inferInstance fun declared =>
      .bind inferInstance fun initial => by
        split
        · exact .bind inferInstance fun _ => by split <;> infer_instance
        · infer_instance
    obtain rfl := ascription_ok hwritten
    rw [pure_bind] at hrest
    obtain ⟨initial, hinitial, h⟩ := clean_lift_bind.mp hrest
    cases initial with
    | none =>
      simp only [clean_bind, clean_require, clean_get, clean_onScopes, clean_pure] at h
      obtain ⟨_, _, ⟨-, rfl⟩, _, _, ⟨rfl, rfl⟩, _, _, rfl, rfl, rfl⟩ := h
      exact ⟨rfl, name, hname, .inl ⟨hinitial, type, _, rfl, ⟨rfl, rfl, rfl⟩⟩⟩
    | some e =>
      simp only [clean_bind, clean_require, clean_define, clean_pure, decide_eq_true_eq] at h
      obtain ⟨got, c₁, he, _, _, ⟨rfl, rfl⟩, _, _, rfl, rfl, rfl⟩ := h
      exact ⟨rfl, name, hname, .inr ⟨e, _, _, hinitial, he, .define _ _ _ _⟩⟩

theorem expressionStatement_ok (h : Clean (expressionStatement visit t) c τ c') :
    ∃ type, Clean (visit t.last) c type c' ∧ τ = if Form.ofTag t.last.tag = .returning then type else .unit := by
  simp only [expressionStatement, clean_bind, clean_pure] at h
  obtain ⟨type, _, hlast, rfl, rfl⟩ := h
  exact ⟨type, hlast, rfl⟩

omit [∀ t, Appends (visit t)] in
theorem block_ok (hitems : t.childrenOf .function = .ok []) (h : Clean (block visit t) c τ c') :
    ∃ c₁, Clean (blockItems visit t.children [] .unit) { c with scopes := c.scopes.enter } τ c₁ ∧
      c' = { c₁ with scopes := c₁.scopes.exit } := by
  obtain ⟨c₁, hinside, rfl⟩ := h.inScope
  obtain ⟨_, hitems', hinside⟩ := clean_lift_bind.mp hinside
  cases hitems.symm.trans hitems'
  exact ⟨c₁, hinside, rfl⟩

theorem blockItems_cons {f : Form} (hform : t.form = .ok f) (hf : f ≠ .function) {rest : List Tree} {last : Ty} :
    Clean (blockItems visit (t :: rest) [] last) c τ c' ↔
      ∃ type c₁, Clean (visit t) c type c₁ ∧ Clean (blockItems visit rest [] type) c₁ τ c' := by
  rw [blockItems, clean_lift_bind]
  constructor
  · rintro ⟨_, hform', h⟩
    cases hform.symm.trans hform'
    rw [if_neg hf] at h
    exact clean_bind.mp h
  · intro h
    refine ⟨f, hform, ?_⟩
    rw [if_neg hf]
    exact clean_bind.mpr h

theorem parameterTypes_ok {ps : List Tree} {τs : List Ty} (h : Clean (parameterTypes ps) c τs c') :
    c' = c ∧ τs.length = ps.length := by
  induction ps generalizing c τs with
  | nil =>
    obtain ⟨rfl, rfl⟩ := clean_pure.mp h
    exact ⟨rfl, rfl⟩
  | cons p rest ih =>
    simp only [parameterTypes, clean_bind, clean_lift, clean_pure] at h
    obtain ⟨_, _, ⟨-, rfl⟩, _, _, ⟨-, rfl⟩, type, _, htype, types, _, htypes, rfl, rfl⟩ := h
    obtain ⟨rfl, hlength⟩ := ih htypes
    exact ⟨ascription_ok htype, congrArg (· + 1) hlength⟩

theorem signature_ok {s : Signature} (h : Clean (signature t) c s c') :
    c' = c ∧ ∃ ps, t.parametersOf = .ok ps ∧ s.parameters.length = ps.length := by
  obtain ⟨ps, hps, h⟩ := clean_lift_bind.mp h
  obtain ⟨types, c₁, htypes, hrest⟩ := h.bind inferInstance fun _ => .bind inferInstance fun _ => by
    split <;> infer_instance
  obtain ⟨rfl, hlength⟩ := parameterTypes_ok htypes
  obtain ⟨written, -, hresult⟩ := clean_lift_bind.mp hrest
  cases written with
  | none =>
    obtain ⟨rfl, rfl⟩ := clean_pure.mp hresult
    exact ⟨rfl, ps, hps, hlength⟩
  | some written =>
    simp only [clean_bind, clean_lift, clean_pure] at hresult
    obtain ⟨_, _, ⟨-, rfl⟩, result, _, hwritten, rfl, rfl⟩ := hresult
    exact ⟨ascription_ok hwritten, ps, hps, hlength⟩

/-- A function whose body has its result type, unless the program starts at it. -/
theorem function_ok {s : Signature} {u : Unit} (h : Clean (function visit t s) c u c') :
    ∃ name body ps got c₁ c₂, t.name = .ok name ∧ t.child .block = .ok (some body) ∧ t.parametersOf = .ok ps ∧
      Clean (declareParameters (ps.zip s.parameters)) { c with scopes := c.scopes.enter } () c₁ ∧
      Clean (visit body) { c₁ with functions := ⟨name, s.result⟩ :: c₁.functions } got c₂ ∧
      c' = { c₂ with functions := c₂.functions.drop 1, scopes := c₂.scopes.exit } ∧
      (name = "main" ∨ got = s.result) := by
  obtain ⟨name, hname, h⟩ := clean_lift_bind.mp h
  obtain ⟨body, hbody, h⟩ := clean_lift_bind.mp h
  cases body with
  | none => exact absurd h clean_report
  | some body =>
    simp only [clean_bind, clean_onScopes, clean_lift, clean_modify, clean_require, Bool.or_eq_true,
      decide_eq_true_eq] at h
    obtain ⟨_, _, rfl, ps, _, ⟨hps, rfl⟩, _, c₁, hdeclare, _, _, rfl, got, c₂, hvisit, _, _, rfl, hresult, rfl⟩ := h
    exact ⟨name, body, ps, got, c₁, c₂, hname, hbody, hps, hdeclare, hvisit, rfl, hresult⟩

end Rules

end Check

end Tenure
