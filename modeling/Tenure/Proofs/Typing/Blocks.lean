import Tenure.Proofs.Typing.Expressions

/-!
# Types of blocks

The statements of a block declare their names one after the other, and each gets the next slot of the frame of the block.
`Declaring` says what a sequence of statements adds: the types of the slots that it declares, and a term that is well typed
in every frame in which these slots have these types, whatever follows them.
-/

set_option autoImplicit false

namespace Tenure

open Check (Clean Appends Same)

/-- Slots of names that are declared. -/
def declaredSlots (names : List Text) : List Slot := names.map fun name => ⟨name, true⟩

/-- Slots of names that are not declared yet. -/
def hiddenSlots (names : List Text) : List Slot := names.map fun name => ⟨name, false⟩

theorem hiddenSlots_hidden {names : List Text} : ∀ s ∈ hiddenSlots names, s.declared = false := by
  simp [hiddenSlots]

/-- A frame in which nothing is declared yet. -/
theorem Agrees.enter_frame {s : Scopes} {p : Places} {Γ : Context} (h : Agrees s p Γ) :
    Agrees s.enter (p ++ [declaredSlots []]) (Γ ++ [([] : List Ty).map some]) := h.enter

/-- The next slot of a frame is the first of its name that is not declared. -/
theorem firstUndeclared?_slots (done rest : List Text) (name : Text) :
    Places.firstUndeclared? name (declaredSlots done ++ hiddenSlots (name :: rest)) = some done.length := by
  induction done with
  | nil => simp [declaredSlots, hiddenSlots, Places.firstUndeclared?]
  | cons first done ih =>
    simp only [declaredSlots, List.map_cons, List.cons_append, Places.firstUndeclared?, Bool.true_eq_false, and_false,
      if_false, List.length_cons] at ih ⊢
    rw [ih]
    rfl

/-- Declaring the next slot of the innermost frame. -/
theorem declare_slots (q : Places) (done rest : List Text) (name : Text) :
    Places.declare (q ++ [declaredSlots done ++ hiddenSlots (name :: rest)]) done.length =
      q ++ [declaredSlots (done ++ [name]) ++ hiddenSlots rest] := by
  have hmodify : (declaredSlots done ++ hiddenSlots (name :: rest)).modify done.length
      (fun s => { s with declared := true }) = declaredSlots (done ++ [name]) ++ hiddenSlots rest := by
    induction done with
    | nil => simp [declaredSlots, hiddenSlots]
    | cons first done ih =>
      simp only [declaredSlots, List.map_cons, List.cons_append, List.length_cons, List.modify_succ_cons] at ih ⊢
      rw [ih]
  simp [Places.declare, Places.innermost, hmodify]

/-- What statements add to a block in which some names are declared already: further names with their types, and a
term. -/
structure Declaring (f : Enclosing) (c c' : Checker) (q : Places) (done news : List Text) (x : Term 0) (more : List Ty) :
    Prop where
  length : more.length = news.length
  functions : c'.functions = c.functions
  outer : c'.scopes.inner.drop 1 = c.scopes.inner.drop 1
  global : c'.scopes.global = c.scopes.global
  inside : c'.scopes.inner ≠ []
  agrees : ∀ {Γ types}, types.length = done.length →
    Agrees c.scopes (q ++ [declaredSlots done]) (Γ ++ [types.map some]) →
    Agrees c'.scopes (q ++ [declaredSlots (done ++ news)]) (Γ ++ [(types ++ more).map some])
  typed : ∀ {Γ types} later, types.length = done.length →
    Agrees c.scopes (q ++ [declaredSlots done]) (Γ ++ [types.map some]) →
    x.Typed f.returns (Γ ++ [(types ++ more ++ later).map some]) []

namespace Declaring

variable {f : Enclosing} {c c₁ c₂ : Checker} {q : Places} {done news news' : List Text} {x y : Term 0}
  {more more' : List Ty}

theorem nothing (hinside : c.scopes.inner ≠ []) : Declaring f c c q done [] .nothing [] where
  length := rfl
  functions := rfl
  outer := rfl
  global := rfl
  inside := hinside
  agrees _ h := by simpa using h
  typed _ _ _ := .nothing

/-- Statements after statements. -/
theorem seq (hx : Declaring f c c₁ q done news x more) (hy : Declaring f c₁ c₂ q (done ++ news) news' y more') :
    Declaring f c c₂ q done (news ++ news') (.seq x y) (more ++ more') where
  length := by simp [hx.length, hy.length]
  functions := hy.functions.trans hx.functions
  outer := hy.outer.trans hx.outer
  global := hy.global.trans hx.global
  inside := hy.inside
  agrees {Γ types} hlength h := by
    have hlength' : (types ++ more).length = (done ++ news).length := by simp [hlength, hx.length]
    simpa using hy.agrees hlength' (hx.agrees hlength h)
  typed {Γ types} later hlength h := by
    have hlength' : (types ++ more).length = (done ++ news).length := by simp [hlength, hx.length]
    refine .seq ?_ ?_
    · simpa using hx.typed (more' ++ later) hlength h
    · simpa using hy.typed later hlength' (hx.agrees hlength h)

/-- Statements after one that declares nothing. -/
theorem seq_effect (hx : Declaring f c c₁ q done [] x []) (hy : Declaring f c₁ c₂ q done news y more) :
    Declaring f c c₂ q done news (.seq x y) more := by
  simpa using hx.seq (by simpa using hy)

/-- A value that is computed among statements and used for its effect. -/
theorem discard {p : Places} {rest : List Text} {v : Term 1} {τ : Ty} (hinside : c.scopes.inner ≠ [])
    (hp : p = q ++ [declaredSlots done ++ hiddenSlots rest]) (hv : Elaborates f c c₁ p v [τ]) :
    Declaring f c c₁ q done [] (.discard v) [] where
  length := rfl
  functions := hv.same.functions
  outer := by rw [hv.same.inner]
  global := hv.same.global
  inside := hv.same.inner ▸ hinside
  agrees _ h := by
    simpa using h.congr hv.same.lookup?
  typed later _ h := by
    subst hp
    exact .discard (hv.typed _ (by simpa using (h.undeclared hiddenSlots_hidden).mono later))

/-- A name is declared after a term has been checked. -/
theorem declare {name : Text} {type : Ty} (hinside : c.scopes.inner ≠ []) (hsame : Same c c₁)
    (hdeclares : Check.Declares name type c₁ c₂)
    (htyped : ∀ {Γ types} later, types.length = done.length →
      Agrees c.scopes (q ++ [declaredSlots done]) (Γ ++ [types.map some]) →
      x.Typed f.returns (Γ ++ [(types ++ type :: later).map some]) []) :
    Declaring f c c₂ q done [name] x [type] := by
  obtain ⟨b, rfl, hb⟩ := hdeclares
  obtain ⟨scope, scopes, hinner⟩ := List.exists_cons_of_ne_nil (hsame.inner ▸ hinside : c₁.scopes.inner ≠ [])
  have hinner' : c₂.scopes.inner = ((name, b) :: scope) :: scopes := by
    rw [hb.inner]
    simp [Scopes.bind, hinner]
  refine ⟨rfl, hb.functions.trans hsame.functions, ?_, ?_, by simp [hinner'], fun {Γ types} hlength h => ?_,
    fun {Γ types} later hlength h => by simpa using htyped later hlength h⟩
  · rw [hinner', ← hsame.inner, hinner]
    rfl
  · rw [hb.global, ← hsame.global]
    simp [Scopes.bind, hinner]
  · have hdeclare := (h.congr hsame.lookup?).declare (by simpa [declaredSlots] using hlength) name b
    simpa [declaredSlots] using hdeclare.congr hb.lookup?

end Declaring

section Statements

variable {check : Tree → Check Ty} [∀ t, Appends (check t)] {resolve : Resolve.Visit} {c c' : Checker} {q p' : Places}
  {x : Term 0} {τ : Ty} {f : Enclosing} {fs : List Enclosing} {t : Tree} {done rest : List Text} {name : Text}

theorem letStatement_declaring (hinitial : ∀ e, t.initializer = .ok (some e) → Corresponds check resolve e)
    (hf : c.functions = f :: fs) (hinside : c.scopes.inner ≠ []) (hname : t.name = .ok name)
    (hcheck : Clean (Check.letStatement check t) c τ c')
    (hresolve : Resolve.letStatement resolve t (q ++ [declaredSlots done ++ hiddenSlots (name :: rest)]) = some (x, p')) :
    τ = .unit ∧ p' = q ++ [declaredSlots (done ++ [name]) ++ hiddenSlots rest] ∧
      ∃ type, Declaring f c c' q done [name] x [type] := by
  obtain ⟨rfl, _, hname', hlet⟩ := Check.letStatement_ok hcheck
  cases hname.symm.trans hname'
  obtain ⟨_, hname'', hresolve⟩ := Resolve.lift_bind_some.mp hresolve
  cases hname.symm.trans hname''
  simp only [Resolve.bind_apply, Resolve.get_apply, Option.bind_some] at hresolve
  have hinnermost : Places.innermost (q ++ [declaredSlots done ++ hiddenSlots (name :: rest)]) =
      declaredSlots done ++ hiddenSlots (name :: rest) := by simp [Places.innermost]
  rw [hinnermost, firstUndeclared?_slots] at hresolve
  obtain ⟨initial, hinit, hresolve⟩ := Resolve.lift_bind_some.mp hresolve
  rcases hlet with ⟨hnone, type, hdeclares⟩ | ⟨e, type, c₁, hsome, he, hdeclares⟩
  · cases hnone.symm.trans hinit
    simp only [Resolve.bind_apply, Resolve.modify_apply, Option.bind_some, Resolve.pure_some, declare_slots] at hresolve
    obtain ⟨rfl, rfl⟩ := hresolve
    exact ⟨rfl, rfl, type, .declare hinside (.refl _) hdeclares fun _ _ _ => .nothing⟩
  · cases hsome.symm.trans hinit
    obtain ⟨y, _, hy, hresolve⟩ := Resolve.bind_some.mp hresolve
    obtain ⟨rfl, hely⟩ := hinitial e hsome hf he hy
    simp only [Resolve.bind_apply, Resolve.modify_apply, Option.bind_some, Resolve.pure_some, declare_slots] at hresolve
    obtain ⟨rfl, rfl⟩ := hresolve
    refine ⟨rfl, rfl, type, .declare hinside hely.same hdeclares fun {Γ types} later hlength h => ?_⟩
    refine .store ?_ (hely.typed _ ((h.undeclared hiddenSlots_hidden).mono _))
    have hframes : Γ.length = q.length := by simpa using h.length
    simp [Context.at?, hframes.symm, hlength.symm]

end Statements

/-! ## Statements -/

theorem Check.toDepth_of_form {t : Tree} {form : Form} (h : t.form = .ok form) (depth : Nat) :
    Check.toDepth (depth + 1) t = Check.rule (Check.toDepth depth) form t := by
  obtain ⟨tag, children, val, type, rfl, rfl⟩ := Tree.of_form h
  rfl

theorem Resolve.toDepth_of_form {t : Tree} {form : Form} (h : t.form = .ok form) (depth : Nat) :
    Resolve.toDepth (depth + 1) t = Resolve.rule (Resolve.toDepth depth) form t := by
  obtain ⟨tag, children, val, type, rfl, rfl⟩ := Tree.of_form h
  rfl

/-- Checking the expressions down to a depth corresponds to resolving them. -/
def CorrespondsTo (depth : Nat) : Prop :=
  ∀ t : Tree, t.Expression → t.height ≤ depth → ∀ fuel, Corresponds (Check.toDepth depth) (Resolve.toDepth fuel) t

/-- A statement form whose value is unit, if it is reached at all. -/
def Tree.IsEffect (t : Tree) : Prop := t.form = .ok .letStatement ∨ t.form = .ok .expressionStatement

section Statements

variable {depth fuel : Nat} {c c' : Checker} {q p p' : Places} {x : Term 0} {τ : Ty} {f : Enclosing}
  {fs : List Enclosing} {t : Tree} {done rest : List Text}

/-- A return is resolved to a return. -/
theorem returning_of_form {y : Term 1} (hform : t.form = .ok .returning)
    (hresolve : Resolve.toDepth fuel t p = some (y, p')) : ∃ v, y = .returning v := by
  cases fuel with
  | zero => cases hresolve
  | succ fuel =>
    rw [Resolve.toDepth_of_form hform, Resolve.rule, Resolve.returning] at hresolve
    split at hresolve
    all_goals
      obtain ⟨v, _, -, hresolve⟩ := Resolve.bind_some.mp hresolve
      obtain ⟨rfl, rfl⟩ := Resolve.pure_some.mp hresolve
      exact ⟨v, rfl⟩

/-- An expression for its effect, as a statement or not. -/
theorem effect_declaring (ih : ∀ depth' ≤ depth, CorrespondsTo depth') (hstatement : t.Statement)
    (hheight : t.height ≤ depth) (hlet : t.form ≠ .ok .letStatement) (hf : c.functions = f :: fs)
    (hinside : c.scopes.inner ≠ []) (hcheck : Clean (Check.toDepth depth t) c τ c')
    (hp : p = q ++ [declaredSlots done ++ hiddenSlots rest])
    (hresolve : Resolve.statement (Resolve.toDepth fuel) t p = some (x, p')) :
    p' = p ∧ Declaring f c c' q done [] x [] ∧ (t.IsEffect → τ = .unit ∨ x.diverges = true) := by
  obtain ⟨form, hform, hresolve⟩ := Resolve.lift_bind_some.mp hresolve
  cases hstatement with
  | letStatement hform' => exact absurd hform' hlet
  | @expressionStatement _ e hform' hchildren hexpression =>
    cases hform.symm.trans hform'
    have hlast := Tree.last_of_children hchildren
    obtain ⟨eform, heform, -⟩ := hexpression.form
    have hsmall : e.height < t.height := Tree.height_lt (hchildren ▸ List.mem_cons_self ..)
    obtain ⟨depth, rfl⟩ : ∃ k, depth = k + 1 := ⟨depth - 1, by omega⟩
    rw [Check.toDepth_of_form hform] at hcheck
    obtain ⟨type, hvisit, hτ⟩ := Check.expressionStatement_ok hcheck
    rw [hlast] at hvisit hτ
    dsimp only at hresolve
    rw [hlast, if_pos (Tree.isPresent_of_form heform)] at hresolve
    obtain ⟨y, _, hy, hresolve⟩ := Resolve.bind_some.mp hresolve
    obtain ⟨rfl, rfl⟩ := Resolve.pure_some.mp hresolve
    obtain ⟨rfl, hely⟩ := ih depth (Nat.le_succ _) e hexpression (by omega) fuel hf hvisit hy
    refine ⟨rfl, .discard hinside hp hely, fun _ => ?_⟩
    rw [Tree.ofTag_of_form heform] at hτ
    by_cases hreturning : eform = .returning
    · obtain ⟨v, rfl⟩ := returning_of_form (hreturning ▸ heform) hy
      exact .inr rfl
    · exact .inl (by rw [hτ, if_neg hreturning])
  | expression hexpression =>
    obtain ⟨form', hform', hitem⟩ := hexpression.form
    cases hform.symm.trans hform'
    obtain ⟨y, hy, rfl⟩ : ∃ y, Resolve.toDepth fuel t p = some (y, p') ∧ x = .discard y := by
      cases form <;> cases hitem
      all_goals
        obtain ⟨y, _, hy, hresolve⟩ := Resolve.bind_some.mp hresolve
        obtain ⟨rfl, rfl⟩ := Resolve.pure_some.mp hresolve
        exact ⟨y, hy, rfl⟩
    obtain ⟨rfl, hely⟩ := ih depth (Nat.le_refl _) t hexpression hheight fuel hf hcheck hy
    refine ⟨rfl, .discard hinside hp hely, fun heffect => ?_⟩
    rcases heffect with h | h <;> cases hform.symm.trans h <;> cases hitem

/-- Statements introduce names, one for each let statement. -/
inductive Introduces : List Tree → List Text → Prop where
  | nil : Introduces [] []
  | letStatement {t : Tree} {name : Text} {ts : List Tree} {names : List Text} (hform : t.form = .ok .letStatement)
      (hname : t.name = .ok name) (hrest : Introduces ts names) : Introduces (t :: ts) (name :: names)
  | other {t : Tree} {ts : List Tree} {names : List Text} (hform : t.form ≠ .ok .letStatement)
      (hrest : Introduces ts names) : Introduces (t :: ts) names

theorem Tree.Statement.form (h : t.Statement) : ∃ form, t.form = .ok form ∧ form ≠ .function := by
  cases h with
  | letStatement hform => exact ⟨_, hform, by simp⟩
  | expressionStatement hform => exact ⟨_, hform, by simp⟩
  | expression hexpression =>
    obtain ⟨form, hform, hitem⟩ := hexpression.form
    refine ⟨form, hform, ?_⟩
    rintro rfl
    cases hitem

theorem Tree.Statement.initial (h : t.Statement) (hform : t.form = .ok .letStatement) :
    ∀ e, t.initializer = .ok (some e) → e.Expression := by
  cases h with
  | letStatement _ hinitial => exact hinitial
  | expressionStatement hform' => cases hform.symm.trans hform'
  | expression hexpression =>
    obtain ⟨_, hform', hitem⟩ := hexpression.form
    cases hform.symm.trans hform'
    cases hitem

/-- The declarations of a block without functions are the names that its statements introduce. -/
theorem introduces_of_declarations {ts : List Tree} (hts : ∀ t ∈ ts, t.Statement) {declared : List (Text × Bool)}
    (h : Compile.declarations ts = .ok declared) :
    ∃ names, Introduces ts names ∧ declared = names.map fun name => (name, true) := by
  induction ts generalizing declared with
  | nil =>
    cases h
    exact ⟨[], .nil, rfl⟩
  | cons t rest ih =>
    obtain ⟨form, hform, hfunction⟩ := (hts t (List.mem_cons_self ..)).form
    have hrest := fun t ht => hts t (List.mem_cons_of_mem _ ht)
    by_cases hlet : form = .letStatement
    · subst hlet
      simp only [Compile.declarations, hform, bind, Except.bind, pure, Except.pure] at h
      cases hname : t.name with
      | error e => simp [hname] at h
      | ok name =>
        cases hds : Compile.declarations rest with
        | error e => simp [hname, hds] at h
        | ok ds =>
          simp only [hname, hds, Except.ok.injEq] at h
          obtain ⟨names, hnames, rfl⟩ := ih hrest hds
          exact ⟨name :: names, .letStatement hform hname hnames, h.symm⟩
    · have hsame : Compile.declarations (t :: rest) = Compile.declarations rest := by
        simp only [Compile.declarations, hform, bind, Except.bind]
      obtain ⟨names, hnames, hdeclared⟩ := ih hrest (hsame.symm.trans h)
      exact ⟨names, .other (by simpa [hform] using hlet) hnames, hdeclared⟩

theorem Introduces.dropLast {ts : List Tree} {names : List Text} (h : Introduces (ts ++ [t]) names)
    (hform : t.form ≠ .ok .letStatement) : Introduces ts names := by
  induction ts generalizing names with
  | nil =>
    cases h with
    | letStatement hform' => exact absurd hform' hform
    | other _ hrest => exact hrest
  | cons s ts ih =>
    cases h with
    | letStatement hform' hname hrest => exact .letStatement hform' hname (ih hrest)
    | other hform' hrest => exact .other hform' (ih hrest)

/-- Where the last of some statements is no expression, its type is unit or it is not completed. -/
theorem unit_or_diverges {ts : List Tree} {type : Ty} {y z : Term 0}
    (hfirst : t.IsEffect → type = .unit ∨ y.diverges = true)
    (hrest : (∀ s, ts.getLast? = some s → s.IsEffect) → (ts = [] ∧ τ = type) ∨ τ = .unit ∨ z.diverges = true)
    (hlast : ∀ s, (t :: ts).getLast? = some s → s.IsEffect) : τ = .unit ∨ (Term.seq y z).diverges = true := by
  have hts : ∀ s, ts.getLast? = some s → s.IsEffect := by
    intro s hs
    exact hlast s (by rw [List.getLast?_cons, hs]; rfl)
  rw [Term.diverges, Bool.or_eq_true]
  rcases hrest hts with ⟨rfl, rfl⟩ | hunit | hdiverges
  · exact (hfirst (hlast t rfl)).imp_right .inl
  · exact .inl hunit
  · exact .inr (.inr hdiverges)

/-- The statements of a block. Where the last of them is no expression, its type is unit or it is not completed. -/
theorem statements_declaring (ih : ∀ depth' ≤ depth, CorrespondsTo depth') {ts : List Tree} {names : List Text}
    (hnames : Introduces ts names) (hts : ∀ t ∈ ts, t.Statement ∧ t.height ≤ depth) {last : Ty}
    (hf : c.functions = f :: fs) (hinside : c.scopes.inner ≠ [])
    (hcheck : Clean (Check.blockItems (Check.toDepth depth) ts [] last) c τ c')
    (hresolve : Resolve.statements (Resolve.toDepth fuel) ts
      (q ++ [declaredSlots done ++ hiddenSlots (names ++ rest)]) = some (x, p')) :
    p' = q ++ [declaredSlots (done ++ names) ++ hiddenSlots rest] ∧ ∃ more, Declaring f c c' q done names x more ∧
      ((∀ t, ts.getLast? = some t → t.IsEffect) → (ts = [] ∧ τ = last) ∨ τ = .unit ∨ x.diverges = true) := by
  induction hnames generalizing c x done last with
  | nil =>
    obtain ⟨rfl, rfl⟩ := Check.clean_pure.mp hcheck
    obtain ⟨rfl, rfl⟩ := Resolve.pure_some.mp hresolve
    exact ⟨by simp, [], .nothing hinside, fun _ => .inl ⟨rfl, rfl⟩⟩
  | @letStatement t name ts names hform hname hrest ihrest =>
    simp only [Resolve.statements, Resolve.bind_some, Resolve.pure_some] at hresolve
    obtain ⟨y, _, hy, z, _, hz, rfl, rfl⟩ := hresolve
    obtain ⟨type, c₁, hvisit, hitems⟩ := (Check.blockItems_cons hform (by simp)).mp hcheck
    obtain ⟨hstatement, hheight⟩ := hts t (List.mem_cons_self ..)
    obtain ⟨depth, rfl⟩ : ∃ k, depth = k + 1 := by
      obtain ⟨tag, children, val, type, rfl, -⟩ := Tree.of_form hform
      rw [Tree.height] at hheight
      exact ⟨depth - 1, by omega⟩
    rw [Check.toDepth_of_form hform] at hvisit
    have hinitial : ∀ e, t.initializer = .ok (some e) →
        Corresponds (Check.toDepth depth) (Resolve.toDepth fuel) e := by
      intro e he
      have hsmall : e.height < t.height := Tree.height_lt (Tree.mem_of_firstWith he)
      exact ih depth (Nat.le_succ _) e (hstatement.initial hform e he) (by omega) fuel
    rw [Resolve.statement] at hy
    obtain ⟨_, hform', hy⟩ := Resolve.lift_bind_some.mp hy
    cases hform.symm.trans hform'
    obtain ⟨rfl, rfl, υ, hext⟩ := letStatement_declaring hinitial hf hinside hname hvisit hy
    obtain ⟨rfl, more, hext', hlast⟩ := ihrest (fun s hs => hts s (List.mem_cons_of_mem _ hs))
      (hext.functions.trans hf) hext.inside hitems hz
    exact ⟨by simp, _, hext.seq hext', fun hend => .inr (unit_or_diverges (fun _ => .inl rfl) hlast hend)⟩
  | @other t ts names hform hrest ihrest =>
    simp only [Resolve.statements, Resolve.bind_some, Resolve.pure_some] at hresolve
    obtain ⟨y, _, hy, z, _, hz, rfl, rfl⟩ := hresolve
    obtain ⟨hstatement, hheight⟩ := hts t (List.mem_cons_self ..)
    obtain ⟨form, hform', hfunction⟩ := hstatement.form
    obtain ⟨type, c₁, hvisit, hitems⟩ := (Check.blockItems_cons hform' hfunction).mp hcheck
    obtain ⟨rfl, hext, hfirst⟩ := effect_declaring ih hstatement hheight hform hf hinside hvisit rfl hy
    obtain ⟨rfl, more, hext', hlast⟩ := ihrest (fun s hs => hts s (List.mem_cons_of_mem _ hs))
      (hext.functions.trans hf) hext.inside hitems hz
    exact ⟨rfl, more, hext.seq_effect hext', fun hend => .inr (unit_or_diverges hfirst hlast hend)⟩

end Statements

/-! ## Blocks -/

section Blocks

variable {depth fuel : Nat} {c c' c₁ c₂ : Checker} {p p' : Places} {x : Term 1} {τ : Ty} {f : Enclosing}
  {fs : List Enclosing} {t e : Tree} {names : List Text}

theorem tail?_of_effect (hlast : ∀ s, t.children.getLast? = some s → s.IsEffect) : Compile.tail? t = none := by
  unfold Compile.tail?
  cases h : t.children.getLast? with
  | none => rfl
  | some s => rcases hlast s h with hform | hform <;> simp [Tree.ofTag_of_form hform]

theorem tail?_of_expression (hlast : t.children.getLast? = some e) (he : e.Expression) : Compile.tail? t = some e := by
  obtain ⟨form, hform, hitem⟩ := he.form
  simp only [Compile.tail?, hlast, Tree.ofTag_of_form hform]
  cases form <;> first | rfl | cases hitem

/-- A block in which statements have been checked and a value has been found. -/
theorem Declaring.block {body : Term 0} {value : Term 1} {more : List Ty}
    (hbody : Declaring f { c with scopes := c.scopes.enter } c₁ p [] names body more) (hsame : Same c₁ c₂)
    (hvalue : ∀ Γ, Agrees c.scopes p Γ → (Term.seq body value).Typed f.returns (Γ ++ [more.map some]) [τ]) :
    Elaborates f c { c₂ with scopes := c₂.scopes.exit } p (.scope names.length (.seq .nothing (.seq body value))) [τ] where
  same := by
    refine ⟨?_, hsame.global.trans hbody.global, hsame.functions.trans hbody.functions⟩
    show c₂.scopes.inner.drop 1 = c.scopes.inner
    rw [hsame.inner, hbody.outer]
    rfl
  typed Γ hΓ := by
    rw [← hbody.length]
    exact .scope (.seq .nothing (hvalue Γ hΓ))

/-- The last child of a block is checked after the others. -/
theorem blockItems_append {ts : List Tree} (hts : ∀ s ∈ ts ++ [e], s.Statement) {last : Ty}
    (h : Clean (Check.blockItems (Check.toDepth depth) (ts ++ [e]) [] last) c τ c') :
    ∃ type c₁, Clean (Check.blockItems (Check.toDepth depth) ts [] last) c type c₁ ∧
      Clean (Check.toDepth depth e) c₁ τ c' := by
  induction ts generalizing c last with
  | nil =>
    obtain ⟨form, hform, hfunction⟩ := (hts e (by simp)).form
    obtain ⟨type, c₁, hvisit, h⟩ := (Check.blockItems_cons hform hfunction).mp h
    obtain ⟨rfl, rfl⟩ := Check.clean_pure.mp h
    exact ⟨last, c, Check.clean_pure.mpr ⟨rfl, rfl⟩, hvisit⟩
  | cons s ts ih =>
    obtain ⟨form, hform, hfunction⟩ := (hts s (by simp)).form
    obtain ⟨type, c₁, hvisit, h⟩ := (Check.blockItems_cons hform hfunction).mp h
    obtain ⟨type', c₂, hitems, he⟩ := ih (fun s hs => hts s (List.mem_cons_of_mem _ hs)) h
    exact ⟨type', c₂, (Check.blockItems_cons hform hfunction).mpr ⟨type, c₁, hvisit, hitems⟩, he⟩

theorem functions_of_statements (hchildren : ∀ s ∈ t.children, s.Statement) : t.childrenOf .function = .ok [] := by
  refine Tree.select_none fun s hs => ?_
  obtain ⟨form, hform, hfunction⟩ := (hchildren s hs).form
  exact ⟨form, hform, by simpa using hfunction⟩

theorem select_statements {ts : List Tree} (hts : ∀ s ∈ ts, s.Statement) :
    Tree.select (· ≠ .function) ts = .ok ts := by
  refine Tree.select_all fun s hs => ?_
  obtain ⟨form, hform, hfunction⟩ := (hts s hs).form
  exact ⟨form, hform, by simpa using hfunction⟩

/-- The parts of a resolved block without functions: its statements in a frame of slots that are not declared yet, and its
value. -/
theorem block_parts {resolve : Resolve.Visit} (hchildren : ∀ s ∈ t.children, s.Statement)
    (hresolve : Resolve.block resolve t p = some (x, p')) :
    ∃ names body value p₁ p₂, Introduces t.children names ∧
      Resolve.statements resolve (if (Compile.tail? t).isSome then t.children.dropLast else t.children)
        (p ++ [hiddenSlots names]) = some (body, p₁) ∧
      (Compile.tail? t = none ∧ value = Resolve.unit ∧ p₂ = p₁ ∨
        ∃ e, Compile.tail? t = some e ∧ resolve e p₁ = some (value, p₂)) ∧
      p' = p₂.dropLast ∧ x = .scope names.length (.seq .nothing (.seq body value)) := by
  have hitems := functions_of_statements hchildren
  have hothers : Tree.select (· ≠ .function) (if (Compile.tail? t).isSome then t.children.dropLast else t.children) =
      .ok (if (Compile.tail? t).isSome then t.children.dropLast else t.children) := by
    refine select_statements fun s hs => hchildren s ?_
    split at hs
    · exact (List.dropLast_sublist _).subset hs
    · exact hs
  obtain ⟨declared, hdeclared, hresolve⟩ := Resolve.lift_bind_some.mp hresolve
  obtain ⟨names, hnames, rfl⟩ := introduces_of_declarations hchildren hdeclared
  have hframe : (names.map fun name => (name, true)).map (fun d => (⟨d.1, !d.2⟩ : Slot)) = hiddenSlots names := by
    simp [hiddenSlots]
  simp only [Resolve.bind_apply, Resolve.modify_apply, Option.bind_some, Resolve.lift_apply hitems, Resolve.functions,
    Resolve.pure_apply, Resolve.lift_apply hothers, hframe, Option.bind_eq_some_iff, List.length_map] at hresolve
  obtain ⟨⟨body, p₁⟩, hbody, hvalue⟩ := hresolve
  refine ⟨names, body, ?_⟩
  cases htail : Compile.tail? t with
  | none =>
    rw [htail] at hvalue hbody
    cases hvalue
    exact ⟨Resolve.unit, p₁, p₁, hnames, hbody, .inl ⟨rfl, rfl, rfl⟩, rfl, rfl⟩
  | some e =>
    rw [htail] at hvalue hbody
    obtain ⟨value, p₂, he, hrest⟩ := Resolve.bind_some.mp hvalue
    cases hrest
    exact ⟨value, p₁, p₂, hnames, hbody, .inr ⟨e, rfl, he⟩, rfl, rfl⟩

theorem block_typed (ih : ∀ depth' ≤ depth, CorrespondsTo depth')
    (hchildren : ∀ s ∈ t.children, s.Statement ∧ s.height ≤ depth) (hf : c.functions = f :: fs)
    (hcheck : Clean (Check.block (Check.toDepth depth) t) c τ c')
    (hresolve : Resolve.block (Resolve.toDepth fuel) t p = some (x, p')) : p' = p ∧ Elaborates f c c' p x [τ] := by
  have hstatements : ∀ s ∈ t.children, s.Statement := fun s hs => (hchildren s hs).1
  obtain ⟨c₁, hinside, rfl⟩ := Check.block_ok (functions_of_statements hstatements) hcheck
  obtain ⟨names, body, value, p₁, p₂, hnames, hbody, hvalue, rfl, rfl⟩ := block_parts hstatements hresolve
  have hinner : c.scopes.enter.inner ≠ [] := by simp [Scopes.enter]
  have hslots : p ++ [hiddenSlots names] = p ++ [declaredSlots [] ++ hiddenSlots (names ++ [])] := by simp [declaredSlots]
  rw [hslots] at hbody
  by_cases hlast : ∀ s, t.children.getLast? = some s → s.IsEffect
  · have htail := tail?_of_effect hlast
    rw [htail] at hbody hvalue
    obtain ⟨rfl, more, hext, hend⟩ := statements_declaring (c := { c with scopes := c.scopes.enter }) ih hnames hchildren
      hf hinner hinside hbody
    rcases hvalue with ⟨-, rfl, rfl⟩ | ⟨e, he, -⟩
    · refine ⟨by simp, hext.block (.refl _) fun Γ hΓ => ?_⟩
      have htyped := hext.typed [] rfl hΓ.enter_frame
      simp only [List.nil_append, List.append_nil] at htyped
      rcases hend hlast with ⟨-, rfl⟩ | rfl | hdiverges
      · exact .seq htyped (.constant .unit)
      · exact .seq htyped (.constant .unit)
      · exact .never htyped hdiverges
    · cases he
  · obtain ⟨e, he, heffect⟩ : ∃ e, t.children.getLast? = some e ∧ ¬ e.IsEffect := by simpa using hlast
    obtain ⟨init, hinit⟩ : ∃ init, t.children = init ++ [e] := by
      rw [List.getLast?_eq_some_iff] at he
      exact he
    have hexpression : e.Expression := by
      have hstatement := hstatements e (by simp [hinit])
      cases hstatement with
      | letStatement hform => exact absurd (.inl hform) heffect
      | expressionStatement hform => exact absurd (.inr hform) heffect
      | expression hexpression => exact hexpression
    have htail := tail?_of_expression he hexpression
    rw [htail] at hbody hvalue
    simp only [Option.isSome_some, if_true, hinit, List.dropLast_concat] at hbody
    rw [hinit] at hinside hstatements hnames
    obtain ⟨type, c₂, hitems, hvisit⟩ := blockItems_append hstatements hinside
    obtain ⟨rfl, more, hext, -⟩ := statements_declaring (c := { c with scopes := c.scopes.enter }) ih
      (hnames.dropLast fun h => heffect (.inl h)) (fun s hs => hchildren s (by simp [hinit, hs])) hf hinner hitems hbody
    rcases hvalue with ⟨hnone, -⟩ | ⟨_, hsome, hy⟩
    · cases hnone
    cases hsome
    obtain ⟨rfl, hely⟩ := ih depth (Nat.le_refl _) e hexpression (hchildren e (by simp [hinit])).2 fuel
      (hext.functions.trans hf) hvisit hy
    refine ⟨by simp, hext.block hely.same fun Γ hΓ => ?_⟩
    have htyped := hext.typed [] rfl hΓ.enter_frame
    have hdone := hext.agrees rfl hΓ.enter_frame
    simp only [List.nil_append, List.append_nil] at htyped hdone
    exact .seq htyped (hely.typed _ (by simpa [hiddenSlots] using hdone))

end Blocks

/-! ## All expressions -/

section Depth

variable {depth : Nat} {t : Tree}

theorem Tree.depth_of_form {form : Form} (hform : t.form = .ok form) (hheight : t.height ≤ depth) :
    ∃ k, depth = k + 1 := by
  obtain ⟨tag, children, val, type, rfl, -⟩ := Tree.of_form hform
  rw [Tree.height] at hheight
  exact ⟨depth - 1, by omega⟩

theorem findsVariable_self (hheight : t.height ≤ depth) : FindsVariable (Check.toDepth depth) t t := by
  intro c c' τ hform hcheck
  rcases hform with hform | hform
  all_goals
    obtain ⟨depth, rfl⟩ := Tree.depth_of_form hform hheight
    rw [Check.toDepth_of_form hform] at hcheck
    exact Check.path_ok hcheck

/-- A check of a variable in parentheses finds the type of the variable. -/
theorem findsVariable_ungroup (fuel : Nat) (hheight : t.height ≤ depth) :
    FindsVariable (Check.toDepth depth) t (t.ungroup fuel) := by
  induction fuel generalizing t depth with
  | zero => exact findsVariable_self hheight
  | succ fuel ih =>
    cases t with
    | absent => exact findsVariable_self hheight
    | node tag children val type =>
      rw [Tree.ungroup]
      split
      next hgroup =>
        intro c c' τ hform hcheck
        have hgrouped : (Tree.node tag children val type).form = .ok .grouped := congrArg Except.ok hgroup.1
        obtain ⟨depth, rfl⟩ := Tree.depth_of_form hgrouped hheight
        rw [Check.toDepth_of_form hgrouped] at hcheck
        have hlast := Tree.height_last hgrouped
        exact ih (by omega) hform hcheck
      · exact findsVariable_self hheight

theorem Tree.Expression.dereference (ht : t.Expression) (hform : t.form = .ok .dereference) :
    t.last.Expression ∧ t.last.height < t.height := by
  cases ht with
  | leaf h => rcases h with h | h <;> cases hform.symm.trans h
  | node h htakes hall =>
    cases hform.symm.trans h
    obtain ⟨e, he⟩ := List.length_eq_one_iff.mp htakes
    have hmem : e ∈ t.children := by simp [he]
    rw [Tree.last_of_children he]
    exact ⟨hall e hmem, Tree.height_lt hmem⟩
  | borrow h => cases hform.symm.trans h
  | block h => cases hform.symm.trans h

/-- Where the checker finds nothing in an expression, its term has the type that the checker has found. -/
theorem correspondsTo (depth : Nat) : CorrespondsTo depth := by
  induction depth using Nat.strong_induction_on with
  | _ depth ih =>
  intro t ht hheight fuel c c' p p' x τ f fs hf hcheck hresolve
  obtain ⟨form, hform, -⟩ := ht.form
  obtain ⟨depth, rfl⟩ := Tree.depth_of_form hform hheight
  cases fuel with
  | zero => cases hresolve
  | succ fuel =>
  rw [Check.toDepth_of_form hform] at hcheck
  rw [Resolve.toDepth_of_form hform] at hresolve
  have hbelow : ∀ e, e.Expression → e.height < t.height →
      Corresponds (Check.toDepth depth) (Resolve.toDepth fuel) e := fun e he hlt =>
    ih depth (Nat.lt_succ_self _) e he (by omega) fuel
  cases ht with
  | leaf h =>
    rcases h with h | h <;> cases hform.symm.trans h
    · exact literal_typed hcheck hresolve
    · exact path_typed hcheck hresolve
  | node h htakes hall =>
    cases hform.symm.trans h
    have hchild : ∀ e ∈ t.children, Corresponds (Check.toDepth depth) (Resolve.toDepth fuel) e := fun e he =>
      hbelow e (hall e he) (Tree.height_lt he)
    have hoperands := Tree.operands_of_expressions hall
    cases form <;> first | exact htakes.elim | skip
    case arithmetic | lazyBoolean =>
      obtain ⟨a, b, hab⟩ := List.length_eq_two.mp htakes
      rw [hab] at hchild hoperands
      exact binary_typed (hchild a (by simp)) (hchild b (by simp)) hf hoperands (Check.operation_ok hoperands hcheck)
        hresolve
    case comparison =>
      obtain ⟨a, b, hab⟩ := List.length_eq_two.mp htakes
      rw [hab] at hchild hoperands
      exact binary_typed (hchild a (by simp)) (hchild b (by simp)) hf hoperands (Check.comparison_ok hoperands hcheck)
        hresolve
    case negation =>
      obtain ⟨a, ha⟩ := List.length_eq_one_iff.mp htakes
      rw [ha] at hchild hoperands
      exact unary_typed (hchild a (by simp)) hf ha hoperands hcheck hresolve
    case grouped =>
      obtain ⟨a, ha⟩ := List.length_eq_one_iff.mp htakes
      rw [ha] at hchild
      have hlast := Tree.last_of_children ha
      simp only [Check.rule, hlast] at hcheck
      simp only [Resolve.rule, Resolve.group, hlast, ha, List.isEmpty_cons, Bool.false_eq_true, if_false] at hresolve
      exact hchild a (by simp) hf hcheck hresolve
    case other =>
      obtain ⟨a, ha⟩ := List.length_eq_one_iff.mp htakes
      rw [ha] at hchild
      simp only [Check.rule, ha, Check.inOrder, Check.clean_bind, Check.clean_pure] at hcheck
      obtain ⟨_, _, hcheck, rfl, rfl⟩ := hcheck
      simp only [Resolve.rule, Resolve.wrapper, ha] at hresolve
      exact hchild a (by simp) hf hcheck hresolve
    case conditional =>
      obtain ⟨condition, a, b, hab⟩ := List.length_eq_three.mp htakes
      rw [hab] at hchild hoperands
      exact conditional_typed (hchild condition (by simp)) (hchild a (by simp)) (hchild b (by simp)) hf hoperands hcheck
        hresolve
    case loop =>
      obtain ⟨condition, a, hab⟩ := List.length_eq_two.mp htakes
      rw [hab] at hchild hoperands
      exact loop_typed (hchild condition (by simp)) (hchild a (by simp)) hf hoperands hcheck hresolve
    case call =>
      obtain ⟨callee, arguments, hcall⟩ := List.exists_cons_of_ne_nil (List.length_pos_iff.mp htakes)
      rw [hcall] at hchild hoperands
      exact call_typed (hchild callee (by simp)) (fun e he => hchild e (by simp [he])) hf hoperands hcheck hresolve
    case returning =>
      refine returning_typed (fun hpresent => hchild _ (Tree.last_mem hpresent)) (fun c τ c' habsent hvisit => ?_) hf
        hcheck hresolve
      cases hlast : t.last with
      | node tag children val type =>
        rw [hlast] at habsent
        cases habsent
      | absent =>
        rw [hlast] at hvisit
        cases depth <;> exact Check.clean_pure.mp hvisit
    case dereference =>
      obtain ⟨a, ha⟩ := List.length_eq_one_iff.mp htakes
      rw [ha] at hchild
      exact dereference_typed (Tree.last_of_children ha ▸ hchild a (by simp)) hf hcheck hresolve
    case assignment =>
      obtain ⟨target, value, hab⟩ := List.length_eq_two.mp htakes
      rw [hab] at hchild hoperands
      obtain ⟨hexpression, hsmall⟩ := (hall target (by simp [hab])).unwrapped
      have htarget : target.height < t.height := Tree.height_lt (by simp [hab])
      refine assignment_typed (fun hform => ?_) (hchild value (by simp)) hf hoperands hcheck hresolve
      obtain ⟨hlast, hlt⟩ := hexpression.dereference hform
      exact hbelow _ hlast (by omega)
    case compoundAssignment =>
      obtain ⟨target, value, hab⟩ := List.length_eq_two.mp htakes
      rw [hab] at hchild hoperands
      obtain ⟨hexpression, hsmall⟩ := (hall target (by simp [hab])).unwrapped
      have htarget : target.height < t.height := Tree.height_lt (by simp [hab])
      refine compoundAssignment_typed (fun hform => ?_) (findsVariable_self (by omega)) (fun hform => ?_)
        (hchild value (by simp)) hf hoperands hcheck hresolve
      · obtain ⟨hlast, hlt⟩ := hexpression.dereference hform
        exact hbelow _ hlast (by omega)
      · intro c c' p p' x τ f fs hf hcheck hresolve
        refine ih depth (Nat.lt_succ_self _) _ hexpression (by omega) (fuel + 1) hf hcheck ?_
        rw [Resolve.toDepth_of_form hform]
        exact hresolve
  | borrow h hoperand =>
    cases hform.symm.trans h
    have hlast := Tree.height_last hform
    obtain ⟨_, hunwrapped, -⟩ := hoperand.unwrapped.1.form
    exact borrow_typed (findsVariable_ungroup _ (by omega)) (Tree.isPresent_of_form hunwrapped) hcheck hresolve
  | block h hchildren =>
    cases hform.symm.trans h
    refine block_typed (fun depth' hle => ih depth' (by omega)) (fun s hs => ⟨hchildren s hs, ?_⟩) hf hcheck hresolve
    have hlt := Tree.height_lt hs
    omega

end Depth

end Tenure
