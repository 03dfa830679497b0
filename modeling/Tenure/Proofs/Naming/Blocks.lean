import Tenure.Proofs.Naming.Expressions

/-!
# Names in blocks

The statements of a block bring names into its scope one after the other, and code generation uncovers the slots of the
block in the same order. `Opened` relates the two states halfway through a block, and every statement leads from one such
pair of states to the next.
-/

set_option autoImplicit false

namespace Tenure

open Check (Clean Appends Same Declares)

/-! ## Scopes of blocks -/

namespace Check

variable {c c₁ c' : Checker} {name : Text} {type : Ty}

theorem Declares.lookup? (h : Declares name type c c') (other : Text) :
    c'.scopes.lookup? other = if other = name then some type else c.scopes.lookup? other := by
  obtain ⟨b, rfl, hsame⟩ := h
  rw [hsame.lookup?, Scopes.lookup?_bind]

/-- A check inside a scope, which it may have changed. -/
structure Inside (c c' : Checker) : Prop where
  nonempty : c'.scopes.inner ≠ []
  outer : c'.scopes.inner.drop 1 = c.scopes.inner.drop 1
  global : c'.scopes.global = c.scopes.global
  functions : c'.functions = c.functions

namespace Inside

theorem trans (h : Inside c c₁) (h' : Inside c₁ c') : Inside c c' :=
  ⟨h'.nonempty, h'.outer.trans h.outer, h'.global.trans h.global, h'.functions.trans h.functions⟩

theorem of_same (hinner : c.scopes.inner ≠ []) (h : Same c c') : Inside c c' :=
  ⟨h.inner ▸ hinner, by rw [h.inner], h.global, h.functions⟩

theorem of_declares (hinner : c.scopes.inner ≠ []) (h : Declares name type c c') : Inside c c' := by
  obtain ⟨b, -, hsame⟩ := h
  obtain ⟨scope, scopes, hcons⟩ := List.exists_cons_of_ne_nil hinner
  refine ⟨?_, ?_, ?_, hsame.functions⟩
  · rw [hsame.inner]
    simp [Scopes.bind, hcons]
  · rw [hsame.inner]
    simp [Scopes.bind, hcons]
  · rw [hsame.global]
    simp [Scopes.bind, hcons]

/-- What is left of a scope once it is closed. -/
theorem exit (h : Inside { c with scopes := c.scopes.enter } c') : Same c { c' with scopes := c'.scopes.exit } where
  inner := h.outer
  global := h.global
  functions := h.functions

end Inside

end Check

/-- The surroundings of a statement of a block: some names of the block are declared, the slots of others are waiting. -/
structure Opened (c : Checker) (s : CompileState) (q : Places) (done rest : List Text) : Prop extends Surrounds c s where
  nonempty : c.scopes.inner ≠ []
  places : s.env.places = q ++ [declaredSlots done ++ hiddenSlots rest]

namespace Opened

variable {c c₁ c' : Checker} {s s' : CompileState} {q : Places} {done rest names : List Text} {name : Text} {type : Ty}

/-- At the beginning of a block. -/
theorem enter (h : Surrounds c s) (hdistinct : s'.env.Distinct)
    (hplaces : s'.env.places = s.env.places ++ [hiddenSlots names]) :
    Opened { c with scopes := c.scopes.enter } s' s.env.places [] names where
  inside := h.inside
  distinct := hdistinct
  known {name τ} hname := by
    have hhidden : ∀ slot ∈ hiddenSlots names, slot.declared = false := hiddenSlots_hidden
    rw [hplaces, ← List.nil_append (hiddenSlots names), Places.find?_append_undeclared _ [] hhidden,
      Places.find?_append_nil]
    exact h.known hname
  nonempty := by simp [Scopes.enter]
  places := by simpa [declaredSlots] using hplaces

/-- After a statement that declares nothing. -/
theorem keeps (h : Opened c s q done rest) (hsame : Same c c') (hkeeps : s.env.Keeps s'.env)
    (hplaces : s'.env.places = s.env.places) : Opened c' s' q done rest where
  toSurrounds := (h.toSurrounds.same hsame).keeps hkeeps hplaces
  nonempty := hsame.inner ▸ h.nonempty
  places := hplaces.trans h.places

/-- After a statement that declares a name. -/
theorem declare (h : Opened c s q done (name :: rest)) (hsame : Same c c₁) (hdeclares : Declares name type c₁ c')
    (hkeeps : s.env.Keeps s'.env) (hplaces : s'.env.places = q ++ [declaredSlots (done ++ [name]) ++ hiddenSlots rest]) :
    Opened c' s' q (done ++ [name]) rest := by
  have hfirst := Check.Inside.of_same h.nonempty hsame
  have hall := hfirst.trans (.of_declares hfirst.nonempty hdeclares)
  refine ⟨⟨hall.functions ▸ h.inside, hkeeps.distinct h.distinct, fun {other τ} hname => ?_⟩, hall.nonempty, hplaces⟩
  rw [hdeclares.lookup?, hsame.lookup?] at hname
  have hslots : declaredSlots (done ++ [name]) = declaredSlots done ++ [⟨name, true⟩] := by simp [declaredSlots]
  rw [hplaces, Places.find?_append_undeclared _ _ hiddenSlots_hidden, hslots, Places.find?_append_declared]
  by_cases hother : other = name
  · rw [if_pos hother]
    rfl
  · rw [if_neg hother] at hname ⊢
    have hhidden : ∀ slot ∈ hiddenSlots (name :: rest), slot.declared = false := hiddenSlots_hidden
    rw [← Places.find?_append_undeclared q (declaredSlots done) hhidden, ← h.places]
    exact h.known hname

end Opened

namespace Compile

/-! ## Statements -/

section Statements

variable {check : Tree → Check Ty} [∀ t, Appends (check t)] {visit : Visit} {c c' : Checker} {τ : Ty} {t e : Tree}
  {s : CompileState} {start : Nat}

omit [∀ t, Appends (check t)] in
theorem effect_finds (he : Knows check visit e) (hcheck : Clean (check e) c τ c') (hs : Surrounds c s) :
    Finds (effect visit start e) s := by
  refine .look (.bind (he.finds _ _ hcheck hs) fun code s₁ _ => .look ?_)
  have hend : ∀ {u : CompileState}, Finds (do setLent none; return code ++ (← emit [.plain .pop]) : Compile Emissions) u :=
    .setLent .emitted
  split
  · exact hend
  · split
    · exact hend
    · exact .onEnv hend

theorem letStatement_finds (hinitial : ∀ e, t.initializer = .ok (some e) → Knows check visit e)
    (hcheck : Clean (Check.letStatement check t) c τ c') (hs : Surrounds c s) : Finds (letStatement visit start t) s := by
  obtain ⟨-, _, -, hlet⟩ := Check.letStatement_ok hcheck
  refine .inspect fun _ _ => .look ?_
  dsimp only
  split
  · exact .fail (by simp)
  · refine .inspect fun initializer hinit => ?_
    rcases hlet with ⟨hnone, -⟩ | ⟨e, type, c₁, hsome, he, -⟩
    · cases hnone.symm.trans hinit
      exact .onEnv (.pure _)
    · cases hsome.symm.trans hinit
      exact .bind ((hinitial e hsome).finds _ _ he hs) fun _ _ _ => .look (.onEnv .emitted)

end Statements

end Compile

/-- Code generation knows the names of all expressions that are checked down to a depth. -/
def KnowsTo (depth : Nat) : Prop :=
  ∀ t : Tree, t.Expression → t.height ≤ depth → ∀ fuel, Knows (Check.toDepth depth) (Compile.toDepth fuel) t

namespace Compile

section Statements

variable {depth fuel start : Nat} {c c' : Checker} {q : Places} {τ : Ty} {t : Tree} {ts : List Tree} {name : Text}
  {done rest names : List Text} {s s' : CompileState} {code : Emissions}

/-- The initial value of a let statement is an expression further down. -/
theorem initial_knows (ih : ∀ depth' ≤ depth + 1, KnowsTo depth') (hstatement : t.Statement)
    (hheight : t.height ≤ depth + 1) (hform : t.form = .ok .letStatement) (fuel : Nat) :
    ∀ e, t.initializer = .ok (some e) → Knows (Check.toDepth depth) (toDepth fuel) e := by
  intro e he
  have hsmall : e.height < t.height := Tree.height_lt (Tree.mem_of_firstWith he)
  exact ih depth (Nat.le_succ _) e (hstatement.initial hform e he) (by omega) fuel

theorem effect_same (ih : ∀ depth' ≤ depth, KnowsTo depth') (hstatement : t.Statement) (hheight : t.height ≤ depth)
    (hlet : t.form ≠ .ok .letStatement) (hcheck : Clean (Check.toDepth depth t) c τ c') : Same c c' := by
  cases hstatement with
  | letStatement hform => exact absurd hform hlet
  | @expressionStatement _ e hform hchildren hexpression =>
    have hsmall : e.height < t.height := Tree.height_lt (hchildren ▸ List.mem_cons_self ..)
    obtain ⟨depth, rfl⟩ := Tree.depth_of_form hform hheight
    rw [Check.toDepth_of_form hform] at hcheck
    obtain ⟨type, hvisit, -⟩ := Check.expressionStatement_ok hcheck
    rw [Tree.last_of_children hchildren] at hvisit
    exact (ih depth (Nat.le_succ _) e hexpression (by omega) 0).same hvisit
  | expression hexpression => exact (ih depth (Nat.le_refl _) t hexpression hheight 0).same hcheck

theorem statement_inside (ih : ∀ depth' ≤ depth, KnowsTo depth') (hstatement : t.Statement) (hheight : t.height ≤ depth)
    (hinner : c.scopes.inner ≠ []) (hcheck : Clean (Check.toDepth depth t) c τ c') : Check.Inside c c' := by
  by_cases hform : t.form = .ok .letStatement
  · obtain ⟨depth, rfl⟩ := Tree.depth_of_form hform hheight
    rw [Check.toDepth_of_form hform] at hcheck
    obtain ⟨-, name, -, hlet⟩ := Check.letStatement_ok hcheck
    rcases hlet with ⟨-, type, hdeclares⟩ | ⟨e, type, c₁, hsome, he, hdeclares⟩
    · exact .of_declares hinner hdeclares
    · have hfirst := Check.Inside.of_same hinner ((initial_knows ih hstatement hheight hform 0 e hsome).same he)
      exact hfirst.trans (.of_declares hfirst.nonempty hdeclares)
  · exact .of_same hinner (effect_same ih hstatement hheight hform hcheck)

/-- The statements of a block are checked inside its scope. -/
theorem blockItems_inside (ih : ∀ depth' ≤ depth, KnowsTo depth') (hts : ∀ t ∈ ts, t.Statement ∧ t.height ≤ depth)
    (hinner : c.scopes.inner ≠ []) {last : Ty} (hcheck : Clean (Check.blockItems (Check.toDepth depth) ts [] last) c τ c') :
    Check.Inside c c' := by
  induction ts generalizing c last with
  | nil =>
    obtain ⟨-, rfl⟩ := Check.clean_pure.mp hcheck
    exact .of_same hinner (.refl _)
  | cons t ts ihts =>
    obtain ⟨hstatement, hheight⟩ := hts t (List.mem_cons_self ..)
    obtain ⟨form, hform, hfunction⟩ := hstatement.form
    obtain ⟨type, c₁, hvisit, hitems⟩ := (Check.blockItems_cons hform hfunction).mp hcheck
    have hfirst := statement_inside ih hstatement hheight hinner hvisit
    exact hfirst.trans (ihts (fun t ht => hts t (List.mem_cons_of_mem _ ht)) hfirst.nonempty hitems)

theorem statement_finds (ih : ∀ depth' ≤ depth, KnowsTo depth') (hstatement : t.Statement) (hheight : t.height ≤ depth)
    (hcheck : Clean (Check.toDepth depth t) c τ c') (hs : Surrounds c s) :
    Finds (statement (toDepth fuel) start t) s := by
  refine .inspect fun form hform => ?_
  cases hstatement with
  | letStatement hform' hinitial =>
    cases hform.symm.trans hform'
    obtain ⟨depth, rfl⟩ := Tree.depth_of_form hform hheight
    rw [Check.toDepth_of_form hform] at hcheck
    exact letStatement_finds (initial_knows ih (.letStatement hform hinitial) hheight hform fuel) hcheck hs
  | @expressionStatement _ e hform' hchildren hexpression =>
    cases hform.symm.trans hform'
    have hsmall : e.height < t.height := Tree.height_lt (hchildren ▸ List.mem_cons_self ..)
    obtain ⟨depth, rfl⟩ := Tree.depth_of_form hform hheight
    rw [Check.toDepth_of_form hform] at hcheck
    obtain ⟨type, hvisit, -⟩ := Check.expressionStatement_ok hcheck
    rw [Tree.last_of_children hchildren] at hvisit ⊢
    exact .ite (effect_finds (ih depth (Nat.le_succ _) e hexpression (by omega) fuel) hvisit hs) (.pure _)
  | expression hexpression =>
    obtain ⟨form', hform', hitem⟩ := hexpression.form
    cases hform.symm.trans hform'
    have heffect : Finds (effect (toDepth fuel) start t) s :=
      effect_finds (ih depth (Nat.le_refl _) t hexpression hheight fuel) hcheck hs
    cases form <;> first | exact heffect | cases hitem

/-- A let statement uncovers the next slot of its block. -/
theorem letStatement_opened (ih : ∀ depth' ≤ depth, KnowsTo depth') (hstatement : t.Statement)
    (hheight : t.height ≤ depth) (hform : t.form = .ok .letStatement) (hname : t.name = .ok name)
    (hs : Opened c s q done (name :: rest)) (hcheck : Clean (Check.toDepth depth t) c τ c')
    (h : statement (toDepth fuel) start t s = .ok (code, s')) : Opened c' s' q (done ++ [name]) rest := by
  obtain ⟨f, fs, hf⟩ := List.exists_cons_of_ne_nil hs.inside
  obtain ⟨hkeeps, x, hx, -⟩ := statement_resolves (toDepth_follows fuel) hs.distinct h
  obtain ⟨_, hform', hx⟩ := Resolve.lift_bind_some.mp hx
  cases hform.symm.trans hform'
  rw [hs.places] at hx
  obtain ⟨depth, rfl⟩ := Tree.depth_of_form hform hheight
  rw [Check.toDepth_of_form hform] at hcheck
  have hinitial := initial_knows ih hstatement hheight hform fuel
  obtain ⟨-, hplaces, -⟩ := letStatement_declaring (fun e he => by
    have hsmall : e.height < t.height := Tree.height_lt (Tree.mem_of_firstWith he)
    exact correspondsTo depth e (hstatement.initial hform e he) (by omega) fuel) hf hs.nonempty hname hcheck hx
  obtain ⟨-, _, hname', hlet⟩ := Check.letStatement_ok hcheck
  cases hname.symm.trans hname'
  rcases hlet with ⟨-, type, hdeclares⟩ | ⟨e, type, c₁, hsome, he, hdeclares⟩
  · exact hs.declare (.refl _) hdeclares hkeeps hplaces
  · exact hs.declare ((hinitial e hsome).same he) hdeclares hkeeps hplaces

/-- Any other statement leaves the block as it is. -/
theorem effect_opened (ih : ∀ depth' ≤ depth, KnowsTo depth') (hstatement : t.Statement) (hheight : t.height ≤ depth)
    (hlet : t.form ≠ .ok .letStatement) (hs : Opened c s q done rest) (hcheck : Clean (Check.toDepth depth t) c τ c')
    (h : statement (toDepth fuel) start t s = .ok (code, s')) : Opened c' s' q done rest := by
  obtain ⟨f, fs, hf⟩ := List.exists_cons_of_ne_nil hs.inside
  obtain ⟨hkeeps, x, hx, -⟩ := statement_resolves (toDepth_follows fuel) hs.distinct h
  obtain ⟨hplaces, -⟩ := effect_declaring (fun depth' _ => correspondsTo depth') hstatement hheight hlet hf hs.nonempty
    hcheck hs.places hx
  exact hs.keeps (effect_same ih hstatement hheight hlet hcheck) hkeeps hplaces

/-- Statements after a first one: what holds after all of them. -/
theorem statements_cons_finds {visit : Visit} {P : CompileState → Prop} (hfirst : Finds (statement visit start t) s)
    (hrest : ∀ code s₁, statement visit start t s = .ok (code, s₁) →
      Finds (statements visit (start + code.length) ts) s₁ ∧
        ∀ code' s', statements visit (start + code.length) ts s₁ = .ok (code', s') → P s') :
    Finds (statements visit start (t :: ts)) s ∧
      ∀ code s', statements visit start (t :: ts) s = .ok (code, s') → P s' := by
  refine ⟨.bind hfirst fun code s₁ hone => .bind (hrest code s₁ hone).1 fun _ _ _ => .pure _, fun code s' h => ?_⟩
  simp only [statements, bind_ok, pure_ok] at h
  obtain ⟨one, s₁, hone, two, s₂, htwo, -, rfl⟩ := h
  exact (hrest one s₁ hone).2 two s₂ htwo

/-- The statements of a block, and the surroundings of what follows them. -/
theorem statements_finds (fuel : Nat) (ih : ∀ depth' ≤ depth, KnowsTo depth') (hnames : Introduces ts names)
    (hts : ∀ t ∈ ts, t.Statement ∧ t.height ≤ depth) (hs : Opened c s q done (names ++ rest)) {last : Ty}
    (hcheck : Clean (Check.blockItems (Check.toDepth depth) ts [] last) c τ c') :
    Finds (statements (toDepth fuel) start ts) s ∧
      ∀ code s', statements (toDepth fuel) start ts s = .ok (code, s') → Opened c' s' q (done ++ names) rest := by
  induction hnames generalizing c s start done last with
  | nil =>
    obtain ⟨-, rfl⟩ := Check.clean_pure.mp hcheck
    refine ⟨.pure _, fun code s' h => ?_⟩
    obtain ⟨-, rfl⟩ := pure_ok.mp h
    simpa using hs
  | @letStatement t name ts names hform hname hrest ihrest =>
    obtain ⟨type, c₁, hvisit, hitems⟩ := (Check.blockItems_cons hform (by simp)).mp hcheck
    obtain ⟨hstatement, hheight⟩ := hts t (List.mem_cons_self ..)
    refine statements_cons_finds (statement_finds ih hstatement hheight hvisit hs.toSurrounds) fun code s₁ hone => ?_
    have hs₁ := letStatement_opened ih hstatement hheight hform hname hs hvisit hone
    simpa using ihrest (fun t ht => hts t (List.mem_cons_of_mem _ ht)) hs₁ hitems
  | @other t ts names hform hrest ihrest =>
    obtain ⟨hstatement, hheight⟩ := hts t (List.mem_cons_self ..)
    obtain ⟨form, hform', hfunction⟩ := hstatement.form
    obtain ⟨type, c₁, hvisit, hitems⟩ := (Check.blockItems_cons hform' hfunction).mp hcheck
    refine statements_cons_finds (statement_finds ih hstatement hheight hvisit hs.toSurrounds) fun code s₁ hone => ?_
    have hs₁ := effect_opened ih hstatement hheight hform hs hvisit hone
    exact ihrest (fun t ht => hts t (List.mem_cons_of_mem _ ht)) hs₁ hitems

end Statements

/-! ## Blocks -/

section Blocks

variable {depth fuel start : Nat} {c c' : Checker} {τ : Ty} {t e : Tree} {s : CompileState}

theorem block_same (ih : ∀ depth' ≤ depth, KnowsTo depth') (hchildren : ∀ s ∈ t.children, s.Statement ∧ s.height ≤ depth)
    (hcheck : Clean (Check.block (Check.toDepth depth) t) c τ c') : Same c c' := by
  obtain ⟨c₁, hitems, rfl⟩ := Check.block_ok (functions_of_statements fun s hs => (hchildren s hs).1) hcheck
  exact (blockItems_inside (c := { c with scopes := c.scopes.enter }) ih hchildren (by simp [Scopes.enter]) hitems).exit

/-- The end of a block. -/
theorem closing_finds {outer : Environment} {lent : Option Nat} {code : Emissions} :
    Finds (do
      let closing ← emit (drops (← get).env ++ [.plain .exitScope])
      leaveBlock outer lent
      return code ++ closing : Compile Emissions) s :=
  .look (.emitting fun _ h => by cases h)

theorem block_finds (ih : ∀ depth' ≤ depth, KnowsTo depth') (hchildren : ∀ s ∈ t.children, s.Statement ∧ s.height ≤ depth)
    (hcheck : Clean (Check.block (Check.toDepth depth) t) c τ c') (hs : Surrounds c s) :
    Finds (block (toDepth fuel) start t) s := by
  have hstatements : ∀ s ∈ t.children, s.Statement := fun s hs => (hchildren s hs).1
  obtain ⟨c₁, hcheck, -⟩ := Check.block_ok (functions_of_statements hstatements) hcheck
  refine .inspect fun declared hdeclared => ?_
  obtain ⟨names, hnames, rfl⟩ := introduces_of_declarations hstatements hdeclared
  refine .look (.emitting (.bind (.extend _ _) fun _ s₁ hextend => ?_))
  obtain ⟨-, rfl⟩ := extend_ok hextend
  refine .onEnv (.inspect fun items hitems => ?_)
  cases (functions_of_statements hstatements).symm.trans hitems
  refine .given (.inspect fun others hothers => ?_)
  have hs₁ : Opened { c with scopes := c.scopes.enter }
      { s with env := (s.env.extend ((names.map fun name => (name, true)).map Prod.fst)).onInnermost fun f =>
          f.hide ((names.map fun name => (name, true)).map Prod.snd) } s.env.places [] (names ++ []) := by
    refine .enter hs ((Environment.keeps_hide ..).distinct (hs.distinct.extend _)) ?_
    rw [Environment.places_hide]
    simp [hiddenSlots]
  by_cases hlast : ∀ s, t.children.getLast? = some s → s.IsEffect
  · rw [tail?_of_effect hlast] at hothers ⊢
    cases (select_statements hstatements).symm.trans hothers
    obtain ⟨hfinds, -⟩ := statements_finds fuel ih hnames hchildren hs₁ hcheck
    exact .bind hfinds fun body s₃ _ => .emitting (.given closing_finds)
  · obtain ⟨e, he, heffect⟩ : ∃ e, t.children.getLast? = some e ∧ ¬ e.IsEffect := by simpa using hlast
    obtain ⟨init, hinit⟩ := List.getLast?_eq_some_iff.mp he
    rw [hinit] at hchildren hstatements hnames hcheck
    have hlet : e.form ≠ .ok .letStatement := fun h => heffect (.inl h)
    have hexpression : e.Expression := by
      cases hstatements e (by simp) with
      | letStatement hform => exact absurd hform hlet
      | expressionStatement hform => exact absurd (.inr hform) heffect
      | expression hexpression => exact hexpression
    rw [tail?_of_expression he hexpression, hinit] at hothers
    rw [Option.isSome_some, if_pos rfl, List.dropLast_concat,
      select_statements fun s hs => hstatements s (List.mem_append_left _ hs)] at hothers
    cases hothers
    rw [tail?_of_expression he hexpression]
    obtain ⟨type, c₂, hitems, hvisit⟩ := blockItems_append hstatements hcheck
    obtain ⟨hfinds, hopened⟩ := statements_finds fuel ih (hnames.dropLast hlet)
      (fun s hs => hchildren s (List.mem_append_left _ hs)) hs₁ hitems
    refine .bind hfinds fun body s₃ hbody => .bind ?_ fun value s₄ _ => .look (.given closing_finds)
    exact (ih depth (Nat.le_refl _) e hexpression (hchildren e (by simp)).2 fuel).finds _ _ hvisit
      (hopened body s₃ hbody).toSurrounds

end Blocks

/-! ## All expressions -/

section Depth

variable {depth fuel start : Nat} {c c' : Checker} {τ : Ty} {t : Tree} {form : Form} {use : Use} {s : CompileState}

theorem toDepth_finds (hform : t.form = .ok form) (h : Finds (rule (toDepth fuel) start form t use) s) :
    Finds (toDepth (fuel + 1) start t use) s := by
  obtain ⟨tag, children, val, type, rfl, rfl⟩ := Tree.of_form hform
  refine .bind h fun code s₁ _ => ?_
  split
  · exact .setLent (.pure _)
  · exact .pure _

/-- The rule for an expression, where the names of all expressions below it are known. -/
theorem rule_finds (ih : ∀ depth' ≤ depth, KnowsTo depth') (ht : t.Expression) (hheight : t.height ≤ depth + 1)
    (hform : t.form = .ok form) (hcheck : Clean (Check.rule (Check.toDepth depth) form t) c τ c') :
    Same c c' ∧ ∀ start use s, Surrounds c s → Finds (rule (toDepth fuel) start form t use) s := by
  have hbelow : ∀ e, e.Expression → e.height < t.height → Knows (Check.toDepth depth) (toDepth fuel) e :=
    fun e he hlt => ih depth (Nat.le_refl _) e he (by omega) fuel
  cases ht with
  | leaf h =>
    rcases h with h | h <;> cases hform.symm.trans h
    · obtain ⟨rfl, -⟩ := Check.literal_ok hcheck
      exact ⟨.refl _, fun _ _ _ _ => literal_finds t⟩
    · obtain ⟨rfl, name, hname, hlookup⟩ := Check.path_ok hcheck
      refine ⟨.refl _, fun _ use s hs => .inspect fun _ hname' => ?_⟩
      cases hname.symm.trans hname'
      exact path_finds hlookup use hs
  | node h htakes hall =>
    cases hform.symm.trans h
    have hchild : ∀ e ∈ t.children, Knows (Check.toDepth depth) (toDepth fuel) e := fun e he =>
      hbelow e (hall e he) (Tree.height_lt he)
    have hoperands := Tree.operands_of_expressions hall
    cases form <;> first | exact htakes.elim | skip
    case arithmetic | lazyBoolean =>
      obtain ⟨a, b, hab⟩ := List.length_eq_two.mp htakes
      rw [hab] at hchild hoperands
      obtain ⟨hsame, hfinds⟩ := binary_finds (hchild a (by simp)) (hchild b (by simp)) hoperands
        (Check.operation_ok hoperands hcheck)
      exact ⟨hsame, fun start _ => hfinds start⟩
    case comparison =>
      obtain ⟨a, b, hab⟩ := List.length_eq_two.mp htakes
      rw [hab] at hchild hoperands
      obtain ⟨hsame, hfinds⟩ := binary_finds (hchild a (by simp)) (hchild b (by simp)) hoperands
        (Check.comparison_ok hoperands hcheck)
      exact ⟨hsame, fun start _ => hfinds start⟩
    case negation =>
      obtain ⟨a, ha⟩ := List.length_eq_one_iff.mp htakes
      rw [ha] at hchild hoperands
      obtain ⟨hsame, hfinds⟩ := unary_finds (hchild a (by simp)) ha hoperands hcheck
      exact ⟨hsame, fun start _ => hfinds start⟩
    case grouped =>
      obtain ⟨a, ha⟩ := List.length_eq_one_iff.mp htakes
      rw [ha] at hchild
      have hlast : Clean (Check.toDepth depth t.last) c τ c' := hcheck
      rw [Tree.last_of_children ha] at hlast
      exact ⟨(hchild a (by simp)).same hlast, fun start _ => group_finds (hchild a (by simp)) ha hlast start⟩
    case other =>
      obtain ⟨a, ha⟩ := List.length_eq_one_iff.mp htakes
      rw [ha] at hchild
      simp only [Check.rule, ha, Check.inOrder, Check.clean_bind, Check.clean_pure] at hcheck
      obtain ⟨_, _, hcheck, rfl, rfl⟩ := hcheck
      exact ⟨(hchild a (by simp)).same hcheck, fun start _ => wrapper_finds (hchild a (by simp)) ha hcheck start⟩
    case conditional =>
      obtain ⟨condition, a, b, hab⟩ := List.length_eq_three.mp htakes
      rw [hab] at hchild hoperands
      obtain ⟨hsame, hfinds⟩ := conditional_finds (hchild condition (by simp)) (hchild a (by simp))
        (hchild b (by simp)) hoperands hcheck
      exact ⟨hsame, fun start _ => hfinds start⟩
    case loop =>
      obtain ⟨condition, a, hab⟩ := List.length_eq_two.mp htakes
      rw [hab] at hchild hoperands
      obtain ⟨hsame, hfinds⟩ := loop_finds (hchild condition (by simp)) (hchild a (by simp)) hoperands hcheck
      exact ⟨hsame, fun start _ => hfinds start⟩
    case call =>
      obtain ⟨callee, arguments, hcall⟩ := List.exists_cons_of_ne_nil (List.length_pos_iff.mp htakes)
      rw [hcall] at hchild hoperands
      obtain ⟨hsame, hfinds⟩ := call_finds (hchild callee (by simp)) (fun e he => hchild e (by simp [he])) hoperands
        hcheck
      exact ⟨hsame, fun start _ => hfinds start⟩
    case returning =>
      have habsent : ∀ c τ c', t.last.isPresent = false → Clean (Check.toDepth depth t.last) c τ c' →
          τ = .unit ∧ c' = c := by
        intro c τ c' habsent hvisit
        cases hlast : t.last with
        | node tag children val type =>
          rw [hlast] at habsent
          cases habsent
        | absent =>
          rw [hlast] at hvisit
          cases depth <;> exact Check.clean_pure.mp hvisit
      obtain ⟨hsame, hfinds⟩ := returning_finds (fun hpresent => hchild _ (Tree.last_mem hpresent)) habsent hcheck
      exact ⟨hsame, fun start _ => hfinds start⟩
    case dereference =>
      obtain ⟨a, ha⟩ := List.length_eq_one_iff.mp htakes
      rw [ha] at hchild
      obtain ⟨hsame, hfinds⟩ := dereference_finds (Tree.last_of_children ha ▸ hchild a (by simp)) hcheck
      exact ⟨hsame, fun start _ => hfinds start⟩
    case assignment =>
      obtain ⟨target, value, hab⟩ := List.length_eq_two.mp htakes
      rw [hab] at hchild hoperands
      obtain ⟨hexpression, hsmall⟩ := (hall target (by simp [hab])).unwrapped
      have htarget : target.height < t.height := Tree.height_lt (by simp [hab])
      obtain ⟨hsame, hfinds⟩ := assignment_finds (fun hform => by
        obtain ⟨hlast, hlt⟩ := hexpression.dereference hform
        exact hbelow _ hlast (by omega)) (hchild value (by simp)) hoperands hcheck
      exact ⟨hsame, fun start _ => hfinds start⟩
    case compoundAssignment =>
      obtain ⟨target, value, hab⟩ := List.length_eq_two.mp htakes
      rw [hab] at hchild hoperands
      obtain ⟨hexpression, hsmall⟩ := (hall target (by simp [hab])).unwrapped
      have htarget : target.height < t.height := Tree.height_lt (by simp [hab])
      obtain ⟨hsame, hfinds⟩ := compoundAssignment_finds (fun hform => by
        obtain ⟨hlast, hlt⟩ := hexpression.dereference hform
        exact hbelow _ hlast (by omega)) (hbelow _ hexpression (by omega)).same (hchild value (by simp)) hoperands hcheck
      exact ⟨hsame, fun start _ => hfinds start⟩
  | borrow h hoperand =>
    cases hform.symm.trans h
    have hlast := Tree.height_last hform
    obtain ⟨_, hunwrapped, -⟩ := hoperand.unwrapped.1.form
    obtain ⟨hsame, hfinds⟩ := borrow_finds (hbelow t.last hoperand hlast) (findsVariable_ungroup _ (by omega))
      (Tree.isPresent_of_form hunwrapped) hcheck
    exact ⟨hsame, fun _ _ => hfinds⟩
  | block h hchildren =>
    cases hform.symm.trans h
    have hbelow : ∀ s ∈ t.children, s.Statement ∧ s.height ≤ depth := fun s hs => by
      have hlt := Tree.height_lt hs
      exact ⟨hchildren s hs, by omega⟩
    exact ⟨block_same ih hbelow hcheck, fun _ _ _ => block_finds ih hbelow hcheck⟩

/-- Where the checker finds nothing in an expression, code generation knows all of its names. -/
theorem knowsTo (depth : Nat) : KnowsTo depth := by
  induction depth using Nat.strong_induction_on with
  | _ depth ih =>
  intro t ht hheight fuel
  obtain ⟨form, hform, -⟩ := ht.form
  obtain ⟨depth, rfl⟩ := Tree.depth_of_form hform hheight
  have hrule : ∀ fuel {c c' : Checker} {τ : Ty}, Clean (Check.toDepth (depth + 1) t) c τ c' →
      Same c c' ∧ ∀ start use s, Surrounds c s → Finds (rule (toDepth fuel) start form t use) s := by
    intro fuel c c' τ hcheck
    rw [Check.toDepth_of_form hform] at hcheck
    exact rule_finds (fun depth' hle => ih depth' (by omega)) ht hheight hform hcheck
  refine ⟨fun hcheck => (hrule 0 hcheck).1, fun start use hcheck hs => ?_, fun hcheck hs hvisit => ?_⟩
  · cases fuel with
    | zero => exact fun _ h => by cases h
    | succ fuel => exact toDepth_finds hform ((hrule fuel hcheck).2 start use _ hs)
  · obtain ⟨f, fs, hf⟩ := List.exists_cons_of_ne_nil hs.inside
    obtain ⟨hkeeps, x, hx, -⟩ := toDepth_follows fuel hs.distinct hvisit
    obtain ⟨hplaces, -⟩ := correspondsTo (depth + 1) t ht hheight fuel hf hcheck hx
    exact (hs.same (hrule 0 hcheck).1).keeps hkeeps hplaces

end Depth

end Compile

end Tenure
