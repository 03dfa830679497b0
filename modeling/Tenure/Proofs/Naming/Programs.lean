import Tenure.Proofs.Naming.Blocks
import Tenure.Tree.Build

/-!
# Names in programs

In a crate in normal form code generation knows every name of every function: where the checker has found nothing, the
names of a function are those of its parameters, of the functions of the crate and of the builtins, and each has a slot
(`Compile.program_finds`). Functions inside blocks would be another matter: code is generated for them before the let
statements in front of them.
-/

set_option autoImplicit false

namespace Tenure

open Check (Clean Same)

/-! ## Slots of names -/

namespace Places

variable {name : Text} {names : List Text} {p : Places}

theorem isSome_lastDeclared? (h : name ∈ names) : (lastDeclared? name (declaredSlots names)).isSome = true := by
  induction names with
  | nil => cases h
  | cons first rest ih =>
    rw [declaredSlots, List.map_cons, lastDeclared?, ← declaredSlots]
    cases hrest : lastDeclared? name (declaredSlots rest) with
    | some slot => rfl
    | none =>
      rcases List.mem_cons.mp h with rfl | h
      · simp
      · rw [hrest] at ih
        cases ih h

/-- A name that is declared in a frame, or found around it. -/
theorem isSome_find?_declared (h : name ∈ names ∨ (p.find? name).isSome = true) :
    (Places.find? name (p ++ [declaredSlots names])).isSome = true := by
  rw [find?_append, Option.isSome_or, Option.isSome_map, Bool.or_eq_true]
  exact h.imp_left isSome_lastDeclared?

end Places

/-! ## Functions -/

namespace Check

variable {c c' : Checker} {name : Text} {τ : Ty}

/-- The parameters of a function are declared in its scope, and no other names. -/
theorem declareParameters_inside {ps : List (Tree × Ty)} {u : Unit} (hinner : c.scopes.inner ≠ [])
    (hcheck : Clean (declareParameters ps) c u c') : Inside c c' ∧
      ∀ {name τ}, c'.scopes.lookup? name = some τ →
        (∃ p ∈ ps, p.1.name = .ok name) ∨ c.scopes.lookup? name = some τ := by
  induction ps generalizing c with
  | nil =>
    obtain ⟨-, rfl⟩ := clean_pure.mp hcheck
    exact ⟨.of_same hinner (.refl _), .inr⟩
  | cons p ps ih =>
    obtain ⟨parameter, type⟩ := p
    simp only [declareParameters, clean_bind, clean_lift, clean_define] at hcheck
    obtain ⟨name, _, ⟨hname, rfl⟩, mutable, _, ⟨-, rfl⟩, _, _, rfl, hrest⟩ := hcheck
    have hfirst := Inside.of_declares hinner (.define _ name type mutable)
    obtain ⟨hinside, hknown⟩ := ih hfirst.nonempty hrest
    refine ⟨hfirst.trans hinside, fun {other τ} hother => ?_⟩
    rcases hknown hother with ⟨p, hp, hpname⟩ | hbefore
    · exact .inl ⟨p, List.mem_cons_of_mem _ hp, hpname⟩
    · rw [(Declares.define _ name type mutable).lookup?] at hbefore
      split at hbefore
      next heq => exact .inl ⟨_, List.mem_cons_self .., heq ▸ hname⟩
      next hne => exact .inr hbefore

end Check

namespace Compile

variable {depth fuel start : Nat} {c c' : Checker} {item : Tree} {items : List Tree} {s : CompileState}

/-- A check of a function leaves the scopes around it as they were. -/
theorem function_same {signature : Signature} {u : Unit} (hbody : BodyTo depth item)
    (hcheck : Clean (Check.function (Check.toDepth depth) item signature) c u c') : Same c c' := by
  obtain ⟨name, body, ps, got, c₁, c₂, -, hblock, -, hdeclare, hvisit, rfl, -⟩ := Check.function_ok hcheck
  obtain ⟨hexpression, hheight⟩ := hbody body hblock
  obtain ⟨hinside, -⟩ := Check.declareParameters_inside (by simp [Scopes.enter]) hdeclare
  have hsame := (knowsTo depth body hexpression hheight 0).same hvisit
  refine ⟨?_, hsame.global.trans hinside.global, ?_⟩
  · show c₂.scopes.inner.drop 1 = c.scopes.inner
    rw [hsame.inner]
    exact hinside.outer
  · show c₂.functions.drop 1 = c.functions
    rw [hsame.functions]
    exact hinside.functions

/-- A function finds its names if those that are known around it stand for slots. -/
theorem function_finds {signature : Signature} {u : Unit} (hbody : BodyTo depth item)
    (hcheck : Clean (Check.function (Check.toDepth depth) item signature) c u c') (hd : s.env.Distinct)
    (hknown : ∀ {name τ}, c.scopes.lookup? name = some τ → (s.env.places.find? name).isSome = true) :
    Finds (function (toDepth fuel) start item) s := by
  obtain ⟨name, body, ps, got, c₁, c₂, -, hblock, hps, hdeclare, hvisit, -⟩ := Check.function_ok hcheck
  obtain ⟨hexpression, hheight⟩ := hbody body hblock
  obtain ⟨-, hscope⟩ := Check.declareParameters_inside (by simp [Scopes.enter]) hdeclare
  refine .inspect fun _ _ => .inspect fun found hfound => ?_
  cases hblock.symm.trans hfound
  refine .inspect fun _ hps' => .inspect fun parameters hparameters => ?_
  cases hps.symm.trans hps'
  refine .look (.bind (.extend _ _) fun _ s₁ hextend => .setDiverged ?_)
  obtain ⟨-, rfl⟩ := extend_ok hextend
  have hinside : Surrounds { c₁ with functions := ⟨name, signature.result⟩ :: c₁.functions }
      { s with env := s.env.extend parameters, diverged := false } := by
    refine ⟨List.cons_ne_nil _ _, hd.extend _, fun {other τ} hother => ?_⟩
    rw [Environment.places_extend]
    refine Places.isSome_find?_declared ((hscope hother).imp ?_ hknown)
    rintro ⟨p, hp, hname⟩
    exact mem_names hparameters (List.of_mem_zip hp).1 hname
  refine .bind ((knowsTo depth body hexpression hheight fuel).finds _ _ hvisit hinside) fun value s₂ _ => ?_
  refine .look (.emitting (.modify (.look ?_)))
  split
  · exact .fail (by simp)
  · exact .emitting .emitted

/-- Functions that have been checked in the same scopes. -/
theorem functions_finds (hbody : ∀ item ∈ items, BodyTo depth item) (hitems : ∀ item ∈ items, ItemChecked depth Same c item)
    (hd : s.env.Distinct)
    (hknown : ∀ {name τ}, c.scopes.lookup? name = some τ → (s.env.places.find? name).isSome = true) :
    Finds (functions (toDepth fuel) start items) s := by
  induction items generalizing s start with
  | nil => exact .pure _
  | cons item items ih =>
    obtain ⟨_, signature, c₂, c₃, -, -, hsame, hchecked⟩ := hitems item (List.mem_cons_self ..)
    have hblock := hbody item (List.mem_cons_self ..)
    obtain ⟨u, hrun⟩ := hchecked.1
    refine .bind (function_finds hblock hrun hd fun hname => hknown ((hsame.lookup? _).symm.trans hname))
      fun code s₁ hone => .bind ?_ fun _ _ _ => .pure _
    obtain ⟨hkeeps, x, hx, -⟩ := function_resolves (toDepth_follows fuel) hd hone
    obtain ⟨hplaces, -⟩ := hchecked.typed hblock hx
    exact ih (fun item hitem => hbody item (List.mem_cons_of_mem _ hitem))
      (fun item hitem => hitems item (List.mem_cons_of_mem _ hitem)) (hkeeps.distinct hd)
      fun hname => hplaces.symm ▸ hknown hname

end Compile

/-! ## Crates -/

/-- The names of the builtins are all that is known at first. -/
theorem lookup?_builtins (bs : List Builtin) {s : Scopes} (hinner : s.inner = []) {name : Text} {τ : Ty}
    (h : (bs.foldl (fun s b => s.defineGlobal (Text.ofString b.name) b.type) s).lookup? name = some τ) :
    name ∈ bs.map (fun b => Text.ofString b.name) ∨ s.lookup? name = some τ := by
  induction bs generalizing s with
  | nil => exact .inr h
  | cons b bs ih =>
    rcases ih (by exact hinner) h with hmem | hbefore
    · exact .inl (List.mem_cons_of_mem _ hmem)
    · dsimp only at hbefore
      rw [Scopes.defineGlobal_eq hinner, Scopes.lookup?_bind] at hbefore
      split at hbefore
      next heq => exact .inl (heq ▸ List.mem_cons_self ..)
      next hne => exact .inr hbefore

namespace Compile

variable {depth fuel start : Nat} {c' : Checker} {τ : Ty} {t : Tree}

theorem crate_finds (hnormal : t.Normal) (hheight : t.height ≤ depth + 1)
    (hcheck : Clean (Check.crate (Check.toDepth depth) t) Checker.initial τ c') :
    Finds (crate (toDepth fuel) start t) { env := ({} : Environment).extend Builtin.names } := by
  refine .inspect fun items hitems => .inspect fun slots hslots => .emitting ?_
  cases (Tree.childrenOf_functions hnormal.items).symm.trans hitems
  refine .bind (.extend _ _) fun _ s₁ hextend => ?_
  obtain ⟨-, rfl⟩ := extend_ok hextend
  obtain ⟨c₁, types, -, -, hbound, hchecked⟩ := crate_checked hnormal.items hslots hcheck
  have hbody := hnormal.bodyTo hheight
  have hsame : ∀ item ∈ t.children, ItemChecked depth Same c₁ item :=
    hchecked Same.refl Same.trans fun item hitem s c₂ c₃ hrun => by
      obtain ⟨⟨u, hrun⟩, -⟩ := hrun
      exact function_same (hbody item hitem) hrun
  refine .bind (functions_finds hbody hsame ?_ fun {name τ} hname => ?_) fun code s₂ _ => .look ?_
  · have hempty : ({} : Environment).Distinct := by simp [Environment.Distinct, Environment.bindings]
    exact (hempty.extend _).extend _
  · rw [Environment.places_extend, Environment.places_extend]
    refine Places.isSome_find?_declared ((hbound hname).imp_right fun hbuiltin => ?_)
    refine Places.isSome_find?_declared (.inl ?_)
    exact (lookup?_builtins Builtin.all rfl hbuiltin).resolve_right fun h => by cases h
  · split
    · exact .fail (by simp)
    · exact .emitting .emitted

/-- Where there are no complaints about a crate in normal form, its code is generated without an unknown variable. -/
theorem program_finds (hnormal : t.Normal) (hform : t.form = .ok .crate) (hcomplaints : t.complaints = .ok []) :
    Finds (program t) {} := by
  obtain ⟨τ, c', hcheck⟩ := Tree.complaints_clean hcomplaints
  obtain ⟨depth, hheight⟩ := Tree.depth_of_form hform (Nat.le_refl _)
  rw [hheight, Check.toDepth_of_form hform] at hcheck
  exact .onEnv (.bind (crate_finds hnormal (Nat.le_of_eq hheight) hcheck) fun _ _ _ => .emitted)

end Compile

/-! ## Programs -/

/-- Code generation for functions without functions inside never stops because a variable is unknown: whatever names the
checker lets pass are found, however let statements, parameters, functions and builtins shadow each other. -/
theorem Tree.compile_finds_names {t : Tree} (hnormal : t.Normal) (name : Text) :
    t.compile ≠ .error (.failed (.unknownVariable name)) := by
  have hemissions : t.emissions ≠ .error (.failed (.unknownVariable name)) := by
    unfold Tree.emissions
    split
    · simp
    · split
      · simp
      · simp
      next hpresent _ hcomplaints =>
        split
        next htag =>
          have hform : t.form = .ok .crate := by
            cases t with
            | absent => cases htag
            | node => exact congrArg Except.ok htag
          intro h
          cases hrun : Compile.program t {} with
          | error e =>
            rw [StateT.run, hrun] at h
            cases h
            exact Compile.program_finds hnormal hform hcomplaints name hrun
          | ok r =>
            rw [StateT.run, hrun] at h
            cases h
        · simp
  intro h
  cases hcode : t.emissions with
  | error e =>
    rw [Tree.compile, hcode] at h
    cases h
    exact hemissions hcode
  | ok code =>
    rw [Tree.compile, hcode] at h
    cases h

/-- A program in which a function inside a block reads a variable of the block. -/
def Tree.capturing : Tree :=
  crate
    [function "main" [] "i32" (block
      [letStatement "x" false "" (int 1), function "f" [] "i32" (block [path "x"]), call (path "f") []])]

/-- There are no complaints about it, but code is generated for the function before the variable has been declared. -/
theorem Tree.capturing_unknown : capturing.Complete ∧ capturing.complaints = .ok [] ∧
    capturing.compile = .error (.failed (.unknownVariable "x")) := by
  have hwritten : Text.isEmpty "i32" = false := rfl
  have hunwritten : Text.isEmpty "" = true := rfl
  have hcomplete : capturing.Complete := by
    simp [hwritten, hunwritten, Tree.capturing, Tree.crate, Tree.function, Tree.block, Tree.letStatement, Tree.call,
      Tree.path, Tree.int, Tree.literal, Tree.ident, Tree.ascription, Tree.withText, Tree.ofForm, Tree.isPresent,
      Tree.Complete, Tree.AllComplete]
  exact ⟨hcomplete, by decide, by decide⟩

end Tenure
