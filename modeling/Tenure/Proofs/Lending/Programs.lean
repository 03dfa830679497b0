import Tenure.Proofs.Assignment.Programs
import Tenure.Proofs.Lending.Rules
import Tenure.Proofs.Lending.Soundness
import Tenure.Proofs.Tree.Plain

/-!
# Programs that hand references inward

The functions of a crate that hands references inward have bodies that do, and every call finds the function whose name
it uses. So the evaluation of such a program accesses cells of open frames only, with whatever fuel:
`Tree.staysOpen_of_inward`.
-/

set_option autoImplicit false

namespace Tenure

/-! ## Functions -/

section Functions

/-- Where all names are different, a function is found by its name. -/
theorem Tree.find?_signatures {items : List Tree} {names : List Text} (hnames : Compile.names items = .ok names)
    (hnodup : names.Nodup) {item : Tree} (hitem : item ∈ items) {name : Text} {parameters : List Text}
    (hname : item.name = .ok name) (hparameters : item.parametersOf.bind Compile.names = .ok parameters) :
    (signatures items).find? (fun f => f.1 = name) = some (name, parameters) := by
  induction items generalizing names with
  | nil => cases hitem
  | cons first rest ih =>
    cases hfirst : first.name with
    | error m => simp [Compile.names, hfirst, bind, Except.bind] at hnames
    | ok other =>
      cases hrest : Compile.names rest with
      | error m => simp [Compile.names, hfirst, hrest, bind, Except.bind] at hnames
      | ok others =>
        simp only [Compile.names, hfirst, hrest, bind, Except.bind, pure, Except.pure, Except.ok.injEq] at hnames
        subst hnames
        obtain ⟨hother, hothers⟩ := List.nodup_cons.mp hnodup
        rw [signatures, List.find?_append]
        rcases List.mem_cons.mp hitem with rfl | hitem
        · cases hname.symm.trans hfirst
          rw [hname, hparameters]
          simp
        · have hne : other ≠ name := by
            rintro rfl
            exact hother (Compile.mem_names hrest hitem hname)
          rw [ih hrest hothers hitem, hfirst]
          cases first.parametersOf.bind Compile.names <;> simp [hne]

namespace Resolve

variable {ν : Naming} {crate : Roles} {depth : Nat} {item : Tree} {p p' : Places}

/-- A function of the crate is stored in the slot of its name, which has its role. -/
theorem function_hands {x : Term 0} (hform : Form.ofTag item.tag = .function)
    (hitem : item.everywhere (Tree.handsInward ν) = true)
    (hrole : ∀ name parameters, item.name = .ok name → item.parametersOf.bind Compile.names = .ok parameters →
      ν.role name = .function (parameters.map ν.lends))
    (hp : ν.roles p.names = crate) (h : function (toDepth depth) item p = some (x, p')) :
    p'.names = p.names ∧ x.Inward crate crate [] := by
  obtain ⟨name, body, ps, names, value, p₁, frame, slot, hname, hbody, hps, hnames, hvalue, rfl, hfind, rfl⟩ :=
    function_some h
  have hparameters : item.parametersOf.bind Compile.names = .ok names := by
    rw [hps]
    exact hnames
  obtain ⟨hp₁, hvalue⟩ := toDepth_hands depth body (Tree.everywhere_of_mem hitem (Tree.mem_of_firstWith hbody)) hvalue
  have hopen : Places.names (p ++ [declaredSlots names]) = p.names ++ [names] := by
    simp [Places.names, declaredSlots, Function.comp_def]
  have hclose : Places.names p₁.dropLast = p.names := by
    have hdrop : Places.names p₁.dropLast = p₁.names.dropLast := by simp [Places.names]
    rw [hdrop, hp₁, hopen, List.dropLast_concat]
  have hpresent : ∃ f, item.form = .ok f := by
    cases item with
    | absent => cases hbody
    | node => exact ⟨_, rfl⟩
  have hself : ∀ name ∈ names, ν.isFunction name = false := by
    have hhands := Tree.self_of_everywhere hitem hpresent
    rw [Tree.handsInward, hform] at hhands
    dsimp only at hhands
    rw [hparameters] at hhands
    simpa using hhands
  have hroles : ν.roles (p.names ++ [names]) = crate ++ [(names.map ν.lends).map .ofFlag] := by
    have hframe : names.map ν.role = (names.map ν.lends).map .ofFlag := by
      rw [List.map_map]
      exact List.map_congr_left fun name hmem => Naming.role_of_not_isFunction (hself name hmem)
    simp [Naming.roles, ← hp, hframe]
  have hplain : body.role ν = .plain := Tree.role_of_block (of_decide_eq_true (Tree.passes_of_firstWith hbody))
  rw [hopen, hroles, hplain] at hvalue
  have hat : crate.at? frame slot = some (ν.role name) := by
    rw [← hp, ← hclose]
    exact Naming.at?_roles (Places.name_of_place hfind)
  rw [hrole name names hname hparameters] at hat
  refine ⟨hclose, .store hat (.closure (by simp) hvalue) (Role.fits_refl _) fun href => Role.noConfusion href⟩

/-- Functions of the crate, one after the other. -/
theorem functions_hands {items : List Tree} {x : Term 0}
    (hitems : ∀ item ∈ items, Form.ofTag item.tag = .function ∧ item.everywhere (Tree.handsInward ν) = true ∧
      ∀ name parameters, item.name = .ok name → item.parametersOf.bind Compile.names = .ok parameters →
        ν.role name = .function (parameters.map ν.lends))
    (hp : ν.roles p.names = crate) (h : functions (toDepth depth) items p = some (x, p')) :
    p'.names = p.names ∧ x.Inward crate crate [] := by
  induction items generalizing p x with
  | nil =>
    cases h
    exact ⟨rfl, .nothing⟩
  | cons item rest ih =>
    obtain ⟨first, p₁, hfirst, h⟩ := bind_some.mp h
    obtain ⟨others, p₂, hothers, h⟩ := bind_some.mp h
    obtain ⟨rfl, rfl⟩ := pure_some.mp h
    obtain ⟨hform, hitem, hrole⟩ := hitems item (List.mem_cons_self ..)
    obtain ⟨hp₁, hx⟩ := function_hands hform hitem hrole hp hfirst
    obtain ⟨hp₂, hy⟩ := ih (fun e he => hitems e (List.mem_cons_of_mem _ he)) (hp₁ ▸ hp) hothers
    exact ⟨hp₂.trans hp₁, .seq hx hy⟩

end Resolve

end Functions

/-! ## Crates -/

/-- The term of a crate that hands references inward: the frames of the builtins and of the functions have the roles of
their names, and what is done in them hands references inward. -/
theorem Tree.term_inward {t : Tree} {code : Emissions} {x : Term 1} {references : List Text}
    (h : t.emissions = .ok code) (ht : t.inward references = true) (hx : t.term? = some x) :
    ∃ slots rs body, x = .scope slots body ∧ rs.length = slots ∧
      body.Inward [Builtin.names.map (t.naming references).role, rs]
        [Builtin.names.map (t.naming references).role, rs] [.plain] := by
  obtain ⟨depth, τ, c', -, hcheck⟩ := Tree.emissions_checked h
  obtain ⟨hrest, hhands⟩ := Bool.and_eq_true_iff.mp ht
  obtain ⟨-, hmain⟩ := Bool.and_eq_true_iff.mp hrest
  obtain ⟨⟨_, p''⟩, hprogram, rfl⟩ := Option.map_eq_some_iff.mp hx
  replace hprogram : Resolve.program t [] = some _ := hprogram
  simp only [Resolve.program, Resolve.bind_some] at hprogram
  obtain ⟨_, _, hopen, hcrate⟩ := hprogram
  cases hopen
  obtain ⟨items, hitems, hcrate⟩ := Resolve.lift_bind_some.mp hcrate
  obtain ⟨names, hnames, hcrate⟩ := Resolve.lift_bind_some.mp hcrate
  simp only [Resolve.bind_some, Resolve.pure_some, Resolve.position_some] at hcrate
  obtain ⟨_, _, hopen, closures, p', hclosures, ⟨frame, slot⟩, _, ⟨hfind, rfl⟩, rfl, rfl⟩ := hcrate
  cases hopen
  have hnodup := Check.names_nodup hcheck hitems hnames
  have hfunctions : (t.naming references).functions = signatures items := by
    rw [naming, hitems]
  have hknown : ∀ item ∈ items, Form.ofTag item.tag = .function ∧
      item.everywhere (handsInward (t.naming references)) = true ∧
      ∀ name parameters, item.name = .ok name → item.parametersOf.bind Compile.names = .ok parameters →
        (t.naming references).role name = .function (parameters.map (t.naming references).lends) := by
    intro item hitem
    refine ⟨of_decide_eq_true (passes_of_select hitems hitem), everywhere_of_mem hhands (mem_of_select hitems hitem),
      fun name parameters hname hparameters => ?_⟩
    rw [Naming.role, hfunctions, find?_signatures hnames hnodup hitem hname hparameters]
  have hplaces : (t.naming references).roles
      (Places.names ([declaredSlots Builtin.names] ++ [declaredSlots names])) =
        [Builtin.names.map (t.naming references).role, names.map (t.naming references).role] := by
    simp [Naming.roles, Places.names, declaredSlots, Function.comp_def]
  obtain ⟨hp', hbody⟩ := Resolve.functions_hands hknown hplaces hclosures
  refine ⟨names.length, names.map (t.naming references).role, _, rfl, List.length_map .., .seq hbody ?_⟩
  have hload := Naming.at?_roles (ν := t.naming references) (Places.name_of_place hfind)
  rw [hp', hplaces] at hload
  cases hrole : (t.naming references).role "main" with
  | reference =>
    rw [hrole] at hmain
    cases hmain
  | plain => exact .callPlain (.load (hrole ▸ hload)) .nothing (by simp)
  | function lent =>
    refine .call (.load (hrole ▸ hload)) .nothing fun hlength => ?_
    rw [List.length_eq_zero_iff.mp hlength.symm]
    rfl

/-- The cells of the builtins hold no references. -/
theorem Store.initial_inward {crate : Roles} {ν : Naming} (h : ∀ name ∈ Builtin.names, ν.isFunction name = false) :
    Store.initial.Inward crate [0] [Builtin.names.map ν.role] where
  shape := by simp [Store.initial, Builtin.names]
  values c v r hopen hv hr := by
    rw [List.mem_singleton] at hopen
    obtain ⟨cells, hcells, hv⟩ := Option.bind_eq_some_iff.mp hv
    obtain ⟨rs, hrs, hr⟩ := Option.bind_eq_some_iff.mp hr
    rw [hopen] at hcells hrs
    cases hcells
    cases hrs
    simp only [List.getElem?_map, Option.map_eq_some_iff] at hv hr
    obtain ⟨b, -, hvalue⟩ := hv
    cases hvalue
    obtain ⟨name, hname, rfl⟩ := hr
    rintro lent hrole
    rw [Naming.role_of_not_isFunction (h name (List.mem_of_getElem? hname))] at hrole
    cases hlends : ν.lends name <;> rw [hlends] at hrole <;> cases hrole

/-- The evaluation of a program that hands references inward accesses cells of open frames only, whichever accesses are
guarded. -/
theorem Tree.guarded_inward {t : Tree} {code : Emissions} {x : Term 1} {references : List Text}
    (h : t.emissions = .ok code) (ht : t.inward references = true) (hx : t.term? = some x) {g : Guard} {fuel : Nat}
    {e : StepError} {σ : Store} (heval : x.guarded g fuel [0] [0] Store.initial = .error (.failed e) σ)
    (pos : Position) : e ≠ .unboundSlot pos := by
  obtain ⟨slots, rs, body, rfl, hslots, hbody⟩ := Tree.term_inward h ht hx
  generalize hb : Builtin.names.map (t.naming references).role = builtins at hbody
  have hbuiltins : ∀ name ∈ Builtin.names, (t.naming references).isFunction name = false := by
    obtain ⟨hrest, -⟩ := Bool.and_eq_true_iff.mp ht
    obtain ⟨hnames, -⟩ := Bool.and_eq_true_iff.mp hrest
    simpa using hnames
  have hinitial : Store.initial.Inward [builtins, rs] [0] [builtins] := hb ▸ Store.initial_inward hbuiltins
  have hsituated : Situated [builtins, rs] [builtins, rs] [builtins, rs] [0, 1] [0, 1] := by
    refine ⟨List.prefix_rfl, List.prefix_rfl, .cons rfl (.cons rfl .nil), fun f hf => hf, fun f hf g hg => ?_⟩
    cases hg
    rcases List.mem_cons.mp hf with rfl | hf
    · exact Nat.zero_le 1
    · exact (List.mem_singleton.mp hf).le
  have hsettles : ∀ lower, LowerInward [builtins, rs] lower →
      Eval.Settles (Contract.inward [builtins, rs] [0]) [builtins] (fun Δ v => v.Inward [builtins, rs] Δ ∅ .plain)
        (fun _ _ => True) ((Term.scope slots body).guardedWith g lower [0] [0] Store.initial) := by
    intro lower hlower
    have hlength : (List.replicate slots (none : Option Value)).length = rs.length := by simp [hslots]
    refine Eval.StaysInward.inFrame (by simp) hlength (fun slot v r hv => ?_)
      (hbody.guardedWith_meets hlower rfl hsituated) (fun _ _ _ _ => trivial) _ hinitial
    simp [List.getElem?_replicate] at hv
  cases fuel with
  | zero =>
    have hend := hsettles (fun _ _ _ => throw .timeout) fun _ _ _ _ _ _ _ _ => .timeout
    rw [Term.guarded] at heval
    rw [heval] at hend
    exact hend pos
  | succ fuel =>
    have hend := hsettles (Term.guarded g fuel) (Term.Inward.guarded_meets rfl fuel)
    rw [Term.guarded] at heval
    rw [heval] at hend
    exact hend pos

/-- The evaluation of a program that hands references inward stays in open blocks. -/
theorem Tree.staysOpen_of_inward {t : Tree} {code : Emissions} {references : List Text} (h : t.emissions = .ok code)
    (ht : t.inward references = true) (fuel : Nat) : t.staysOpen fuel = true := by
  unfold Tree.staysOpen
  split
  · rfl
  next x hx =>
    split
    next pos σ heval => exact absurd rfl (Tree.guarded_inward h ht hx heval pos)
    · rfl

end Tenure
