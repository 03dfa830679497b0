import Tenure.Proofs.Assignment.Rules
import Tenure.Proofs.Assignment.Soundness
import Tenure.Proofs.Order.Items

/-!
# Programs that assign before they read

All functions of a crate are stored before the first one is called, into different slots since they have different
names. So every slot has a value when code for an orderly program reads it (`Tree.emissions_definite`), and the
evaluation of the program never comes to a cell without a value (`Tree.guarded_assigned`).
-/

set_option autoImplicit false

namespace Tenure

namespace Places

theorem lastDeclared?_eq_none {name : Text} {names : List Text} (h : name ∉ names) :
    lastDeclared? name (declaredSlots names) = none := by
  cases hlast : lastDeclared? name (declaredSlots names) with
  | none => rfl
  | some i =>
    obtain ⟨s, hs, rfl⟩ := name_of_lastDeclared? hlast
    obtain ⟨name, hname, rfl⟩ := List.mem_map.mp (List.mem_of_getElem? hs)
    exact absurd hname h

/-- Where all names are different, each stands for its own slot. -/
theorem lastDeclared?_of_nodup {name : Text} {names : List Text} (h : names.Nodup) {slot : Nat}
    (hname : names[slot]? = some name) : lastDeclared? name (declaredSlots names) = some slot := by
  induction names generalizing slot with
  | nil => cases hname
  | cons first rest ih =>
    obtain ⟨hfirst, hrest⟩ := List.nodup_cons.mp h
    cases slot with
    | zero =>
      cases hname
      have hnone := lastDeclared?_eq_none hfirst
      rw [declaredSlots] at hnone ⊢
      simp [lastDeclared?, hnone]
    | succ slot =>
      have hsome := ih hrest hname
      rw [declaredSlots] at hsome ⊢
      simp [lastDeclared?, hsome]

end Places

/-- The functions of a crate that passes the check have different names. -/
theorem Check.names_nodup {check : Tree → Check Ty} [∀ e, (check e).Appends] {t : Tree} {c c' : Checker} {τ : Ty}
    {items : List Tree} {names : List Text} (h : Clean (crate check t) c τ c') (hitems : t.childrenOf .function = .ok items)
    (hnames : Compile.names items = .ok names) : names.Nodup := by
  obtain ⟨_, hitems', h⟩ := clean_lift_bind.mp h
  cases hitems.symm.trans hitems'
  obtain ⟨known, c₁, hglobals, -⟩ := h.bind inferInstance fun _ => by
    refine .bind inferInstance fun _ => .bind inferInstance fun _ => .bind inferInstance fun _ => ?_
    refine .bind inferInstance fun _ => ?_
    split <;> infer_instance
  obtain ⟨entries, hentries, hnodup, -⟩ := clean_declareGlobals.mp hglobals
  have hsame : names = entries.map Prod.fst := by
    clear h hitems hitems' hglobals hnodup
    induction hentries generalizing names with
    | nil =>
      cases hnames
      rfl
    | cons hfirst _ ih =>
      simp only [Compile.names, hfirst.1, bind, Except.bind] at hnames
      split at hnames
      · cases hnames
      next rest hrest =>
        cases hnames
        rw [List.map_cons, ih hrest]
  exact hsame ▸ hnodup

namespace Compile

variable {slots : List Text} {height start : Nat} {t : Tree} {ts : List Tree} {s s' : CompileState} {code : Emissions}

/-- The environment in which the functions of a crate are compiled. -/
def crateEnv (slots : List Text) : Environment := (({} : Environment).extend Builtin.names).extend slots

theorem crateEnv_distinct (slots : List Text) : (crateEnv slots).Distinct := by
  have hempty : ({} : Environment).Distinct := by simp [Environment.Distinct, Environment.bindings]
  exact (hempty.extend _).extend _

theorem crateEnv_shape (slots : List Text) : (crateEnv slots).shape = [Builtin.names.length, slots.length] := by
  rw [crateEnv, Environment.shape_extend, Environment.shape_extend]
  rfl

theorem crateEnv_places (slots : List Text) :
    (crateEnv slots).places = [declaredSlots Builtin.names] ++ [declaredSlots slots] := by
  rw [crateEnv, Environment.places_extend, Environment.places_extend]
  rfl

/-- The body of a function counts on all functions of the crate. -/
theorem function_definite (ht : t.orderly false [] = true) (hblock : Form.ofTag t.tag ≠ .block) (hnodup : slots.Nodup)
    (hs : ∀ depth, (crateEnv slots).Gains depth [] s.env) (h : function (toDepth height) start t s = .ok (code, s')) :
    (∀ depth, (crateEnv slots).Gains depth [] s'.env) ∧
      ∃ name x, t.name = .ok name ∧ Resolve.function (Resolve.toDepth height) t s.env.places =
          some (x, s'.env.places) ∧
        ∀ slot, slots[slot]? = some name → ∀ A, x.Definite (crateEnv slots).shape (crateEnv slots).shape A
          (insert (1, slot) A) := by
  simp only [function, bind_ok, lift_ok] at h
  obtain ⟨name, _, ⟨hname, rfl⟩, body, _, ⟨hbody, rfl⟩, h⟩ := h
  cases body with
  | none => exact absurd h unsupported_ok
  | some body =>
    simp only [bind_ok, lift_ok, get_ok, setDiverged_ok, emit_ok, modify_ok] at h
    obtain ⟨trees, _, ⟨htrees, rfl⟩, parameters, _, ⟨hparameters, rfl⟩, _, _, ⟨rfl, rfl⟩, _, _, hextend, _, _, rfl,
      value, s₂, hvalue, _, _, ⟨rfl, rfl⟩, _, _, ⟨rfl, rfl⟩, _, s₃, hs₃, _, _, ⟨rfl, rfl⟩, h⟩ := h
    obtain ⟨-, rfl⟩ := extend_ok hextend
    have hd : s.env.Distinct := (hs 0).keeps.distinct (crateEnv_distinct slots)
    have hshape : s.env.shape = (crateEnv slots).shape := (hs 0).keeps.shape
    have hadmits : body.Admits [] body.targets :=
      ⟨Tree.orderly_of_mem ht hblock (Tree.mem_of_firstWith hbody), List.Subset.refl _⟩
    have hx : ∀ depth, Secures (crateEnv slots).shape depth [] body.targets (Resolve.toDepth height body)
        { s with env := s.env.extend parameters, diverged := false } s₂ := fun depth =>
      toDepth_secures height depth hadmits (hd.extend parameters) hvalue
    have hg₃ : ∀ depth, s.env.Gains depth [] s₃.env := fun depth => by
      rw [← hs₃]
      exact (Environment.Gains.shrink (hx _).gains).restored hd
    have hp₃ : s₃.env.places = s₂.env.places.dropLast := by simp [← hs₃]
    have hcrate : ∀ depth, (crateEnv slots).Gains depth [] s₃.env := fun depth => (hs depth).trans (hg₃ depth)
    cases hfind : s₃.env.find? name with
    | none =>
      simp only [hfind] at h
      exact absurd h fail_ok
    | some found =>
      obtain ⟨pos, v⟩ := found
      simp only [hfind, bind_ok, emit_ok, pure_ok] at h
      obtain ⟨_, _, ⟨rfl, rfl⟩, _, _, ⟨rfl, rfl⟩, rfl, rfl⟩ := h
      obtain ⟨frame, slot, hpos, hat, -, -⟩ := find?_slot hfind
      -- all slots count as assigned where the body starts
      obtain ⟨x, B, hxr, hxd, -, -⟩ := (hx 0).definite (slotsOf ((crateEnv slots).shape ++ [parameters.length])) {
        depth := by simp [Environment.depth, Environment.extend]
        held := by
          rw [← hshape, ← Environment.shape_extend]
          exact .slots _
        items := slotsOf_append _ _
        diverged := fun hfalse => by cases hfalse }
      replace hxd : x.Definite (crateEnv slots).shape (s.env.extend parameters).shape
          (slotsOf ((crateEnv slots).shape ++ [parameters.length])) B := hxd
      rw [Environment.shape_extend, hshape] at hxd
      refine ⟨hcrate, name, .store frame slot (.closure parameters.length x), hname, ?_, fun k hk A => ?_⟩
      · rw [hp₃] at hpos ⊢
        have hxr : Resolve.toDepth height body (s.env.places ++ [parameters.map fun name => ⟨name, true⟩]) =
            some (x, s₂.env.places) := by
          rw [← Environment.places_extend]
          exact hxr
        simp [Resolve.function, Resolve.openFrame, Resolve.closeFrame, Resolve.lift_apply hname,
          Resolve.lift_apply hbody, Resolve.lift_apply htrees, Resolve.lift_apply hparameters, hxr, hpos]
      · -- the name of the function stands for its slot
        have hplace := (Resolve.position_some.mp hpos).1
        rw [(hcrate _).places, crateEnv_places, Places.find?_append, Places.lastDeclared?_of_nodup hnodup hk] at hplace
        cases hplace
        refine .store (.closure hxd) ?_
        rw [crateEnv_shape]
        exact ⟨slots.length, rfl, (List.getElem?_eq_some_iff.mp hk).1⟩

/-- After the functions of a crate, the slots of their names have values. -/
theorem functions_definite (hts : ∀ t ∈ ts, t.orderly false [] = true ∧ Form.ofTag t.tag ≠ .block)
    (hnodup : slots.Nodup) {names : List Text} (hnames : Compile.names ts = .ok names) (hsub : names ⊆ slots)
    (hs : ∀ depth, (crateEnv slots).Gains depth [] s.env)
    (h : functions (toDepth height) start ts s = .ok (code, s')) :
    (∀ depth, (crateEnv slots).Gains depth [] s'.env) ∧
      ∃ x, Resolve.functions (Resolve.toDepth height) ts s.env.places = some (x, s'.env.places) ∧
        ∀ A, ∃ B, x.Definite (crateEnv slots).shape (crateEnv slots).shape A B ∧ A ⊆ B ∧
          ∀ (slot : Nat) (name : Text), slots[slot]? = some name → name ∈ names → (1, slot) ∈ B := by
  induction ts generalizing start s code names with
  | nil =>
    obtain ⟨rfl, rfl⟩ := pure_ok.mp h
    cases hnames
    exact ⟨hs, .nothing, rfl, fun A => ⟨A, .nothing, Set.Subset.refl A, fun _ _ _ hmem => absurd hmem (by simp)⟩⟩
  | cons t rest ih =>
    simp only [functions, bind_ok, pure_ok] at h
    obtain ⟨one, s₁, hone, two, s₂, htwo, rfl, rfl⟩ := h
    obtain ⟨ht, hblock⟩ := hts t (List.mem_cons_self ..)
    obtain ⟨hs₁, name, x, hname, hx, hxd⟩ := function_definite ht hblock hnodup hs hone
    simp only [Compile.names, hname, bind, Except.bind] at hnames
    split at hnames
    · cases hnames
    next others hothers =>
      cases hnames
      obtain ⟨hfirst, hrest⟩ := List.cons_subset.mp hsub
      obtain ⟨slot, hslot⟩ := List.getElem?_of_mem hfirst
      obtain ⟨hs₂, y, hy, hyd⟩ := ih (fun e he => hts e (List.mem_cons_of_mem _ he)) hothers hrest hs₁ htwo
      refine ⟨hs₂, .seq x y, by simp [Resolve.functions, hx, hy], fun A => ?_⟩
      obtain ⟨B, hB, hA, hmem⟩ := hyd (insert (1, slot) A)
      refine ⟨B, .seq (hxd slot hslot A) hB, (Set.subset_insert ..).trans hA, fun k other hk hother => ?_⟩
      rcases List.mem_cons.mp hother with rfl | hother
      · have hlt := (List.getElem?_eq_some_iff.mp hk).1
        obtain rfl := (List.getElem?_inj hlt hnodup).mp (hk.trans hslot.symm)
        exact hA (Set.mem_insert ..)
      · exact hmem k other hk hother

/-- In a crate whose functions have different names, every slot has a value when it is read. -/
theorem crate_definite (ht : ∀ e ∈ t.children, e.orderly false [] = true) {items : List Tree}
    (hitems : t.childrenOf .function = .ok items) (hslots : names items = .ok slots) (hnodup : slots.Nodup)
    (h : crate (toDepth height) start t { env := ({} : Environment).extend Builtin.names } = .ok (code, s')) :
    ∃ body B, Resolve.crate (Resolve.toDepth height) t [declaredSlots Builtin.names] =
        some (.scope slots.length body, s'.env.places) ∧
      body.Definite (crateEnv slots).shape (crateEnv slots).shape (slotsOf [Builtin.names.length]) B := by
  simp only [crate, bind_ok, lift_ok, emit_ok] at h
  obtain ⟨_, _, ⟨hitems', rfl⟩, _, _, ⟨hslots', rfl⟩, _, _, ⟨rfl, rfl⟩, _, _, hextend, one, s₁, hone, h⟩ := h
  cases hitems.symm.trans hitems'
  cases hslots.symm.trans hslots'
  obtain ⟨-, rfl⟩ := extend_ok hextend
  have hfunction : ∀ e ∈ items, e.orderly false [] = true ∧ Form.ofTag e.tag ≠ .block := by
    refine fun e he => ⟨ht e (Tree.mem_of_select hitems he), fun hblock => ?_⟩
    have hp := Tree.passes_of_select hitems he
    simp [hblock] at hp
  obtain ⟨hs₁, x, hx, hxd⟩ := functions_definite (s := { env := crateEnv slots }) hfunction hnodup hslots
    (List.Subset.refl _) (fun _ => .refl _) hone
  simp only [get_ok] at h
  obtain ⟨_, _, ⟨rfl, rfl⟩, h⟩ := h
  cases hfind : s₁.env.find? "main" with
  | none =>
    simp only [hfind] at h
    exact absurd h fail_ok
  | some found =>
    obtain ⟨pos, v⟩ := found
    simp only [hfind, bind_ok, emit_ok, pure_ok] at h
    obtain ⟨_, _, ⟨rfl, rfl⟩, rfl, rfl⟩ := h
    obtain ⟨frame, slot, hpos, hat, -, -⟩ := find?_slot hfind
    obtain ⟨B, hB, hsub, hmem⟩ := hxd (slotsOf [Builtin.names.length])
    -- every slot of the crate is that of a builtin, or has the name of a function
    have hall : slotsOf (crateEnv slots).shape ⊆ B := by
      rw [crateEnv_shape]
      rintro ⟨_ | _ | i, j⟩ ⟨n, hn, hlt⟩
      · exact hsub ⟨n, hn, hlt⟩
      · cases hn
        exact hmem j slots[j] (List.getElem?_eq_getElem hlt) (List.getElem_mem hlt)
      · simp at hn
    have hload : (frame, slot) ∈ B := hall ((hs₁ 0).keeps.shape ▸ Environment.within_of_at? hat)
    refine ⟨.seq x (.call (.load frame slot) .nothing), B, ?_, .seq hB (.call (.load hload) .nothing hall)⟩
    have hopen : (crateEnv slots).places = [declaredSlots Builtin.names] ++ [slots.map fun name => ⟨name, true⟩] :=
      crateEnv_places slots
    simp only [hopen] at hx
    simp only [Resolve.crate, Resolve.openFrame, Resolve.bind_apply, Resolve.lift_apply hitems,
      Resolve.lift_apply hslots, Resolve.modify_apply, Option.bind_some, hx, hpos, Resolve.pure_apply]

end Compile

/-- The code of a program is what code generation makes of it. -/
theorem Tree.program_of_emissions {t : Tree} {code : Emissions} (h : t.emissions = .ok code) :
    ∃ s, Compile.program t {} = .ok (code, s) := by
  unfold Tree.emissions at h
  split at h
  · cases h
  · split at h
    · cases h
    · cases h
    · split at h
      · cases hp : (Compile.program t).run {} with
        | error e => simp [hp, Except.map] at h
        | ok r =>
          simp only [hp, Except.map, Except.ok.injEq] at h
          exact ⟨r.2, h ▸ hp⟩
      · cases h

/-- In the term of an orderly program every slot has a value when it is read. -/
theorem Tree.emissions_definite {t : Tree} {code : Emissions} (h : t.emissions = .ok code)
    (ht : ∀ e ∈ t.children, e.orderly false [] = true) :
    ∃ slots body B, t.term? = some (.scope slots body) ∧
      body.Definite [Builtin.names.length, slots] [Builtin.names.length, slots] (slotsOf [Builtin.names.length]) B := by
  obtain ⟨depth, τ, c', -, hcheck⟩ := Tree.emissions_checked h
  obtain ⟨s, hprogram⟩ := Tree.program_of_emissions h
  simp only [Compile.program, Compile.bind_ok, Compile.onEnv_ok] at hprogram
  obtain ⟨_, _, rfl, one, s₁, hone, -⟩ := hprogram
  obtain ⟨items, slots, hitems, hslots⟩ : ∃ items slots, t.childrenOf .function = .ok items ∧
      Compile.names items = .ok slots := by
    have hcrate := hone
    simp only [Compile.crate, Compile.bind_ok, Compile.lift_ok] at hcrate
    obtain ⟨items, _, ⟨hitems, -⟩, slots, _, ⟨hslots, -⟩, -⟩ := hcrate
    exact ⟨items, slots, hitems, hslots⟩
  obtain ⟨body, B, hbody, hdefinite⟩ := Compile.crate_definite ht hitems hslots
    (Check.names_nodup hcheck hitems hslots) hone
  rw [Compile.crateEnv_shape] at hdefinite
  refine ⟨slots.length, body, B, ?_, hdefinite⟩
  have hopen : ([] : Places) ++ [Builtin.names.map fun name => ⟨name, true⟩] = [declaredSlots Builtin.names] := rfl
  simp only [Tree.term?, Resolve.program, StateT.run, Resolve.bind_apply, Resolve.openFrame, Resolve.modify_apply,
    Option.bind_some, hopen, hbody, Option.map_some]

/-- The cells of the builtins. -/
def Cells.builtins : Cells where
  present := {c | c.frame = 0 ∧ c.slot < Builtin.names.length}
  assigned := {c | c.frame = 0 ∧ c.slot < Builtin.names.length}
  assigned_present := Set.Subset.refl _

theorem Store.initial_knows (crate : List Nat) : Store.initial.Knows crate Cells.builtins := by
  have hcell : ∀ c ∈ Cells.builtins.assigned, ∃ v, Store.initial.cell? c = some (some v) := by
    rintro ⟨frame, slot⟩ ⟨hframe, hlt⟩
    simp only at hframe hlt
    subst hframe
    have hlt' : slot < Builtin.all.length := by simpa [Builtin.names] using hlt
    exact ⟨.builtin Builtin.all[slot], by simp [Store.cell?, Store.initial, hlt']⟩
  refine ⟨fun c hc => ?_, hcell, fun c v hv => ?_⟩
  · obtain ⟨v, hv⟩ := hcell c hc
    exact ⟨_, hv⟩
  · obtain ⟨cells, hcells, hv⟩ := Option.bind_eq_some_iff.mp hv
    obtain ⟨-, rfl⟩ : c.frame = 0 ∧ Builtin.all.map (fun b => some (Value.builtin b)) = cells := by
      simpa [Store.initial, List.getElem?_singleton] using hcells
    simp only [List.getElem?_map, Option.map_eq_some_iff] at hv
    obtain ⟨b, -, hvalue⟩ := hv
    cases hvalue
    trivial

/-- The evaluation of an orderly program does not come to a cell without a value, and only a guarded dereference is to a
frame that is not open. -/
theorem Tree.guarded_assigned {t : Tree} {code : Emissions} {x : Term 1} (h : t.emissions = .ok code)
    (ht : ∀ e ∈ t.children, e.orderly false [] = true) (hx : t.term? = some x) {references : Bool} {fuel : Nat}
    {e : StepError} {σ : Store}
    (heval : x.guarded ⟨true, references⟩ fuel [0] [0] Store.initial = .error (.failed e) σ) :
    (∀ pos, e ≠ .unassigned pos) ∧ (references = false → ∀ pos, e ≠ .unboundSlot pos) := by
  obtain ⟨slots, body, B, hterm, hbody⟩ := Tree.emissions_definite h ht
  cases hx.symm.trans hterm
  let crate := [Builtin.names.length, slots]
  have hempty : ∀ v, some v ∈ List.replicate slots (none : Option Value) → v.Certain crate Cells.builtins :=
    fun v hv => by simp at hv
  obtain ⟨κ, hle, hknows, hpresent, -⟩ := (Store.initial_knows crate).extend hempty
  have hbuiltins : Reaching [0] (slotsOf [Builtin.names.length]) Cells.builtins.assigned := by
    rintro ⟨_ | i, j⟩ ⟨n, hn, hlt⟩
    · cases hn
      exact ⟨0, rfl, rfl, hlt⟩
    · simp at hn
  have hstands : Stands κ crate [0, 1] [0, 1] := by
    refine ⟨List.prefix_rfl, rfl, ?_, fun f hf => hf⟩
    exact (hbuiltins.mono (Set.Subset.trans Cells.builtins.assigned_present hle.1)).extend rfl fun slot hslot =>
      hpresent slot (by simpa using hslot)
  have hsettles : ∀ lower, LowerAssigns crate references lower →
      Eval.Settles (Contract.assignment crate references) κ (fun κ' v => v.Certain crate κ')
        (fun κ' vs => Reaching [0, 1] B κ'.assigned ∧ vs.All (Value.Certain crate κ'))
        ((Term.scope slots body).guardedWith ⟨true, references⟩ lower [0] [0] Store.initial) :=
    fun _ hlower => hbody.guardedWith_meets hlower rfl hstands ((hbuiltins.mono hle.2).append [1]) _ hknows
  cases fuel with
  | zero =>
    have hend := hsettles (fun _ _ _ => throw .timeout) fun _ _ _ _ _ _ _ _ _ _ => .timeout
    rw [Term.guarded] at heval
    rw [heval] at hend
    exact hend
  | succ fuel =>
    have hend := hsettles _ (Term.Definite.guarded_meets rfl fuel)
    rw [Term.guarded] at heval
    rw [heval] at hend
    exact hend

end Tenure
