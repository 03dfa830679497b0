import Tenure.Proofs.Typing.Blocks
import Tenure.Proofs.Typing.Soundness

/-!
# Types of programs

Where the checker finds nothing in a crate in normal form, the functions of the crate are well typed in a context in which
the function at which the program starts has no type, and so the evaluation of the program does not fail with an error of
types: `Tree.eval_typed`.
-/

set_option autoImplicit false

namespace Tenure

open Check (Clean Appends Same)

/-! ## Functions -/

section Functions

theorem Compile.mem_names {ts : List Tree} {names : List Text} (h : Compile.names ts = .ok names) {t : Tree} (ht : t ∈ ts)
    {name : Text} (hname : t.name = .ok name) : name ∈ names := by
  induction ts generalizing names with
  | nil => cases ht
  | cons first rest ih =>
    cases hfirst : first.name with
    | error m => simp [Compile.names, hfirst, bind, Except.bind] at h
    | ok other =>
      cases hrest : Compile.names rest with
      | error m => simp [Compile.names, hfirst, hrest, bind, Except.bind] at h
      | ok others =>
        simp only [Compile.names, hfirst, hrest, bind, Except.bind, pure, Except.pure, Except.ok.injEq] at h
        subst h
        rcases List.mem_cons.mp ht with rfl | ht
        · cases hname.symm.trans hfirst
          exact List.mem_cons_self ..
        · exact List.mem_cons_of_mem _ (ih hrest ht)

variable {c c' : Checker} {f : Enclosing} {q : Places} {done : List Text}

/-- Parameters are declared in order, like the names of let statements. -/
theorem declareParameters_declaring {ps : List Tree} {names : List Text} {types : List Ty} {u : Unit}
    (hnames : Compile.names ps = .ok names) (hlength : types.length = ps.length) (hinside : c.scopes.inner ≠ [])
    (hcheck : Clean (Check.declareParameters (ps.zip types)) c u c') : ∃ x, Declaring f c c' q done names x types := by
  induction ps generalizing c names types done with
  | nil =>
    cases hnames
    obtain rfl := List.length_eq_zero_iff.mp hlength
    obtain ⟨-, rfl⟩ := Check.clean_pure.mp hcheck
    exact ⟨_, .nothing hinside⟩
  | cons p ps ih =>
    cases types with
    | nil => cases hlength
    | cons type types =>
      simp only [List.zip_cons_cons, Check.declareParameters, Check.clean_bind, Check.clean_lift,
        Check.clean_define] at hcheck
      obtain ⟨name, _, ⟨hname, rfl⟩, mutable, _, ⟨-, rfl⟩, _, _, rfl, hrest⟩ := hcheck
      simp only [Compile.names, hname, bind, Except.bind] at hnames
      cases hnames' : Compile.names ps with
      | error e => simp [hnames'] at hnames
      | ok names' =>
        rw [hnames'] at hnames
        cases hnames
        have hfirst : Declaring f _ _ q done [name] .nothing [type] :=
          .declare hinside (.refl _) (.define _ _ _ mutable) fun _ _ _ => .nothing
        obtain ⟨x, hx⟩ := ih hnames' (Nat.succ.inj hlength) hfirst.inside hrest
        exact ⟨_, hfirst.seq hx⟩

variable {depth fuel : Nat} {item : Tree} {s : Signature} {p p' : Places} {x : Term 0}

/-- The parts of a resolved function: its body in a frame of its parameters, and the slot of its name. -/
theorem Resolve.function_some {visit : Resolve.Visit} (h : Resolve.function visit item p = some (x, p')) :
    ∃ name block ps names value p₁ frame slot, item.name = .ok name ∧ item.child .block = .ok (some block) ∧
      item.parametersOf = .ok ps ∧ Compile.names ps = .ok names ∧
      visit block (p ++ [declaredSlots names]) = some (value, p₁) ∧ p' = p₁.dropLast ∧
      p'.find? name = some (frame, slot) ∧ x = .store frame slot (.closure names.length value) := by
  obtain ⟨name, hname, h⟩ := Resolve.lift_bind_some.mp h
  obtain ⟨block, hblock, h⟩ := Resolve.lift_bind_some.mp h
  cases block with
  | none => cases h
  | some block =>
    obtain ⟨ps, hps, h⟩ := Resolve.lift_bind_some.mp h
    obtain ⟨names, hnames, h⟩ := Resolve.lift_bind_some.mp h
    simp only [Resolve.bind_some, Resolve.pure_some, Resolve.position_some] at h
    obtain ⟨_, _, hopen, value, p₁, hvisit, _, _, hclose, ⟨frame, slot⟩, _, ⟨hfind, rfl⟩, rfl, rfl⟩ := h
    cases hopen
    cases hclose
    exact ⟨name, block, ps, names, value, p₁, frame, slot, hname, hblock, hps, hnames, hvisit, rfl, hfind, rfl⟩

/-- Checking a function with a signature that has a type for every parameter finds nothing. -/
def FunctionChecked (depth : Nat) (item : Tree) (s : Signature) (c c' : Checker) : Prop :=
  (∃ u, Clean (Check.function (Check.toDepth depth) item s) c u c') ∧
    ∃ ps, item.parametersOf = .ok ps ∧ s.parameters.length = ps.length

/-- The body of a function is an expression down to a depth. -/
def BodyTo (depth : Nat) (item : Tree) : Prop :=
  ∀ body, item.child .block = .ok (some body) → body.Expression ∧ body.height ≤ depth

theorem Tree.Normal.bodyTo {t : Tree} (h : t.Normal) (hheight : t.height ≤ depth + 1) :
    ∀ item ∈ t.children, BodyTo depth item := by
  intro item hitem body hblock
  refine ⟨h.bodies item hitem body hblock, ?_⟩
  have h₁ := Tree.height_lt (Tree.mem_of_firstWith hblock)
  have h₂ := Tree.height_lt hitem
  omega

/-- A function that the checker has nothing against: its closure, and the type of its body. -/
theorem FunctionChecked.typed (h : FunctionChecked depth item s c c') (hbody : BodyTo depth item)
    (hresolve : Resolve.function (Resolve.toDepth fuel) item p = some (x, p')) :
    p' = p ∧ Same c c' ∧ ∃ name frame slot body got, item.name = .ok name ∧ p.find? name = some (frame, slot) ∧
      x = .store frame slot (.closure s.parameters.length body) ∧ (name = "main" ∨ got = s.result) ∧
      ∀ Γ, Agrees c.scopes p Γ →
        body.Typed (Enclosing.returns ⟨name, s.result⟩) (Γ ++ [s.parameters.map some]) [got] := by
  obtain ⟨⟨u, hcheck⟩, ps, hps, hlength⟩ := h
  obtain ⟨name, body, _, got, c₁, c₂, hname, hblock, hps₁, hdeclare, hvisit, rfl, hresult⟩ := Check.function_ok hcheck
  obtain ⟨_, _, _, names, y, p₁, frame, slot, hname₂, hblock₂, hps₂, hnames, hy, rfl, hfind, rfl⟩ :=
    Resolve.function_some hresolve
  cases hname.symm.trans hname₂
  cases hblock.symm.trans hblock₂
  cases hps.symm.trans hps₁
  cases hps.symm.trans hps₂
  obtain ⟨hexpression, hheight⟩ := hbody body hblock
  obtain ⟨rfl, hely⟩ := correspondsTo depth body hexpression hheight fuel rfl hvisit hy
  obtain ⟨z, hext⟩ : ∃ z, Declaring ⟨name, s.result⟩ _ c₁ p [] names z s.parameters :=
    declareParameters_declaring hnames hlength (by simp [Scopes.enter]) hdeclare
  rw [List.dropLast_concat] at hfind ⊢
  refine ⟨rfl, ⟨?_, hely.same.global.trans hext.global, ?_⟩, name, frame, slot, y, got, hname, hfind, ?_, hresult,
    fun Γ hΓ => hely.typed _ ?_⟩
  · show c₂.scopes.inner.drop 1 = c.scopes.inner
    rw [hely.same.inner, hext.outer]
    rfl
  · show c₂.functions.drop 1 = c.functions
    rw [hely.same.functions]
    exact hext.functions
  · rw [hext.length]
  · exact hext.agrees rfl hΓ.enter_frame

end Functions

/-! ## Globals -/

section Globals

variable {c c' : Checker} {q : Places} {done : List Text}

/-- The signature under which a name is known. -/
def knownSignature? (known : List (Text × Signature)) (name : Text) : Option Signature :=
  (known.find? fun entry => entry.1 = name).map Prod.snd

theorem knownAs_eq {known : List (Text × Signature)} {name : Text} {s : Signature}
    (h : knownSignature? known name = some s) : Check.knownAs known name = s := by
  unfold knownSignature? at h
  unfold Check.knownAs
  cases hfind : known.find? fun entry => entry.1 = name with
  | none =>
    rw [hfind] at h
    cases h
  | some entry =>
    rw [hfind] at h
    cases h
    rfl

theorem knownSignature?_fresh {known : List (Text × Signature)} {name : Text}
    (hfresh : ¬ (known.any fun entry => entry.1 = name) = true) : knownSignature? known name = none := by
  have hnone : known.find? (fun entry => entry.1 = name) = none :=
    List.find?_eq_none.mpr fun entry hentry hname => hfresh (List.any_eq_true.mpr ⟨entry, hentry, hname⟩)
  rw [knownSignature?, hnone]
  rfl

theorem knownSignature?_append {known : List (Text × Signature)} {name other : Text} {s : Signature}
    (hfresh : ¬ (known.any fun entry => entry.1 = name) = true) :
    knownSignature? (known ++ [(name, s)]) other = if other = name then some s else knownSignature? known other := by
  rw [knownSignature?, List.find?_append]
  by_cases h : other = name
  · subst h
    have hnone := Option.map_eq_none_iff.mp (knownSignature?_fresh hfresh)
    simp [hnone]
  · have hone : [(name, s)].find? (fun entry => entry.1 = other) = none := by simp [Ne.symm h]
    simp [hone, h, knownSignature?]

/-- What the declaration of the functions of a crate has found. -/
structure Globals (c c' : Checker) (q : Places) (done : List Text) (known known' : List (Text × Signature))
    (items : List Tree) (names : List Text) (types : List Ty) : Prop where
  length : types.length = names.length
  inner : c'.scopes.inner = []
  functions : c'.functions = c.functions
  agrees : ∀ {Γ before}, before.length = done.length →
    Agrees c.scopes (q ++ [declaredSlots done]) (Γ ++ [before.map some]) →
    Agrees c'.scopes (q ++ [declaredSlots (done ++ names)]) (Γ ++ [(before ++ types).map some])
  kept : ∀ {name s}, knownSignature? known name = some s → knownSignature? known' name = some s
  lookup : (∀ {name s}, knownSignature? known name = some s → c.scopes.lookup? name = some s.type) →
    ∀ {name s}, knownSignature? known' name = some s → c'.scopes.lookup? name = some s.type
  bound : ∀ {name τ}, c'.scopes.lookup? name = some τ → name ∈ names ∨ c.scopes.lookup? name = some τ
  items : ∀ item ∈ items, ∃ name s ps, item.name = .ok name ∧ knownSignature? known' name = some s ∧
    item.parametersOf = .ok ps ∧ s.parameters.length = ps.length

theorem declareGlobals_ok {items : List Tree} {names : List Text} {known known' : List (Text × Signature)}
    (hnames : Compile.names items = .ok names) (hinner : c.scopes.inner = [])
    (hcheck : Clean (Check.declareGlobals items known) c known' c') :
    ∃ types, Globals c c' q done known known' items names types := by
  induction items generalizing c names known done with
  | nil =>
    cases hnames
    obtain ⟨rfl, rfl⟩ := Check.clean_pure.mp hcheck
    exact ⟨[], rfl, hinner, rfl, fun _ h => by simpa using h, id, id, .inr, by simp⟩
  | cons item items ih =>
    simp only [Check.declareGlobals] at hcheck
    obtain ⟨name, hname, hcheck⟩ := Check.clean_lift_bind.mp hcheck
    split at hcheck
    · exact absurd hcheck Check.clean_report_bind
    next hfresh =>
      simp only [Check.clean_bind, Check.clean_onScopes] at hcheck
      obtain ⟨s, c₁, hsignature, _, _, rfl, hrest⟩ := hcheck
      obtain ⟨rfl, ps, hps, hlength⟩ := Check.signature_ok hsignature
      simp only [Compile.names, hname, bind, Except.bind] at hnames
      cases hnames' : Compile.names items with
      | error e => simp [hnames'] at hnames
      | ok names' =>
        rw [hnames'] at hnames
        cases hnames
        obtain ⟨types, hglobals⟩ : ∃ types,
            Globals _ c' q (done ++ [name]) (known ++ [(name, s)]) known' items names' types :=
          ih hnames' (by exact hinner) hrest
        refine ⟨s.type :: types, ?_⟩
        have hlookup : ∀ other, (c₁.scopes.defineGlobal name s.type).lookup? other =
            if other = name then some s.type else c₁.scopes.lookup? other := by
          intro other
          rw [Scopes.defineGlobal_eq hinner, Scopes.lookup?_bind]
        refine ⟨?_, hglobals.inner, hglobals.functions, fun {Γ before} hbefore h => ?_, fun {other s'} hother => ?_,
          fun hknown => hglobals.lookup fun {other s'} hother => ?_, fun {other τ} hother => ?_, fun item' hitem => ?_⟩
        · simp [hglobals.length]
        · have hdeclare := h.declare (by simpa [declaredSlots] using hbefore) name
            { type := s.type, mutable := false, serial := c₁.scopes.declared }
          rw [← Scopes.defineGlobal_eq hinner] at hdeclare
          have hlonger : (before ++ [s.type]).length = (done ++ [name]).length := by simp [hbefore]
          simpa using hglobals.agrees hlonger (by simpa [declaredSlots] using hdeclare)
        · refine hglobals.kept ?_
          rw [knownSignature?_append hfresh, if_neg, hother]
          rintro rfl
          cases (knownSignature?_fresh hfresh).symm.trans hother
        · rw [knownSignature?_append hfresh] at hother
          rw [hlookup]
          split at hother
          next heq =>
            cases hother
            rw [if_pos heq]
          next hne =>
            rw [if_neg hne]
            exact hknown hother
        · rcases hglobals.bound hother with hmem | hbefore
          · exact .inl (List.mem_cons_of_mem _ hmem)
          · rw [hlookup] at hbefore
            split at hbefore
            next heq => exact .inl (heq ▸ List.mem_cons_self ..)
            next hne => exact .inr hbefore
        · rcases List.mem_cons.mp hitem with rfl | hitem
          · refine ⟨name, s, ps, hname, hglobals.kept ?_, hps, hlength⟩
            rw [knownSignature?_append hfresh, if_pos rfl]
          · exact hglobals.items item' hitem

end Globals

/-! ## Crates -/

section Crates

variable {check : Tree → Check Ty} [∀ t, Appends (check t)] {c c' : Checker} {t : Tree} {τ : Ty}

theorem mem_of_splitNamed {name : Text} {items others : List Tree} {found : Option Tree}
    (h : Check.splitNamed name items = .ok (found, others)) :
    (∀ m, found = some m → m.name = .ok name ∧ m ∈ items) ∧ (∀ item ∈ others, item ∈ items) ∧
      ∀ item ∈ items, item ∈ others ∨ found = some item := by
  induction items generalizing found others with
  | nil =>
    cases h
    simp
  | cons item items ih =>
    cases hname : item.name with
    | error e =>
      rw [Check.splitNamed, hname] at h
      cases h
    | ok name' =>
      simp only [Check.splitNamed, hname, bind, Except.bind] at h
      split at h
      next heq =>
        cases h
        refine ⟨?_, fun other hother => List.mem_cons_of_mem _ hother, fun other hother => ?_⟩
        · rintro m ⟨⟩
          exact ⟨heq ▸ hname, List.mem_cons_self ..⟩
        · rcases List.mem_cons.mp hother with rfl | hother
          · exact .inr rfl
          · exact .inl hother
      next hne =>
        cases hrest : Check.splitNamed name items with
        | error e =>
          rw [hrest] at h
          cases h
        | ok r =>
          rw [hrest] at h
          cases h
          obtain ⟨hfound, hothers, hall⟩ := ih hrest
          refine ⟨fun m hm => ?_, fun other hother => ?_, fun other hother => ?_⟩
          · exact ⟨(hfound m hm).1, List.mem_cons_of_mem _ (hfound m hm).2⟩
          · rcases List.mem_cons.mp hother with rfl | hother
            · exact List.mem_cons_self ..
            · exact List.mem_cons_of_mem _ (hothers other hother)
          · rcases List.mem_cons.mp hother with rfl | hother
            · exact .inl (List.mem_cons_self ..)
            · exact (hall other hother).imp_left (List.mem_cons_of_mem _)

/-- The functions of a crate are checked one after the other, each with the signature under which it is known. What every
check of a function keeps is kept up to each of them. -/
theorem crateFunctions_ok {R : Checker → Checker → Prop} (hrefl : ∀ c, R c c)
    (htrans : ∀ {c₁ c₂ c₃}, R c₁ c₂ → R c₂ c₃ → R c₁ c₃) {known : List (Text × Signature)} {items : List Tree} {u : Unit}
    (hstep : ∀ item ∈ items, ∀ name c₁ c₂ v, item.name = .ok name →
      Clean (Check.function check item (Check.knownAs known name)) c₁ v c₂ → R c₁ c₂)
    (h : Clean (Check.crateFunctions check known items) c u c') :
    ∀ item ∈ items, ∃ name c₁ c₂ v, item.name = .ok name ∧ R c c₁ ∧
      Clean (Check.function check item (Check.knownAs known name)) c₁ v c₂ := by
  induction items generalizing c with
  | nil => simp
  | cons item items ih =>
    simp only [Check.crateFunctions] at h
    obtain ⟨name, hname, h⟩ := Check.clean_lift_bind.mp h
    obtain ⟨v, c₁, hfunction, hrest⟩ := Check.clean_bind.mp h
    have hkept := hstep item (List.mem_cons_self ..) name c c₁ v hname hfunction
    intro other hother
    rcases List.mem_cons.mp hother with rfl | hother
    · exact ⟨name, c, c₁, v, hname, hrefl c, hfunction⟩
    · obtain ⟨name', c₂, c₃, v', hname', hkept', hfunction'⟩ :=
        ih (fun other hother => hstep other (List.mem_cons_of_mem _ hother)) hrest other hother
      exact ⟨name', c₂, c₃, v', hname', htrans hkept hkept', hfunction'⟩

theorem crateFunctions_concat {known : List (Text × Signature)} {items : List Tree} {item : Tree} {name : Text}
    {c₁ : Checker} {u v : Unit} (h : Clean (Check.crateFunctions check known items) c u c₁)
    (hname : item.name = .ok name) (hitem : Clean (Check.function check item (Check.knownAs known name)) c₁ v c') :
    Clean (Check.crateFunctions check known (items ++ [item])) c u c' := by
  induction items generalizing c with
  | nil =>
    obtain ⟨-, rfl⟩ := Check.clean_pure.mp h
    exact Check.clean_lift_bind.mpr ⟨name, hname, Check.clean_bind.mpr ⟨v, c', hitem, Check.clean_pure.mpr ⟨rfl, rfl⟩⟩⟩
  | cons first items ih =>
    obtain ⟨name', hname', h⟩ := Check.clean_lift_bind.mp h
    obtain ⟨w, c₂, hfirst, hrest⟩ := Check.clean_bind.mp h
    exact Check.clean_lift_bind.mpr ⟨name', hname', Check.clean_bind.mpr ⟨w, c₂, hfirst, ih hrest⟩⟩

theorem Tree.childrenOf_functions (hitems : ∀ item ∈ t.children, item.form = .ok .function) :
    t.childrenOf .function = .ok t.children :=
  Tree.select_all fun item hitem => ⟨.function, hitems item hitem, by simp⟩

/-- A crate of functions: they are declared, then all but the first `main` are checked in order, and `main` at last. -/
theorem clean_crate (hitems : ∀ item ∈ t.children, item.form = .ok .function) :
    Clean (Check.crate check t) c τ c' ↔ τ = .unit ∧ ∃ known c₁ m others c₂,
      Clean (Check.declareGlobals t.children []) c known c₁ ∧ Check.splitNamed "main" t.children = .ok (some m, others) ∧
      Clean (Check.crateFunctions check known others) c₁ () c₂ ∧
      Clean (Check.function check m (Check.knownAs known "main")) c₂ () c' := by
  have hfunctions := Tree.childrenOf_functions hitems
  have hothers : Tree.select (· ≠ .function) t.children = .ok [] :=
    Tree.select_none fun item hitem => ⟨.function, hitems item hitem, by simp⟩
  constructor
  · intro h
    obtain ⟨_, hfunctions', h⟩ := Check.clean_lift_bind.mp h
    cases hfunctions.symm.trans hfunctions'
    obtain ⟨known, c₁, hglobals, h⟩ := h.bind inferInstance fun _ => by
      refine .bind inferInstance fun _ => .bind inferInstance fun _ => .bind inferInstance fun _ => ?_
      refine .bind inferInstance fun _ => ?_
      split <;> infer_instance
    obtain ⟨⟨main, others⟩, hsplit, h⟩ := Check.clean_lift_bind.mp h
    obtain ⟨_, c₂, hchecked, h⟩ := h.bind inferInstance fun _ => by
      refine .bind inferInstance fun _ => .bind inferInstance fun _ => ?_
      split <;> infer_instance
    obtain ⟨_, hselect, h⟩ := Check.clean_lift_bind.mp h
    cases hothers.symm.trans hselect
    obtain ⟨_, c₃, hnothing, hend⟩ := h.bind inferInstance fun _ => by
      split <;> infer_instance
    obtain ⟨-, rfl⟩ := Check.clean_pure.mp hnothing
    cases main with
    | none => exact absurd hend Check.clean_report_bind
    | some m =>
      obtain ⟨v, _, hfunction, hunit⟩ := Check.clean_bind.mp hend
      obtain ⟨rfl, rfl⟩ := Check.clean_pure.mp hunit
      exact ⟨rfl, known, c₁, m, others, _, hglobals, hsplit, hchecked, hfunction⟩
  · rintro ⟨rfl, known, c₁, m, others, c₂, hglobals, hsplit, hchecked, hfunction⟩
    refine Check.clean_lift_bind.mpr ⟨_, hfunctions, hglobals.seq ?_⟩
    refine Check.clean_lift_bind.mpr ⟨_, hsplit, hchecked.seq ?_⟩
    refine Check.clean_lift_bind.mpr ⟨_, hothers, Check.Clean.seq (Check.clean_pure.mpr ⟨rfl, rfl⟩) ?_⟩
    exact hfunction.seq (Check.clean_pure.mpr ⟨rfl, rfl⟩)

/-- A crate: its functions are declared and then checked, in some order. -/
theorem crate_ok (hitems : ∀ item ∈ t.children, item.form = .ok .function) (h : Clean (Check.crate check t) c τ c') :
    ∃ known c₁ order, Clean (Check.declareGlobals t.children []) c known c₁ ∧
      (∀ item, item ∈ order ↔ item ∈ t.children) ∧ Clean (Check.crateFunctions check known order) c₁ () c' := by
  obtain ⟨-, known, c₁, m, others, c₂, hglobals, hsplit, hchecked, hfunction⟩ := (clean_crate hitems).mp h
  obtain ⟨hmain, hmem, hall⟩ := mem_of_splitNamed hsplit
  refine ⟨known, c₁, others ++ [m], hglobals, fun item => ?_, crateFunctions_concat hchecked (hmain m rfl).1 hfunction⟩
  rw [List.mem_append, List.mem_singleton]
  refine ⟨?_, fun hitem => (hall item hitem).imp_right fun h => (Option.some.inj h).symm⟩
  rintro (hitem | rfl)
  · exact hmem item hitem
  · exact (hmain item rfl).2

end Crates

/-! ## The term of a crate -/

/-- A slot that a name stands for has that name. -/
theorem Places.name_of_lastDeclared? {name : Text} {slots : List Slot} {i : Nat}
    (h : Places.lastDeclared? name slots = some i) : ∃ s, slots[i]? = some s ∧ s.name = name := by
  induction slots generalizing i with
  | nil => cases h
  | cons s rest ih =>
    rw [Places.lastDeclared?] at h
    cases hrest : Places.lastDeclared? name rest with
    | some j =>
      rw [hrest] at h
      cases h
      exact ih hrest
    | none =>
      rw [hrest] at h
      dsimp only at h
      split at h
      next hname =>
        cases h
        exact ⟨s, rfl, hname.1⟩
      · cases h

theorem Places.name_of_find? {name : Text} {p : Places} {frame slot : Nat} (h : p.find? name = some (frame, slot)) :
    ∃ slots s, p[frame]? = some slots ∧ slots[slot]? = some s ∧ s.name = name := by
  induction p generalizing frame with
  | nil => cases h
  | cons slots rest ih =>
    rw [Places.find?] at h
    cases hrest : Places.find? name rest with
    | some place =>
      rw [hrest] at h
      cases h
      exact ih hrest
    | none =>
      rw [hrest] at h
      obtain ⟨i, hi, hplace⟩ := Option.map_eq_some_iff.mp h
      cases hplace
      obtain ⟨s, hs, hname⟩ := Places.name_of_lastDeclared? hi
      exact ⟨slots, s, rfl, hs, hname⟩

/-- Two names that stand for one slot are the same. -/
theorem Places.find?_injective {name other : Text} {p : Places} {place : Nat × Nat} (h : p.find? name = some place)
    (h' : p.find? other = some place) : name = other := by
  obtain ⟨slots, s, hslots, hs, rfl⟩ := Places.name_of_find? h
  obtain ⟨slots', s', hslots', hs', rfl⟩ := Places.name_of_find? h'
  cases hslots.symm.trans hslots'
  cases hs.symm.trans hs'
  rfl

/-- No function of a crate names the function at which the crate starts. -/
def Tree.EntryUnnamed (t : Tree) : Prop :=
  ∀ x ∈ t.term?, ∀ e ∈ x.entry?, ∀ body ∈ e.1.bodies, ¬ body.Names e.2.1 e.2.2

section Functions

variable {visit : Resolve.Visit} {items : List Tree} {p p' : Places} {x : Term 0}

/-- Functions are resolved one after the other, all in the same places if none of them changes these. -/
theorem Resolve.functions_each (h : Resolve.functions visit items p = some (x, p'))
    (hitem : ∀ item ∈ items, ∀ y p', Resolve.function visit item p = some (y, p') → p' = p) :
    p' = p ∧ ∀ item ∈ items, ∃ y, Resolve.function visit item p = some (y, p) := by
  induction items generalizing x p' with
  | nil =>
    cases h
    simp
  | cons item items ih =>
    simp only [Resolve.functions, Resolve.bind_some, Resolve.pure_some] at h
    obtain ⟨y, p₁, hy, z, p₂, hz, rfl, rfl⟩ := h
    obtain rfl := hitem item (List.mem_cons_self ..) y p₁ hy
    obtain ⟨rfl, hrest⟩ := ih hz fun other hother => hitem other (List.mem_cons_of_mem _ hother)
    refine ⟨rfl, fun other hother => ?_⟩
    rcases List.mem_cons.mp hother with rfl | hother
    · exact ⟨y, hy⟩
    · exact hrest other hother

/-- The closures of functions are well typed one by one. -/
theorem Resolve.functions_typed {Γ : Context} {ret : Option Ty} {P : Term 1 → Prop}
    (h : Resolve.functions visit items p = some (x, p'))
    (hitem : ∀ item ∈ items, ∀ y p', Resolve.function visit item p = some (y, p') →
      p' = p ∧ ∃ frame slot arity body, y = .store frame slot (.closure arity body) ∧ (P body → y.Typed ret Γ []))
    (hbodies : ∀ body ∈ x.bodies, P body) : x.Typed ret Γ [] := by
  induction items generalizing x p' with
  | nil =>
    cases h
    exact .nothing
  | cons item items ih =>
    simp only [Resolve.functions, Resolve.bind_some, Resolve.pure_some] at h
    obtain ⟨y, p₁, hy, z, p₂, hz, rfl, rfl⟩ := h
    obtain ⟨rfl, frame, slot, arity, body, rfl, htyped⟩ := hitem item (List.mem_cons_self ..) y p₁ hy
    exact .seq (htyped (hbodies body (List.mem_cons_self ..)))
      (ih hz (fun other hother => hitem other (List.mem_cons_of_mem _ hother))
        fun other hother => hbodies other (List.mem_cons_of_mem _ hother))

end Functions

/-- The checker knows the builtins as their frame has them. -/
theorem agrees_builtins (done bs : List Builtin) {s : Scopes} (hinner : s.inner = [])
    (h : Agrees s [declaredSlots (done.map fun b => Text.ofString b.name)] [(done.map Builtin.type).map some]) :
    (bs.foldl (fun s b => s.defineGlobal (Text.ofString b.name) b.type) s).inner = [] ∧
      Agrees (bs.foldl (fun s b => s.defineGlobal (Text.ofString b.name) b.type) s)
        [declaredSlots ((done ++ bs).map fun b => Text.ofString b.name)] [((done ++ bs).map Builtin.type).map some] := by
  induction bs generalizing s done with
  | nil => exact ⟨hinner, by simpa using h⟩
  | cons b bs ih =>
    replace h : Agrees s ([] ++ [declaredSlots (done.map fun b => Text.ofString b.name)])
      ([] ++ [(done.map Builtin.type).map some]) := h
    have hdeclare := h.declare (by simp [declaredSlots]) (Text.ofString b.name)
      { type := b.type, mutable := false, serial := s.declared }
    rw [← Scopes.defineGlobal_eq hinner] at hdeclare
    simpa using ih (done ++ [b]) (by exact hinner) (by simpa [declaredSlots] using hdeclare)

/-- The types of the builtins. -/
def Context.builtins : Context := [(Builtin.all.map Builtin.type).map some]

section Crate

variable {t item : Tree} {depth fuel : Nat} {c₁ c' : Checker} {p p' : Places} {Γ : Context} {frame slot : Nat}

/-- A function of a crate has been checked, with the signature under which its name is known. -/
def ItemChecked (depth : Nat) (R : Checker → Checker → Prop) (c₁ : Checker) (item : Tree) : Prop :=
  ∃ name s c₂ c₃, item.name = .ok name ∧ c₁.scopes.lookup? name = some s.type ∧ R c₁ c₂ ∧
    FunctionChecked depth item s c₂ c₃

/-- The store of a checked function of a crate, once the function at which the crate starts has lost its type. -/
theorem item_typed {x : Term 0} (hbody : BodyTo depth item)
    (hentry : item.name = .ok "main" → item.parametersOf = .ok []) (hmain : p.find? "main" = some (frame, slot))
    (hΓ : Agrees c₁.scopes p Γ) (hitem : ItemChecked depth Same c₁ item)
    (hresolve : Resolve.function (Resolve.toDepth fuel) item p = some (x, p')) :
    ∃ frame' slot' arity body, x = .store frame' slot' (.closure arity body) ∧
      (¬ body.Names frame slot → x.Typed none (Γ.forget frame slot) []) := by
  obtain ⟨name, s, c₂, c₃, hname, hlookup, hsame, hchecked⟩ := hitem
  obtain ⟨-, -, name', frame', slot', body, got, hname', hfind, rfl, hgot, htyped⟩ := hchecked.typed hbody hresolve
  cases hname.symm.trans hname'
  have hslot := hΓ.slot hlookup hfind
  have hframe : frame < Γ.length := by
    obtain ⟨slots, -, hslots, -⟩ := Places.name_of_find? hmain
    rw [hΓ.length]
    exact (List.getElem?_eq_some_iff.mp hslots).1
  refine ⟨frame', slot', _, body, rfl, fun hnames => ?_⟩
  have hforget := (htyped Γ (hΓ.congr hsame.lookup?)).forget (by simp; omega) hnames
  rw [Context.forget_append hframe] at hforget
  by_cases hstart : name = "main"
  · subst hstart
    cases hmain.symm.trans hfind
    obtain ⟨-, ps, hps, hlength⟩ := hchecked
    cases hps.symm.trans (hentry hname)
    have hempty := List.length_eq_zero_iff.mp hlength
    rw [hempty] at hforget ⊢
    exact .entry (Context.at?_forget_self hslot) hforget
  · have hplace : ¬ (frame' = frame ∧ slot' = slot) := by
      rintro ⟨rfl, rfl⟩
      exact hstart (Places.find?_injective hfind hmain)
    obtain rfl := hgot.resolve_left hstart
    rw [Enclosing.returns, if_neg hstart] at hforget
    exact .store ((Context.at?_forget_ne hplace).trans hslot) (.closure hforget)

/-- What is known before the functions of a crate are checked. -/
theorem initial_agrees : Checker.initial.scopes.inner = [] ∧
    Agrees Checker.initial.scopes [declaredSlots Builtin.names] Context.builtins := by
  refine agrees_builtins [] Builtin.all rfl ⟨rfl, fun hname => ?_⟩
  cases hname

/-- All functions of a crate in which the checker finds nothing have been checked, in a state that knows their types. What
every check of a function keeps has not changed since. -/
theorem crate_checked {τ : Ty} {names : List Text} (hitems : ∀ item ∈ t.children, item.form = .ok .function)
    (hnames : Compile.names t.children = .ok names)
    (h : Clean (Check.crate (Check.toDepth depth) t) Checker.initial τ c') :
    ∃ c₁ types, types.length = names.length ∧
      Agrees c₁.scopes ([declaredSlots Builtin.names] ++ [declaredSlots names])
        (Context.builtins ++ [List.map some types]) ∧
      (∀ {name τ}, c₁.scopes.lookup? name = some τ → name ∈ names ∨ Checker.initial.scopes.lookup? name = some τ) ∧
      ∀ {R : Checker → Checker → Prop}, (∀ c, R c c) → (∀ {c₁ c₂ c₃}, R c₁ c₂ → R c₂ c₃ → R c₁ c₃) →
        (∀ item ∈ t.children, ∀ s c₂ c₃, FunctionChecked depth item s c₂ c₃ → R c₂ c₃) →
        ∀ item ∈ t.children, ItemChecked depth R c₁ item := by
  obtain ⟨known, c₁, order, hdeclare, horder, hchecked⟩ := crate_ok hitems h
  obtain ⟨hinner, hbuiltins⟩ := initial_agrees
  obtain ⟨types, hglobals⟩ : ∃ types, Globals Checker.initial c₁ [declaredSlots Builtin.names] [] [] known t.children
      names types := declareGlobals_ok hnames hinner hdeclare
  refine ⟨c₁, types, hglobals.length, ?_, hglobals.bound, fun {R} hrefl htrans hstep item hitem => ?_⟩
  · have hempty : ([] : List Ty).length = ([] : List Text).length := rfl
    simpa using hglobals.agrees hempty (hbuiltins.enter_frame.congr fun _ => rfl)
  -- a function is checked with the signature that it was declared with
  have hknown : ∀ item ∈ t.children, ∀ name, item.name = .ok name →
      c₁.scopes.lookup? name = some (Check.knownAs known name).type ∧
        ∃ ps, item.parametersOf = .ok ps ∧ (Check.knownAs known name).parameters.length = ps.length := by
    intro item hitem name hname
    obtain ⟨name', s, ps, hname', hs, hps, hlength⟩ := hglobals.items item hitem
    cases hname.symm.trans hname'
    rw [knownAs_eq hs]
    exact ⟨hglobals.lookup (fun h => by cases h) hs, ps, hps, hlength⟩
  obtain ⟨name, c₂, c₃, u, hname, hkept, hrun⟩ := crateFunctions_ok hrefl htrans
    (fun item hitem name c₂ c₃ u hname hrun => hstep item ((horder item).mp hitem) _ c₂ c₃
      ⟨⟨u, hrun⟩, (hknown item ((horder item).mp hitem) name hname).2⟩) hchecked item ((horder item).mpr hitem)
  obtain ⟨hlookup, hps⟩ := hknown item hitem name hname
  exact ⟨name, _, c₂, c₃, hname, hlookup, hkept, ⟨u, hrun⟩, hps⟩

theorem Resolve.program_some {x : Term 1} (h : t.term? = some x) (hfunctions : t.childrenOf .function = .ok t.children) :
    ∃ names items frame slot p', Compile.names t.children = .ok names ∧
      Resolve.functions (Resolve.toDepth t.height) t.children
        ([declaredSlots Builtin.names] ++ [declaredSlots names]) = some (items, p') ∧
      p'.find? "main" = some (frame, slot) ∧ x = .scope names.length (.seq items (.call (.load frame slot) .nothing)) := by
  obtain ⟨⟨_, p''⟩, hprogram, rfl⟩ := Option.map_eq_some_iff.mp h
  replace hprogram : Resolve.program t [] = some _ := hprogram
  simp only [Resolve.program, Resolve.bind_some] at hprogram
  obtain ⟨_, _, hopen, hcrate⟩ := hprogram
  cases hopen
  obtain ⟨_, hitems, hcrate⟩ := Resolve.lift_bind_some.mp hcrate
  cases hfunctions.symm.trans hitems
  obtain ⟨names, hnames, hcrate⟩ := Resolve.lift_bind_some.mp hcrate
  simp only [Resolve.bind_some, Resolve.pure_some, Resolve.position_some] at hcrate
  obtain ⟨_, _, hopen, items, p', hclosures, ⟨frame, slot⟩, _, ⟨hmain, rfl⟩, rfl, rfl⟩ := hcrate
  cases hopen
  exact ⟨names, items, frame, slot, _, hnames, hclosures, hmain, rfl⟩

/-- The term of a crate whose functions are well typed, except for the type of the function at which the crate starts. -/
def Term.CrateTyped (x : Term 1) : Prop :=
  ∃ slots items frame slot types, x = .scope slots (.seq items (.call (.load frame slot) .nothing)) ∧
    items.Typed none (Context.builtins ++ [types]) [] ∧ (Context.builtins ++ [types]).at? frame slot = some none

/-- No builtin has the name of the function at which a crate starts. -/
theorem find?_main {names : List Text}
    (h : Places.find? "main" ([declaredSlots Builtin.names] ++ [declaredSlots names]) = some (frame, slot)) :
    frame = 1 ∧ slot < names.length := by
  have hbuiltins : Places.find? "main" [declaredSlots Builtin.names] = none := by decide
  rw [Places.find?_append, hbuiltins, Option.or_none] at h
  obtain ⟨i, hi, hplace⟩ := Option.map_eq_some_iff.mp h
  cases hplace
  obtain ⟨s, hs, -⟩ := Places.name_of_lastDeclared? hi
  exact ⟨rfl, by simpa [declaredSlots] using (List.getElem?_eq_some_iff.mp hs).1⟩

theorem crate_typed {τ : Ty} {x : Term 1} (hnormal : t.Normal) (hentry : t.EntryWithoutParameters)
    (hunnamed : t.EntryUnnamed) (hheight : t.height ≤ depth + 1)
    (hcheck : Clean (Check.crate (Check.toDepth depth) t) Checker.initial τ c') (hx : t.term? = some x) :
    x.CrateTyped := by
  obtain ⟨names, items, frame, slot, p', hnames, hresolved, hmain, rfl⟩ := Resolve.program_some hx
    (Tree.childrenOf_functions hnormal.items)
  obtain ⟨c₁, types, hlength, hΓ, -, hchecked⟩ := crate_checked hnormal.items hnames hcheck
  have hbody := hnormal.bodyTo hheight
  -- resolving a function leaves the places as they are, and checking it what the names stand for
  have hplaces : ∀ item ∈ t.children, ∀ y p', Resolve.function (Resolve.toDepth t.height) item
      ([declaredSlots Builtin.names] ++ [declaredSlots names]) = some (y, p') →
      p' = [declaredSlots Builtin.names] ++ [declaredSlots names] := by
    intro item hitem y p' hy
    obtain ⟨_, _, _, _, -, -, -, hrun⟩ := hchecked (R := fun _ _ => True) (fun _ => trivial) (fun _ _ => trivial)
      (fun _ _ _ _ _ _ => trivial) item hitem
    exact (hrun.typed (hbody item hitem) hy).1
  obtain ⟨rfl, heach⟩ := Resolve.functions_each hresolved hplaces
  have hsame : ∀ item ∈ t.children, ItemChecked depth Same c₁ item := by
    refine hchecked Same.refl Same.trans fun item hitem s c₂ c₃ hrun => ?_
    obtain ⟨y, hy⟩ := heach item hitem
    exact (hrun.typed (hbody item hitem) hy).2.1
  obtain ⟨rfl, hslot⟩ := find?_main hmain
  refine ⟨_, items, 1, slot, (types.map some).set slot none, rfl, ?_, ?_⟩
  · refine Resolve.functions_typed hresolved (fun item hitem y p' hy => ⟨hplaces item hitem y p' hy, ?_⟩)
      (hunnamed _ hx _ rfl)
    exact item_typed (hbody item hitem) (hentry item hitem) hmain hΓ (hsame item hitem) hy
  · simp [Context.at?, Context.builtins, hlength, hslot]

end Crate

/-! ## Evaluation -/

section Evaluation

variable {lower : Term 1 → List Nat → Eval (Values 1)} {Δ Γ : Context} {env : List Nat}

/-- The evaluation of a crate: its closures fill their slots, then the function at which it starts is called. -/
theorem Term.crate_sound (hlower : LowerSound lower) {slots frame slot : Nat} {items : Term 0} {types : List (Option Ty)}
    (hitems : items.Typed none (Γ ++ [types]) []) (hslot : Context.at? (Γ ++ [types]) frame slot = some none)
    (henv : EnvTyped Δ env Γ) :
    Eval.Sound Δ none ((Term.scope slots (.seq items (.call (.load frame slot) .nothing))).evalWith lower env)
      fun _ _ => True := by
  have hcells : ∀ (i : Nat) v τ, (List.replicate slots (none : Option Value))[i]? = some (some v) →
      types[i]? = some τ → v.Fits Δ τ := by
    intro i v τ hv
    simp [List.getElem?_replicate] at hv
  refine (Eval.Sound.frame types hcells).bind fun Δ₁ f _ hf => ?_
  obtain ⟨rfl, rfl⟩ := hf
  refine (Term.evalWith_sound hlower hitems (henv.extend types)).bind fun Δ₂ _ hgrow _ => ?_
  have henv₂ := (henv.extend types).mono hgrow
  have hload : Eval.Sound Δ₂ none ((Term.load frame slot).evalWith lower (env ++ [Δ.length])) fun Δ' vs =>
      vs.head.IsEntry Δ' :=
    (Eval.Sound.cell henv₂ hslot).bind fun Δ₃ c _ hc => (Eval.Sound.read hc _).bind fun Δ₄ v _ hv => .pure hv
  refine hload.bind fun Δ₃ vs _ hentry => ?_
  show Eval.Sound Δ₃ none (Term.apply lower vs.head [] >>= fun v => (pure (List.Vector.cons v .nil) : Eval (Values 1))) _
  exact (Eval.Sound.apply_entry hlower hentry).bind fun _ _ _ _ => .pure trivial

theorem Store.initial_typed : Store.initial.Typed Context.builtins where
  length := rfl
  fits c v τ hv hτ := by
    obtain ⟨cells, hcells, hv⟩ := Option.bind_eq_some_iff.mp hv
    obtain ⟨types, htypes, hτ⟩ := Option.bind_eq_some_iff.mp hτ
    obtain ⟨hzero, rfl⟩ : c.frame = 0 ∧ Builtin.all.map (fun b => some (Value.builtin b)) = cells := by
      simpa [Store.initial, List.getElem?_singleton] using hcells
    rw [hzero] at htypes
    cases htypes
    simp only [List.getElem?_map, Option.map_eq_some_iff] at hv hτ
    obtain ⟨b, hb, hvalue⟩ := hv
    cases hvalue
    obtain ⟨_, ⟨b', hb', rfl⟩, rfl⟩ := hτ
    cases hb.symm.trans hb'
    cases b <;> exact .builtin rfl

/-- The evaluation of a well typed crate does not fail with an error of types. -/
theorem Term.CrateTyped.eval {x : Term 1} (h : x.CrateTyped) {fuel : Nat} {e : StepError} {σ : Store}
    (heval : x.eval fuel [0] Store.initial = .error (.failed e) σ) : e.isTypeError = false := by
  obtain ⟨slots, items, frame, slot, types, rfl, hitems, hslot⟩ := h
  have henv : EnvTyped Context.builtins [0] Context.builtins := .cons rfl .nil
  have hsound : ∀ {lower : Term 1 → List Nat → Eval (Values 1)}, LowerSound lower →
      Eval.Settled Context.builtins none (fun _ _ => True)
        ((Term.scope slots (.seq items (.call (.load frame slot) .nothing))).evalWith lower [0] Store.initial) :=
    fun hlower => Term.crate_sound hlower hitems hslot henv Store.initial Store.initial_typed
  cases fuel with
  | zero =>
    have hlower : LowerSound fun _ _ => throw .timeout := fun _ _ => .timeout
    have hsettled := hsound hlower
    rw [Term.eval] at heval
    rw [heval] at hsettled
    exact hsettled
  | succ fuel =>
    have hsettled := hsound (Term.eval_sound fuel)
    rw [Term.eval] at heval
    rw [heval] at hsettled
    exact hsettled

end Evaluation

/-! ## Programs -/

/-- A program about which there are no complaints has been checked, and nothing was found. -/
theorem Tree.complaints_clean {t : Tree} (h : t.complaints = .ok []) :
    ∃ τ c', Clean (Check.toDepth t.height t) Checker.initial τ c' := by
  have hnode : Checker.initial.checkNode t = Check.toDepth t.height t Checker.initial := rfl
  unfold Tree.complaints Checker.checkProgram at h
  rw [hnode] at h
  rcases hcheck : Check.toDepth t.height t Checker.initial with ⟨e | τ, c'⟩
  · rw [hcheck] at h
    cases h
  · rw [hcheck] at h
    have herrors : c'.errors = [] := Except.ok.inj h
    exact ⟨τ, c', hcheck, herrors⟩

/-- A program for which code is generated is a crate in which the checker has found nothing. -/
theorem Tree.emissions_checked {t : Tree} {code : Emissions} (h : t.emissions = .ok code) :
    ∃ depth τ c', t.height = depth + 1 ∧ Clean (Check.crate (Check.toDepth depth) t) Checker.initial τ c' := by
  obtain ⟨hcomplaints, hform⟩ : t.complaints = .ok [] ∧ t.form = .ok .crate := by
    unfold Tree.emissions at h
    split at h
    · cases h
    · split at h
      · cases h
      · cases h
      next hcomplaints =>
        split at h
        next htag =>
          cases t with
          | absent => cases htag
          | node => exact ⟨hcomplaints, congrArg Except.ok htag⟩
        · cases h
  obtain ⟨τ, c', hcheck⟩ := Tree.complaints_clean hcomplaints
  obtain ⟨depth, hheight⟩ := Tree.depth_of_form hform (Nat.le_refl _)
  rw [hheight, Check.toDepth_of_form hform] at hcheck
  exact ⟨depth, τ, c', hheight, hcheck⟩

/-- The evaluation of a program that the checker has nothing against does not fail with an error of types. -/
theorem Tree.eval_typed {t : Tree} {code : Emissions} {x : Term 1} (hnormal : t.Normal)
    (hentry : t.EntryWithoutParameters) (hunnamed : t.EntryUnnamed) (h : t.emissions = .ok code) (hx : t.term? = some x)
    {fuel : Nat} {e : StepError} {σ : Store} (heval : x.eval fuel [0] Store.initial = .error (.failed e) σ) :
    e.isTypeError = false := by
  obtain ⟨depth, τ, c', hheight, hcheck⟩ := Tree.emissions_checked h
  exact (crate_typed hnormal hentry hunnamed (Nat.le_of_eq hheight) hcheck hx).eval heval

end Tenure
