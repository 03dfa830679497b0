import Mathlib.Data.List.Forall2
import Tenure.Proofs.Compile.Resolution
import Tenure.Proofs.Order.Checks
import Tenure.Tree.Build

/-!
# Functions in their surroundings

The code of a function item is generated in the environment of the item, and its body may move, borrow and assign the
bindings around it. Afterwards ownership and borrows are put back, but what a binding lends is not. Everything else was
never touched: code generation changes the visibility of bindings in the innermost frame only, and what a binding lends
only by a let statement, which is about the innermost frame too, or by an assignment that names it. So
`Environment.Spares` is kept by every rule, and `Compile.function_surroundings` says what is left of a function item.
-/

set_option autoImplicit false

namespace Tenure

namespace Tree

/-- The variable that an assignment names as its target. -/
def target? (t : Tree) : Option Text :=
  if Form.ofTag t.tag = .assignment then
    match t.operands with
    | .ok [target, _] =>
      if target.unwrapped.form = .ok .path ∨ target.unwrapped.form = .ok .identifier then
        target.unwrapped.name.toOption
      else none
    | _ => none
  else none

mutual

/-- The variables that the assignments in a tree name. -/
def targets : Tree → List Text
  | .absent => []
  | .node tag children val type => (Tree.node tag children val type).target?.toList ++ targetsOf children

/-- The variables that the assignments in some trees name. -/
def targetsOf : List Tree → List Text
  | [] => []
  | t :: rest => t.targets ++ targetsOf rest

end

variable {t e : Tree} {ts : List Tree}

theorem targets_subset_of (he : e ∈ ts) : e.targets ⊆ targetsOf ts := by
  induction ts with
  | nil => cases he
  | cons t rest ih =>
    rw [targetsOf]
    rcases List.mem_cons.mp he with rfl | he
    · exact List.subset_append_left ..
    · exact List.Subset.trans (ih he) (List.subset_append_right ..)

theorem targets_of_mem (he : e ∈ t.children) : e.targets ⊆ t.targets := by
  cases t with
  | absent => cases he
  | node tag children val type =>
    rw [targets]
    exact List.Subset.trans (targets_subset_of he) (List.subset_append_right ..)

theorem targets_last : t.last.targets ⊆ t.targets := by
  cases hlast : t.last with
  | absent => exact List.nil_subset _
  | node => exact hlast ▸ targets_of_mem (last_mem (by rw [hlast]; rfl))

theorem targets_unwrapped : t.unwrapped.targets ⊆ t.targets := by
  rw [unwrapped]
  generalize t.height = fuel
  induction fuel generalizing t with
  | zero => exact List.Subset.refl _
  | succ fuel ih =>
    cases t with
    | absent => exact List.Subset.refl _
    | node tag children val type =>
      rw [ungroup]
      split
      · exact List.Subset.trans ih targets_last
      · exact List.Subset.refl _

theorem mem_targets {name : Text} (h : t.target? = some name) : name ∈ t.targets := by
  cases t with
  | absent => cases h
  | node tag children val type =>
    rw [targets, h]
    exact List.mem_append_left _ (List.mem_singleton_self name)

end Tree

/-- A binding is the one it was, as visible as it was, and lends what it lent unless its name is one of some. -/
structure Variable.Kept (names : List Text) (v w : Variable) : Prop where
  id : w.id = v.id
  name : w.name = v.name
  hidden : w.hidden = v.hidden
  lends : v.name ∉ names → w.lends = v.lends

namespace Variable.Kept

variable {names : List Text} {u v w : Variable}

theorem refl (v : Variable) : v.Kept names v := ⟨rfl, rfl, rfl, fun _ => rfl⟩

theorem trans (h : u.Kept names v) (h' : v.Kept names w) : u.Kept names w where
  id := h'.id.trans h.id
  name := h'.name.trans h.name
  hidden := h'.hidden.trans h.hidden
  lends hname := (h'.lends (h.name ▸ hname)).trans (h.lends hname)

end Variable.Kept

theorem forall₂_trans {α : Type} {R : α → α → Prop} (hR : ∀ a b c, R a b → R b c → R a c) {l l' l'' : List α}
    (h : List.Forall₂ R l l') (h' : List.Forall₂ R l' l'') : List.Forall₂ R l l'' := by
  induction h generalizing l'' with
  | nil => exact h'
  | cons hab _ ih =>
    obtain ⟨c, rest, hbc, hrest, rfl⟩ := List.forall₂_cons_left_iff.mp h'
    exact .cons (hR _ _ _ hab hbc) (ih hrest)

/-- The bindings of some frames are kept in others. -/
abbrev FramesKept (names : List Text) : List Frame → List Frame → Prop :=
  List.Forall₂ (List.Forall₂ (Variable.Kept names))

theorem FramesKept.refl (names : List Text) (fs : List Frame) : FramesKept names fs fs :=
  List.forall₂_same.mpr fun _ _ => List.forall₂_same.mpr fun v _ => .refl v

theorem FramesKept.trans {names : List Text} {fs fs' fs'' : List Frame} (h : FramesKept names fs fs')
    (h' : FramesKept names fs' fs'') : FramesKept names fs fs'' :=
  forall₂_trans (R := List.Forall₂ (Variable.Kept names))
    (fun _ _ _ hf hf' => forall₂_trans (R := Variable.Kept names) (fun _ _ _ => .trans) hf hf') h h'

namespace Environment

variable {names : List Text} {env later last : Environment}

/-- All bindings of one environment are kept in another. -/
structure SparesAll (names : List Text) (env later : Environment) : Prop where
  frames : FramesKept names env.frames later.frames
  fresh : env.fresh ≤ later.fresh

/-- One environment has the bindings of another, and those outside the innermost frame are kept. -/
structure Spares (names : List Text) (env later : Environment) : Prop where
  keeps : env.Keeps later
  outer : FramesKept names env.frames.dropLast later.frames.dropLast

theorem SparesAll.refl (env : Environment) : env.SparesAll names env := ⟨.refl .., Nat.le_refl _⟩

theorem SparesAll.trans (h : env.SparesAll names later) (h' : later.SparesAll names last) : env.SparesAll names last :=
  ⟨h.frames.trans h'.frames, Nat.le_trans h.fresh h'.fresh⟩

theorem SparesAll.spares (h : env.SparesAll names later) : env.Spares names later where
  keeps := by
    refine ⟨?_, h.fresh⟩
    have hpairs : List.Forall₂ (· = ·) env.outline later.outline := by
      refine List.forall₂_map_left_iff.mpr (List.forall₂_map_right_iff.mpr (h.frames.imp fun f f' hf => ?_))
      rw [← List.forall₂_eq_eq_eq, List.forall₂_map_left_iff, List.forall₂_map_right_iff]
      exact hf.imp fun v w hv => Prod.ext hv.id.symm hv.name.symm
    rw [List.forall₂_eq_eq_eq] at hpairs
    exact hpairs.symm
  outer := by
    rw [List.dropLast_eq_take, List.dropLast_eq_take, h.frames.length_eq]
    exact List.forall₂_take _ h.frames

namespace Spares

theorem refl (env : Environment) : env.Spares names env := ⟨.refl env, .refl ..⟩

theorem trans (h : env.Spares names later) (h' : later.Spares names last) : env.Spares names last :=
  ⟨h.keeps.trans h'.keeps, h.outer.trans h'.outer⟩

/-- When a frame is closed, what lay outside of it is all that there is. -/
theorem shrink {slots : List Text} (h : (env.extend slots).Spares names later) : env.SparesAll names later.shrink where
  frames := by simpa [extend, Environment.shrink] using h.outer
  fresh := h.keeps.shrink.2

end Spares

theorem sparesAll_map {f : Variable → Variable} (hf : ∀ v ∈ env.bindings, v.Kept names (f v)) :
    env.SparesAll names (env.map f) where
  frames := by
    refine List.forall₂_map_right_iff.mpr (List.forall₂_same.mpr fun fr hfr => ?_)
    refine List.forall₂_map_right_iff.mpr (List.forall₂_same.mpr fun v hv => hf v ?_)
    exact List.mem_flatten.mpr ⟨fr, hfr, hv⟩
  fresh := Nat.le_refl _

/-- A change of the binding of a number that neither names nor loans are involved in. -/
theorem sparesAll_update {f : Variable → Variable} (id : Nat)
    (hf : ∀ v ∈ env.bindings, v.id = id → v.Kept names (f v)) : env.SparesAll names (env.update id f) :=
  sparesAll_map fun v hv => by
    split
    next hid => exact hf v hv hid
    · exact .refl v

theorem sparesAll_combine {f : Variable → Variable → Variable} (saved : Environment)
    (hf : ∀ s v : Variable, v.Kept names (f s v)) : env.SparesAll names (env.combine saved f) :=
  sparesAll_map fun v _ => by
    split
    · exact hf _ v
    · exact .refl v

theorem sparesAll_restoreBorrows (env saved : Environment) : env.SparesAll names (env.restoreBorrows saved) :=
  sparesAll_combine saved fun _ _ => ⟨rfl, rfl, rfl, fun _ => rfl⟩

theorem sparesAll_restoreOwnership (env saved : Environment) : env.SparesAll names (env.restoreOwnership saved) :=
  sparesAll_combine saved fun _ _ => ⟨rfl, rfl, rfl, fun _ => rfl⟩

/-- Hiding bindings of a frame that has just been opened. -/
theorem spares_hide (env : Environment) (slots : List Text) (flags : List Bool) :
    (env.extend slots).Spares names ((env.extend slots).onInnermost fun f => f.hide flags) where
  keeps := keeps_hide env slots flags
  outer := by
    unfold onInnermost
    rw [frames_extend_innermost]
    simpa [extend] using FramesKept.refl names env.frames

theorem mem_of_visible? {name : Text} {f : Frame} {start slot : Nat} {v : Variable}
    (h : f.visible? name start = some (slot, v)) : v ∈ f ∧ v.name = name := by
  induction f generalizing start with
  | nil => cases h
  | cons w rest ih =>
    rw [Frame.visible?] at h
    split at h
    next hrest =>
      cases h
      exact (ih hrest).imp_left (List.mem_cons_of_mem w)
    · split at h
      next hw =>
        cases h
        exact ⟨List.mem_cons_self .., hw.1⟩
      · cases h

theorem mem_of_search? {name : Text} {fs : List Frame} {start : Nat} {pos : Position} {v : Variable}
    (h : search? name fs start = some (pos, v)) : v ∈ fs.flatten ∧ v.name = name := by
  induction fs generalizing start with
  | nil => cases h
  | cons f rest ih =>
    rw [search?] at h
    rw [List.flatten_cons]
    split at h
    next hrest =>
      cases h
      exact (ih hrest).imp_left (List.mem_append_right f)
    · obtain ⟨⟨slot, w⟩, hw, heq⟩ := Option.map_eq_some_iff.mp h
      cases heq
      exact (mem_of_visible? hw).imp_left (List.mem_append_left _)

/-- Two bindings of one number are one binding. -/
theorem Distinct.eq_of_id (hd : env.Distinct) {v w : Variable} (hv : v ∈ env.bindings) (hw : w ∈ env.bindings)
    (hid : w.id = v.id) : w = v :=
  List.inj_on_of_nodup_map hd.1 hw hv hid

/-- The binding of a number has the same name later. -/
theorem Keeps.name_of_id (hk : env.Keeps later) (hd : env.Distinct) {v w : Variable} (hv : v ∈ env.bindings)
    (hw : w ∈ later.bindings) (hid : w.id = v.id) : w.name = v.name := by
  have hpairs : later.bindings.map (fun v => (v.id, v.name)) = env.bindings.map fun v => (v.id, v.name) := by
    simpa [outline, bindings, List.map_flatten] using congrArg List.flatten hk.1
  have hpair : (w.id, w.name) ∈ env.bindings.map fun v => (v.id, v.name) := hpairs ▸ List.mem_map_of_mem hw
  obtain ⟨u, hu, huw⟩ := List.mem_map.mp hpair
  obtain ⟨huid, huname⟩ := Prod.mk.inj huw
  rw [← huname, hd.eq_of_id hv hu (huid.trans hid)]

theorem Distinct.get? (hd : env.Distinct) {v : Variable} (hv : v ∈ env.bindings) : env.get? v.id = some v := by
  cases hw : env.get? v.id with
  | none =>
    have hnone := List.find?_eq_none.mp hw v hv
    simp at hnone
  | some w =>
    have hid : w.id = v.id := by simpa using List.find?_some hw
    rw [hd.eq_of_id hv (List.mem_of_find?_eq_some hw) hid]

/-- With ownership and borrows put back, all that can differ is what the bindings of some names lend. -/
theorem SparesAll.restored (h : env.SparesAll names later) (hd : env.Distinct) :
    List.Forall₂ (List.Forall₂ fun v w => w = { v with lends := w.lends } ∧ (v.name ∉ names → w = v)) env.frames
      ((later.restoreOwnership env).restoreBorrows env).frames := by
  have hmem : ∀ f ∈ env.frames, ∀ v ∈ f, v ∈ env.bindings := fun f hf v hv => List.mem_flatten.mpr ⟨f, hf, hv⟩
  simp only [restoreBorrows, restoreOwnership, combine, map, List.map_map]
  rw [List.forall₂_map_right_iff]
  refine ((List.forall₂_and_left _ _).mpr ⟨hmem, h.frames⟩).imp fun f f' hff' => ?_
  obtain ⟨hf, hkept⟩ := hff'
  simp only [Function.comp_apply, List.map_map]
  rw [List.forall₂_map_right_iff]
  refine ((List.forall₂_and_left _ _).mpr ⟨hf, hkept⟩).imp fun v w hvw => ?_
  obtain ⟨hv, hvw⟩ := hvw
  -- the saved state of the binding is that of `v`
  have hsaved := hd.get? hv
  rw [← hvw.id] at hsaved
  simp only [Function.comp_apply, hsaved]
  refine ⟨?_, fun hname => ?_⟩
  · rw [hvw.id, hvw.name, hvw.hidden]
  · rw [hvw.id, hvw.name, hvw.hidden, hvw.lends hname]

/-- The assignment to a variable changes what it lends, and it names it. -/
theorem Spares.assign (h : env.Spares names later) (hd : env.Distinct) {name : Text} {pos : Position} {v : Variable}
    (hfind : env.find? name = some (pos, v)) (hname : name ∈ names) (lent : Option Nat) :
    env.Spares names (later.update v.id fun w => { w with owns := true, lends := lent }) := by
  obtain ⟨hv, rfl⟩ := mem_of_search? hfind
  have hkept : later.SparesAll names (later.update v.id fun w => { w with owns := true, lends := lent }) :=
    sparesAll_update v.id fun w hw hid =>
      ⟨rfl, rfl, rfl, fun hfree => absurd (h.keeps.name_of_id hd hv hw hid ▸ hname) hfree⟩
  exact h.trans hkept.spares

/-- The binding of a let statement is one of the innermost frame. -/
theorem Spares.declare (h : env.Spares names later) (hd : env.Distinct) {name : Text} {slot : Nat} {v : Variable}
    (hslot : (env.innermost?.getD []).hidden? name 0 = some (slot, v)) {g : Variable → Variable}
    (hg : ∀ w, (g w).id = w.id ∧ (g w).name = w.name) : env.Spares names (later.update v.id g) := by
  obtain ⟨outer, inner, hframes, -, -, hapart⟩ := innermost_of_hidden? hd h.keeps hslot
  have houter : FramesKept names outer (outer.map (List.map fun w => if w.id = v.id then g w else w)) := by
    refine List.forall₂_map_right_iff.mpr (List.forall₂_same.mpr fun fr hfr => ?_)
    refine List.forall₂_map_right_iff.mpr (List.forall₂_same.mpr fun w hw => ?_)
    rw [if_neg (hapart fr hfr w hw)]
    exact .refl w
  refine h.trans ⟨keeps_update hg later v.id, ?_⟩
  simpa [update, map, hframes] using houter

end Environment

namespace Compile

variable {α β : Type} {names : List Text}

/-- A step of code generation that, if it succeeds, keeps the bindings outside the innermost frame. -/
structure Sparing (names : List Text) (x : Compile α) : Prop where
  leads {s s' : CompileState} {a : α} (hd : s.env.Distinct) (h : x s = .ok (a, s')) : s.env.Spares names s'.env

namespace Sparing

variable {x : Compile α} {f : α → Compile β}

theorem pure (a : α) : Sparing names (Pure.pure a : Compile α) where
  leads _ h := by
    obtain ⟨rfl, rfl⟩ := pure_ok.mp h
    exact .refl _

theorem bind (hx : Sparing names x) (hf : ∀ a, Sparing names (f a)) : Sparing names (x >>= f) where
  leads hd h := by
    obtain ⟨a, s₁, ha, hb⟩ := bind_ok.mp h
    have hfirst := hx.leads hd ha
    exact hfirst.trans ((hf a).leads (hfirst.keeps.distinct hd) hb)

/-- An inspection goes before a step. -/
theorem inspect {i : Inspect α} (hf : ∀ a, i = .ok a → Sparing names (f a)) :
    Sparing names ((liftM i : Compile α) >>= f) where
  leads hd h := by
    obtain ⟨a, _, ha, hb⟩ := bind_ok.mp h
    obtain ⟨hi, rfl⟩ := lift_ok.mp ha
    exact (hf a hi).leads hd hb

/-- A step that looks at the state. -/
theorem look {f : CompileState → Compile β} (hf : ∀ s, Sparing names (f s)) : Sparing names (get >>= f) where
  leads hd h := by
    obtain ⟨_, _, hget, hb⟩ := bind_ok.mp h
    obtain ⟨rfl, rfl⟩ := get_ok.mp hget
    exact (hf _).leads hd hb

theorem ite {p : Prop} [Decidable p] {y : Compile α} (hx : Sparing names x) (hy : Sparing names y) :
    Sparing names (if p then x else y) := by
  split
  · exact hx
  · exact hy

theorem fail (e : CompileError) : Sparing names (Compile.fail e : Compile α) := ⟨fun _ h => absurd h fail_ok⟩

theorem fail_bind (e : CompileError) (f : α → Compile β) : Sparing names (Compile.fail e >>= f) :=
  ⟨fun _ h => absurd h fail_bind_ok⟩

theorem unsupported (what : Unsupported) : Sparing names (Compile.unsupported what : Compile α) := fail _

/-- A change that goes on with the bindings of the state before. -/
theorem modify {f : CompileState → CompileState} (hf : ∀ s : CompileState, s.env.SparesAll names (f s).env) :
    Sparing names (modify f : Compile PUnit) where
  leads _ h := by
    obtain rfl := modify_ok.mp h
    exact (hf _).spares

theorem onEnv {f : Environment → Environment} (hf : ∀ env : Environment, env.SparesAll names (f env)) :
    Sparing names (Compile.onEnv f) := modify fun s => hf s.env

theorem update (id : Nat) {f : Variable → Variable} (hf : ∀ v : Variable, v.Kept names (f v)) :
    Sparing names (Compile.onEnv fun env => env.update id f) :=
  onEnv fun _ => Environment.sparesAll_update id fun v _ _ => hf v

theorem setLent (id : Option Nat) : Sparing names (Compile.setLent id) := modify fun s => .refl s.env

theorem setDiverged (b : Bool) : Sparing names (Compile.setDiverged b) := modify fun s => .refl s.env

theorem emit (code : Program) : Sparing names (Compile.emit code) := look fun _ => pure _

theorem resolve (name : Text) : Sparing names (Compile.resolve name) := by
  refine look fun s => ?_
  split
  · exact pure _
  · exact fail _

end Sparing

/-! ## Rules -/

theorem mem_of_tail? {t e : Tree} (h : tail? t = some e) : e ∈ t.children := by
  unfold tail? at h
  split at h
  · cases h
  next hlast =>
    split at h
    · cases h
    · cases h
    · cases h
    · cases h
      exact List.mem_of_getLast? hlast

theorem operands_subset {t : Tree} (hnames : t.targets ⊆ names) {kept : List Tree} (hkept : t.operands = .ok kept) :
    ∀ e ∈ kept, e.targets ⊆ names :=
  fun _ he => List.Subset.trans (Tree.targets_of_mem (Tree.mem_of_select hkept he)) hnames

section Rules

variable {visit : Visit} {start : Nat} {t : Tree} {s s' : CompileState} {code : Emissions}
  (hvisit : ∀ e : Tree, e.targets ⊆ names → ∀ start use, Sparing names (visit start e use))

include hvisit

/-- A function item: whatever becomes of the environment inside it, ownership and borrows are put back at its end. -/
theorem function_restores (hnames : t.targets ⊆ names) (hd : s.env.Distinct)
    (h : function visit start t s = .ok (code, s')) :
    s'.diverged = s.diverged ∧ ∃ inner, s.env.SparesAll names inner ∧
      s'.env = (inner.restoreOwnership s.env).restoreBorrows s.env := by
  simp only [function, bind_ok, lift_ok] at h
  obtain ⟨name, _, ⟨hname, rfl⟩, body, _, ⟨hbody, rfl⟩, h⟩ := h
  cases body with
  | none => exact absurd h unsupported_ok
  | some body =>
    simp only [bind_ok, lift_ok, get_ok, setDiverged_ok, emit_ok, modify_ok] at h
    obtain ⟨trees, _, ⟨htrees, rfl⟩, parameters, _, ⟨hparameters, rfl⟩, _, _, ⟨rfl, rfl⟩, _, _, hextend, _, _, rfl,
      value, s₂, hvalue, _, _, ⟨rfl, rfl⟩, _, _, ⟨rfl, rfl⟩, _, s₃, hs₃, _, _, ⟨rfl, rfl⟩, h⟩ := h
    obtain ⟨-, rfl⟩ := extend_ok hextend
    have hinside := hvisit body (List.Subset.trans (Tree.targets_of_mem (Tree.mem_of_firstWith hbody)) hnames)
    have hspares := (hinside (start + 2) .move).leads
      (s := { s with env := s.env.extend parameters, diverged := false }) (hd.extend parameters) hvalue
    cases hfind : s₃.env.find? name with
    | none =>
      simp only [hfind] at h
      exact absurd h fail_ok
    | some found =>
      simp only [hfind, bind_ok, emit_ok, pure_ok] at h
      obtain ⟨_, _, ⟨rfl, rfl⟩, _, _, ⟨rfl, rfl⟩, rfl, rfl⟩ := h
      subst hs₃
      exact ⟨rfl, s₂.env.shrink, hspares.shrink, rfl⟩

theorem function_spares (hnames : t.targets ⊆ names) : Sparing names (function visit start t) where
  leads {s s' code} hd h := by
    obtain ⟨-, inner, hinner, henv⟩ := function_restores hvisit hnames hd h
    rw [henv]
    exact (hinner.trans ((Environment.sparesAll_restoreOwnership inner s.env).trans
      (Environment.sparesAll_restoreBorrows _ s.env))).spares

theorem functions_spares {ts : List Tree} (hnames : ∀ e ∈ ts, e.targets ⊆ names) :
    Sparing names (functions visit start ts) := by
  induction ts generalizing start with
  | nil => exact .pure _
  | cons t rest ih =>
    refine .bind (function_spares hvisit (hnames t (List.mem_cons_self ..))) fun one => ?_
    exact .bind (ih fun e he => hnames e (List.mem_cons_of_mem _ he)) fun _ => .pure _

theorem letStatement_spares (hnames : t.targets ⊆ names) : Sparing names (letStatement visit start t) where
  leads {s s' code} hd h := by
    simp only [letStatement, bind_ok, lift_ok, get_ok] at h
    obtain ⟨name, _, ⟨hname, rfl⟩, _, _, ⟨rfl, rfl⟩, h⟩ := h
    cases hslot : (s.env.innermost?.getD []).hidden? name 0 with
    | none =>
      simp only [hslot] at h
      exact absurd h fail_ok
    | some found =>
      obtain ⟨slot, v⟩ := found
      simp only [hslot, bind_ok, lift_ok] at h
      obtain ⟨initializer, _, ⟨hinit, rfl⟩, h⟩ := h
      cases initializer with
      | none =>
        simp only [bind_ok, onEnv_ok, pure_ok] at h
        obtain ⟨_, _, rfl, rfl, rfl⟩ := h
        exact (Environment.Spares.refl s.env).declare hd hslot fun w => ⟨rfl, rfl⟩
      | some e =>
        simp only [bind_ok, get_ok, onEnv_ok, emit_ok, pure_ok] at h
        obtain ⟨one, s₁, hone, _, _, ⟨rfl, rfl⟩, _, _, rfl, _, _, ⟨rfl, rfl⟩, rfl, rfl⟩ := h
        have he := hvisit e (List.Subset.trans (Tree.targets_of_mem (Tree.mem_of_firstWith hinit)) hnames)
        exact ((he start .move).leads hd hone).declare hd hslot fun w => ⟨rfl, rfl⟩

theorem effect_spares (hnames : t.targets ⊆ names) : Sparing names (effect visit start t) := by
  refine .look fun before => .bind (hvisit t hnames start .move) fun code => .look fun s => ?_
  have hend : Sparing names (do setLent none; return code ++ (← emit [.plain .pop]) : Compile Emissions) :=
    .bind (.setLent _) fun _ => .bind (.emit _) fun _ => .pure _
  split
  · exact hend
  · split
    · exact hend
    · exact .bind (.update _ fun _ => ⟨rfl, rfl, rfl, fun _ => rfl⟩) fun _ => hend

theorem statement_spares (hnames : t.targets ⊆ names) : Sparing names (statement visit start t) := by
  refine .inspect fun form _ => ?_
  split
  · exact letStatement_spares hvisit hnames
  · exact .ite (effect_spares hvisit (List.Subset.trans Tree.targets_last hnames)) (.pure _)
  · exact effect_spares hvisit hnames

theorem statements_spares {ts : List Tree} (hnames : ∀ e ∈ ts, e.targets ⊆ names) :
    Sparing names (statements visit start ts) := by
  induction ts generalizing start with
  | nil => exact .pure _
  | cons t rest ih =>
    refine .bind (statement_spares hvisit (hnames t (List.mem_cons_self ..))) fun one => ?_
    exact .bind (ih fun e he => hnames e (List.mem_cons_of_mem _ he)) fun _ => .pure _

omit hvisit in
/-- The end of a block whose frame was opened in an environment. -/
theorem leaveBlock_spares {outer : Environment} {slots : List Text} {lent : Option Nat} {u : Unit}
    (h : leaveBlock outer lent s = .ok (u, s')) (hinner : (outer.extend slots).Spares names s.env) :
    outer.SparesAll names s'.env := by
  simp only [leaveBlock, bind_ok, get_ok, modify_ok] at h
  obtain ⟨_, _, ⟨rfl, rfl⟩, rfl⟩ := h
  have hkept := hinner.trans (Environment.sparesAll_restoreBorrows s.env outer).spares
  split
  · exact hkept.shrink
  · split
    · exact hkept.shrink
    · refine (hkept.trans (Environment.sparesAll_update _ fun v _ _ => ?_).spares).shrink
      exact ⟨rfl, rfl, rfl, fun _ => rfl⟩

theorem block_spares (hnames : t.targets ⊆ names) : Sparing names (block visit start t) where
  leads {s s' code} hd h := by
    simp only [block, bind_ok, lift_ok, get_ok, onEnv_ok] at h
    obtain ⟨declared, _, ⟨hdeclared, rfl⟩, _, _, ⟨rfl, rfl⟩, opening, _, hopening, _, _, hextend, _, s₁, hs₁, items, _,
      ⟨hitems, rfl⟩, one, s₂, hone, others, _, ⟨hothers, rfl⟩, two, s₃, htwo, h⟩ := h
    obtain ⟨rfl, rfl⟩ := emit_ok.mp hopening
    obtain ⟨-, rfl⟩ := extend_ok hextend
    have hchild : ∀ e ∈ t.children, e.targets ⊆ names :=
      fun e he => List.Subset.trans (Tree.targets_of_mem he) hnames
    have hopen : (s.env.extend (declared.map Prod.fst)).Spares names s₁.env := hs₁ ▸ Environment.spares_hide ..
    have hd₁ := hopen.keeps.distinct (hd.extend _)
    have hfirst := (functions_spares hvisit fun e he => hchild e (Tree.mem_of_select hitems he)).leads hd₁ hone
    have hd₂ := hfirst.keeps.distinct hd₁
    have hinside : ∀ e ∈ others, e ∈ t.children := fun e he => by
      have hmem := Tree.mem_of_select hothers he
      split at hmem
      · exact (List.dropLast_sublist _).subset hmem
      · exact hmem
    have hsecond := (statements_spares hvisit fun e he => hchild e (hinside e he)).leads hd₂ htwo
    have hbody := hopen.trans (hfirst.trans hsecond)
    -- what is left of the block is its value and its end
    have hend : ∀ {value : Emissions} {lent : Option Nat} {u : CompileState}, s₃.env.Spares names u.env → (do
        let closing ← emit (drops u.env ++ [.plain .exitScope])
        leaveBlock s.env lent
        pure ([⟨.enterScope declared.length, s.env⟩] ++ one ++ two ++ value ++ closing) :
          Compile Emissions) u = .ok (code, s') → s.env.Spares names s'.env := by
      intro value lent u hu h
      simp only [bind_ok, emit_ok, pure_ok] at h
      obtain ⟨_, _, ⟨rfl, rfl⟩, _, _, hleave, rfl, rfl⟩ := h
      exact (leaveBlock_spares hleave (hbody.trans hu)).spares
    cases htail : tail? t with
    | none =>
      simp only [htail, bind_ok (x := emit [pushUnit]), bind_ok (x := pure _), bind_ok (x := get), emit_ok, pure_ok,
        get_ok] at h
      obtain ⟨_, _, ⟨rfl, rfl⟩, _, _, ⟨rfl, rfl⟩, _, _, ⟨rfl, rfl⟩, h⟩ := h
      exact hend (.refl _) h
    | some e =>
      simp only [htail, bind_ok (x := visit _ _ _), bind_ok (x := pure _), bind_ok (x := get), pure_ok,
        get_ok] at h
      obtain ⟨value, s₄, hvalue, _, _, ⟨rfl, rfl⟩, _, _, ⟨rfl, rfl⟩, _, _, ⟨rfl, rfl⟩, h⟩ := h
      have he := hvisit e (hchild e (mem_of_tail? htail))
      exact hend ((he _ .move).leads (hsecond.keeps.distinct hd₂) hvalue) h

omit hvisit in
theorem literal_spares : Sparing names (literal t) := by
  refine .inspect fun source _ => ?_
  split
  · exact .emit _
  · exact .fail _

omit hvisit in
theorem path_spares (name : Text) (use : Use) : Sparing names (path name use) := by
  refine .bind (.resolve name) fun ⟨pos, v⟩ => .ite (.ite (.bind (.update _ fun _ => ?_) fun _ => ?_) ?_) (.fail _)
  · exact ⟨rfl, rfl, rfl, fun _ => rfl⟩
  · exact .bind (.setLent _) fun _ => .emit _
  · exact .bind (.setLent _) fun _ => .emit _

theorem binary_spares (hnames : t.targets ⊆ names) : Sparing names (binary visit start t) := by
  refine .inspect fun kept hkept => ?_
  have hoperand := operands_subset hnames hkept
  split
  next a b =>
    refine .bind (hvisit a (hoperand a (by simp)) _ _) fun left => ?_
    refine .bind (hvisit b (hoperand b (by simp)) _ _) fun right => ?_
    exact .inspect fun op _ => .bind (.emit _) fun _ => .pure _
  · exact .unsupported _

theorem unary_spares (hnames : t.targets ⊆ names) : Sparing names (unary visit start t) := by
  refine .inspect fun kept hkept => ?_
  have hoperand := operands_subset hnames hkept
  split
  next a =>
    refine .bind (hvisit a (hoperand a (by simp)) _ _) fun one => .inspect fun op _ => ?_
    exact .bind (.emit _) fun _ => .pure _
  · exact .unsupported _

theorem conditional_spares (hnames : t.targets ⊆ names) : Sparing names (conditional visit start t) := by
  refine .inspect fun kept hkept => ?_
  have hoperand := operands_subset hnames hkept
  split
  next condition thenBranch rest =>
    refine .bind (hvisit condition (hoperand _ (by simp)) _ _) fun test => .look fun before => ?_
    refine .bind (.setDiverged _) fun _ => .bind (hvisit thenBranch (hoperand _ (by simp)) _ _) fun thenCode => ?_
    refine .look fun afterThen => .bind (.modify fun s => ?_) fun _ => ?_
    · exact (Environment.sparesAll_restoreOwnership s.env before.env).trans (Environment.sparesAll_restoreBorrows ..)
    dsimp only
    split
    case' h_1 => refine .bind (.emit _) fun elseCode => ?_
    case' h_2 e tail => refine .bind (hvisit e (hoperand e (by simp)) _ _) fun elseCode => ?_
    all_goals
      refine .look fun s => .bind (.modify fun s => ?_) fun _ => ?_
      case refine_2 => exact .bind (.emit _) fun _ => .bind (.emit _) fun _ => .pure _
      exact Environment.sparesAll_combine _ fun _ _ => ⟨rfl, rfl, rfl, fun _ => rfl⟩
  · exact .unsupported _

theorem loop_spares (hnames : t.targets ⊆ names) : Sparing names (loop visit start t) := by
  refine .inspect fun kept hkept => ?_
  have hoperand := operands_subset hnames hkept
  split
  next condition body =>
    refine .look fun entry => .bind (.setDiverged _) fun _ => ?_
    refine .bind (hvisit condition (hoperand _ (by simp)) _ _) fun test => ?_
    refine .bind (hvisit body (hoperand _ (by simp)) _ _) fun one => ?_
    refine .bind (.onEnv fun env => Environment.sparesAll_restoreBorrows env entry.env) fun _ => .look fun now => ?_
    have hend : ∀ (test : Emissions) (exit : Nat), Sparing names (do
        setDiverged entry.diverged
        return test ++ (← emit [.jumpUnless (exit : Nat)]) ++ one ++
          (← emit [.plain .pop, .jump (start : Nat), pushUnit]) : Compile Emissions) :=
      fun _ _ => .bind (.setDiverged _) fun _ => .bind (.emit _) fun _ => .bind (.emit _) fun _ => .pure _
    refine .ite ?_ (hend ..)
    split
    · exact .fail_bind ..
    · exact hend ..
  · exact .unsupported _

theorem arguments_spares {ts : List Tree} (hnames : ∀ e ∈ ts, e.targets ⊆ names) :
    Sparing names (arguments visit start ts) := by
  induction ts generalizing start with
  | nil => exact .pure _
  | cons t rest ih =>
    refine .bind (hvisit t (hnames t (List.mem_cons_self ..)) _ _) fun one => ?_
    exact .bind (ih fun e he => hnames e (List.mem_cons_of_mem _ he)) fun _ => .pure _

theorem call_spares (hnames : t.targets ⊆ names) : Sparing names (call visit start t) := by
  refine .inspect fun kept hkept => ?_
  have hoperand := operands_subset hnames hkept
  split
  · exact .unsupported _
  next callee rest =>
    refine .bind (hvisit callee (hoperand _ (by simp)) _ _) fun function => ?_
    refine .bind (arguments_spares hvisit fun e he => hoperand e (List.mem_cons_of_mem _ he)) fun _ => ?_
    exact .bind (.emit _) fun _ => .pure _

theorem last_spares (hnames : t.targets ⊆ names) (use : Use) : Sparing names (visit start t.last use) :=
  hvisit t.last (List.Subset.trans Tree.targets_last hnames) start use

theorem returning_spares (hnames : t.targets ⊆ names) : Sparing names (returning visit start t) := by
  have hend : ∀ value : Emissions, Sparing names (do
      setDiverged true
      return value ++ (← emit [.plain .reset]) : Compile Emissions) :=
    fun _ => .bind (.setDiverged _) fun _ => .bind (.emit _) fun _ => .pure _
  unfold returning
  split
  · exact .bind (last_spares hvisit hnames _) hend
  · exact .bind (.emit _) hend

/-- A variable that is assigned is a target, and so it may lend something else afterwards. -/
theorem assignment_spares (htag : Form.ofTag t.tag = .assignment) (hnames : t.targets ⊆ names) :
    Sparing names (assignment visit start t) := by
  refine .inspect fun kept hkept => ?_
  have hoperand := operands_subset hnames hkept
  split
  next target value =>
    refine .inspect fun form hform => ?_
    split
    case h_1 | h_2 =>
      refine .inspect fun name hname => ⟨fun {s s' code} hd h => ?_⟩
      simp only [bind_ok, resolve_ok, get_ok, onEnv_ok, emit_ok, pure_ok] at h
      obtain ⟨⟨pos, v⟩, _, ⟨hfind, rfl⟩, one, s₁, hone, _, _, ⟨rfl, rfl⟩, _, _, rfl, _, _, ⟨rfl, rfl⟩, rfl, rfl⟩ := h
      have hvalue := (hvisit value (hoperand value (by simp)) start .move).leads hd hone
      have htarget : t.target? = some name := by simp [Tree.target?, htag, hkept, hform, hname, Except.toOption]
      exact hvalue.assign hd hfind (hnames (Tree.mem_targets htarget)) _
    case h_3 =>
      have htarget := List.Subset.trans (Tree.targets_unwrapped (t := target)) (hoperand target (by simp))
      refine .bind (last_spares hvisit htarget _) fun reference => ?_
      refine .bind (hvisit value (hoperand value (by simp)) _ _) fun code => .bind (.emit _) fun _ => .pure _
    case h_4 => exact .unsupported _
  · exact .unsupported _

theorem compoundAssignment_spares (hnames : t.targets ⊆ names) :
    Sparing names (compoundAssignment visit start t) := by
  refine .inspect fun op _ => .inspect fun kept hkept => ?_
  have hoperand := operands_subset hnames hkept
  split
  next target value =>
    have htarget := List.Subset.trans (Tree.targets_unwrapped (t := target)) (hoperand target (by simp))
    have hvalue := hvisit value (hoperand value (by simp))
    refine .ite (.fail_bind ..) (.inspect fun form _ => ?_)
    split
    case h_1 | h_2 =>
      refine .inspect fun name _ => .bind (.resolve name) fun found => .bind (path_spares name _) fun old => ?_
      exact .bind (hvalue ..) fun _ => .bind (.emit _) fun _ => .pure _
    case h_3 =>
      refine .bind (last_spares hvisit htarget _) fun reference => .bind (last_spares hvisit htarget _) fun again => ?_
      exact .bind (hvalue ..) fun _ => .bind (.emit _) fun _ => .bind (.emit _) fun _ => .pure _
    case h_4 => exact .unsupported _
  · exact .unsupported _

omit hvisit in
theorem borrow_spares : Sparing names (borrow t) := by
  unfold borrow
  dsimp only
  split
  case h_1 | h_2 =>
    refine .inspect fun name _ => .bind (.resolve name) fun ⟨pos, v⟩ => ?_
    have hend : ∀ mutable : Bool, Sparing names (do
        setLent (some v.id)
        emit [.reference pos mutable] : Compile Emissions) :=
      fun _ => .bind (.setLent _) fun _ => .emit _
    refine .ite (.fail_bind ..) (.inspect fun mutable _ => .ite (.ite (.fail_bind ..) ?_) (.ite (.fail_bind ..) ?_))
    · exact .bind (.update _ fun _ => ⟨rfl, rfl, rfl, fun _ => rfl⟩) fun _ => hend _
    · exact .bind (.update _ fun _ => ⟨rfl, rfl, rfl, fun _ => rfl⟩) fun _ => hend _
  · exact .unsupported _

theorem dereference_spares (hnames : t.targets ⊆ names) : Sparing names (dereference visit start t) :=
  .ite (.bind (last_spares hvisit hnames _) fun _ => .bind (.emit _) fun _ => .pure _) (.unsupported _)

theorem group_spares (hnames : t.targets ⊆ names) (use : Use) : Sparing names (group visit start t use) :=
  .ite (.bind (.setLent _) fun _ => .emit _) (last_spares hvisit hnames use)

theorem wrapper_spares (hnames : t.targets ⊆ names) (use : Use) : Sparing names (wrapper visit start t use) := by
  unfold wrapper
  split
  next e hchildren =>
    exact hvisit e (List.Subset.trans (Tree.targets_of_mem (by simp [hchildren])) hnames) start use
  · exact .unsupported _

/-- The rule of every form keeps the bindings outside the innermost frame, but for what assignments make them lend. -/
theorem rule_spares (hnames : t.targets ⊆ names) (use : Use) :
    Sparing names (rule visit start (Form.ofTag t.tag) t use) := by
  cases hform : Form.ofTag t.tag with
  | literal => exact literal_spares
  | path | identifier => exact .inspect fun name _ => path_spares name use
  | block => exact block_spares hvisit hnames
  | grouped => exact group_spares hvisit hnames use
  | arithmetic | comparison | lazyBoolean => exact binary_spares hvisit hnames
  | negation => exact unary_spares hvisit hnames
  | conditional => exact conditional_spares hvisit hnames
  | loop => exact loop_spares hvisit hnames
  | call => exact call_spares hvisit hnames
  | returning => exact returning_spares hvisit hnames
  | assignment => exact assignment_spares hvisit hform hnames
  | compoundAssignment => exact compoundAssignment_spares hvisit hnames
  | borrow => exact borrow_spares
  | dereference => exact dereference_spares hvisit hnames
  | letStatement | expressionStatement =>
    exact .bind (statement_spares hvisit hnames) fun _ => .bind (.emit _) fun _ => .pure _
  | crate | function | parameters | parameter | ascription | terminal | other => exact wrapper_spares hvisit hnames use

end Rules

/-- Code generation for a tree keeps the bindings outside the innermost frame, by induction on the depth. -/
theorem toDepth_spares (depth : Nat) {t : Tree} (hnames : t.targets ⊆ names) (start : Nat) (use : Use) :
    Sparing names (toDepth depth start t use) := by
  induction depth generalizing t start use with
  | zero => exact ⟨fun _ h => absurd h throw_ok⟩
  | succ depth ih =>
    cases t with
    | absent => exact ⟨fun _ h => absurd h throw_ok⟩
    | node tag children val type =>
      refine .bind (rule_spares (fun e he start use => ih he start use) hnames use) fun code => ?_
      exact .ite (.bind (.setLent _) fun _ => .pure _) (.pure _)

/-- After a function item every binding around it is what it was before, except that a binding which an assignment in
the item names may lend something else; and whether a return stands before the place is what it was. The numbers of the
bindings are distinct wherever code is generated, by `Environment.Distinct.extend` and `Environment.Keeps.distinct`. -/
theorem function_surroundings {depth start : Nat} {t : Tree} {s s' : CompileState} {code : Emissions}
    (hd : s.env.Distinct) (h : function (toDepth depth) start t s = .ok (code, s')) :
    s'.diverged = s.diverged ∧
      List.Forall₂ (List.Forall₂ fun v w => w = { v with lends := w.lends } ∧ (v.name ∉ t.targets → w = v))
        s.env.frames s'.env.frames := by
  obtain ⟨hdiverged, inner, hinner, henv⟩ := function_restores
    (fun e he start use => toDepth_spares depth he start use) (List.Subset.refl t.targets) hd h
  exact ⟨hdiverged, henv ▸ hinner.restored hd⟩

/-- The surroundings of an item `g` in a block, around which `r` refers to `a`. -/
def surroundings : CompileState where
  env :=
    { frames := [
        [{ id := 0, name := "a", borrow := .immutable, shares := 1 }, { id := 1, name := "b" },
          { id := 2, name := "r", lends := some 0 }],
        [{ id := 3, name := "g" }, { id := 4, name := "t", hidden := true }, { id := 5, name := "u", hidden := true }]]
      fresh := 6 }

end Compile

/-- A function item that assigns a reference to `r`. -/
def Tree.lending (name : Text) : Tree :=
  function "g" [] "i32" (block [statement (assignment (path "r") (borrow (path name))), int 0])

/-- The item that lends `b` to `r` leaves everything else. -/
theorem Compile.function_surroundings_lending : surroundings.env.Distinct ∧ ∃ code s',
    function (toDepth (Tree.lending "b").height) 0 (Tree.lending "b") surroundings = .ok (code, s') ∧
      s'.diverged = surroundings.diverged ∧
      List.Forall₂ (List.Forall₂ fun v w => w = { v with lends := w.lends } ∧
        (v.name ∉ (Tree.lending "b").targets → w = v)) surroundings.env.frames s'.env.frames := by
  have hdistinct : surroundings.env.Distinct := by
    unfold Environment.Distinct
    decide
  cases hrun : function (toDepth (Tree.lending "b").height) 0 (Tree.lending "b") surroundings with
  | error e =>
    have hruns : (function (toDepth (Tree.lending "b").height) 0 (Tree.lending "b")
        surroundings).toOption.isSome = true := by
      decide
    rw [hrun] at hruns
    cases hruns
  | ok r => exact ⟨hdistinct, r.1, r.2, rfl, function_surroundings hdistinct hrun⟩

/-- A program with a function item in a block, after which a block has the value `r` and `b` is borrowed for change. -/
def Tree.relending (item : Tree) : Tree :=
  crate [function "main" [] "i32" (block [
    letStatement "a" false "" (int 1), letStatement "b" true "" (int 2), letStatement "r" true "" (borrow (path "a")),
    block [
      item,
      letStatement "t" false "" (block [letStatement "s" false "" (borrowMutable (path "b")), path "r"]),
      letStatement "u" false "" (borrowMutable (path "b")),
      int 0]])]

/-- The binding `r` lends `a` before the item that assigns it a reference to `b`, and it lends `b` afterwards. So the
program with this item passes the check and does not compile, although nothing calls the item and the program with an
item that assigns a reference to `a` does compile. -/
theorem Tree.relending_conflict :
    (Compile.surroundings.env.get? 2).map Variable.lends = some (some 0) ∧
    ((Compile.function (Compile.toDepth (lending "b").height) 0 (lending "b") Compile.surroundings).toOption.map
      fun r => (r.2.env.get? 2).map Variable.lends) = some (some (some 1)) ∧
    (relending (lending "b")).complaints = .ok [] ∧
    (relending (lending "b")).compile = .error (.failed (.mutableConflict "b" .mutable)) ∧
    (relending (lending "a")).compile.toOption.isSome = true :=
  ⟨by decide, by decide, by decide, by decide +kernel, by decide +kernel⟩

end Tenure
