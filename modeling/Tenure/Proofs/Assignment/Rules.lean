import Tenure.Proofs.Assignment.Ownership

/-!
# Code generation assigns before it reads

Whenever code is generated for an orderly tree, every slot of the resolved term has a value when it is read: there is one
lemma for each rule, over visits of the nodes below that already have the property, and an induction on the depth closes
the recursion (`Compile.toDepth_secures`). What code generation knows of ownership at a place says which slots have a
value there, and a place after a return, which is never reached, counts all of them.
-/

set_option autoImplicit false

namespace Tenure

namespace Compile

/-- The slots with values at a place of code generation: those of the crate's functions, and those of the visible
bindings that own one or have a name that is not set apart. -/
structure Stage (crate : List Nat) (deferred : List Text) (s : CompileState) (A : Set (Nat × Nat)) : Prop where
  depth : 0 < s.env.depth
  held : s.env.Held deferred A
  items : slotsOf crate ⊆ A
  diverged : s.diverged = true → Never A

/-- From one place to a later one, every slot of a resolved term has a value when it is read. -/
structure Secures (crate : List Nat) (depth : Nat) (deferred names : List Text) {n : Nat} (r : Resolve (Term n))
    (s s' : CompileState) : Prop where
  gains : s.env.Gains depth names s'.env
  definite : ∀ A, Stage crate deferred s A → ∃ x B, r s.env.places = some (x, s'.env.places) ∧
    x.Definite crate s.env.shape A B ∧ A ⊆ B ∧ Stage crate deferred s' B

/-- Generating code for the nodes below an orderly tree assigns before it reads. -/
def Securing (crate : List Nat) (visit : Visit) (resolve : Resolve.Visit) : Prop :=
  ∀ (depth : Nat) ⦃deferred names start t use s code s'⦄, t.Admits deferred names → s.env.Distinct →
    visit start t use s = .ok (code, s') → Secures crate depth deferred names (resolve t) s s'

variable {crate : List Nat} {depth : Nat} {deferred names : List Text} {n m : Nat} {r : Resolve (Term n)}
  {s s₁ s' : CompileState} {A B : Set (Nat × Nat)}

namespace Stage

/-- The slots with values stay the same where nothing is gained that might not have one. -/
theorem step (h : Stage crate deferred s A) (hg : s.env.Gains s.env.depth names s'.env)
    (hnames : ∀ name ∈ names, name ∉ deferred) (hdiverged : s'.diverged = true → Never A) :
    Stage crate deferred s' A where
  depth := hg.keeps.depth ▸ h.depth
  held := h.held.gains hg hnames
  items := h.items
  diverged := hdiverged

theorem quiet (h : Stage crate deferred s A) (hg : s.env.Gains s.env.depth [] s'.env)
    (hdiverged : s'.diverged = s.diverged) : Stage crate deferred s' A :=
  h.step hg (by simp) fun hd => h.diverged (hdiverged ▸ hd)

/-- A part of the code starts as if no return stood before it. -/
theorem started (h : Stage crate deferred s A) : Stage crate deferred { s with diverged := false } A :=
  ⟨h.depth, h.held, h.items, fun hd => by cases hd⟩

end Stage

namespace Secures

/-- A term of which no part gives a slot a value. -/
theorem leaf {x : Term n} (hg : ∀ depth, s.env.Gains depth [] s'.env) (hdiverged : s'.diverged = s.diverged)
    (hr : r s.env.places = some (x, s'.env.places))
    (hx : ∀ A, Stage crate deferred s A → x.Definite crate s.env.shape A A) :
    Secures crate depth deferred names r s s' where
  gains := (hg depth).of_nil
  definite A hA := ⟨x, A, hr, hx A hA, Set.Subset.refl A, hA.quiet (hg _) hdiverged⟩

/-- One part, and what a term makes of it. -/
theorem map {r' : Resolve (Term m)} {f : Term n → Term m} (h : Secures crate depth deferred names r s s')
    (hr : ∀ x, r s.env.places = some (x, s'.env.places) → r' s.env.places = some (f x, s'.env.places))
    (hf : ∀ x A B, x.Definite crate s.env.shape A B → (f x).Definite crate s.env.shape A B) :
    Secures crate depth deferred names r' s s' where
  gains := h.gains
  definite A hA := by
    obtain ⟨x, B, hx, hdefinite, hsub, hB⟩ := h.definite A hA
    exact ⟨f x, B, hr x hx, hf x A B hdefinite, hsub, hB⟩

/-- Two parts, one after the other, and what a term makes of them. -/
theorem map₂ {k : Nat} {r₁ : Resolve (Term m)} {r' : Resolve (Term k)} {f : Term n → Term m → Term k}
    (h : Secures crate depth deferred names r s s₁) (h₁ : Secures crate depth deferred names r₁ s₁ s')
    (hr : ∀ x y, r s.env.places = some (x, s₁.env.places) → r₁ s₁.env.places = some (y, s'.env.places) →
      r' s.env.places = some (f x y, s'.env.places))
    (hf : ∀ x y A B C, slotsOf crate ⊆ C → x.Definite crate s.env.shape A B → y.Definite crate s.env.shape B C →
      (f x y).Definite crate s.env.shape A C) :
    Secures crate depth deferred names r' s s' where
  gains := h.gains.trans h₁.gains
  definite A hA := by
    obtain ⟨x, B, hx, hdefinite, hsub, hB⟩ := h.definite A hA
    obtain ⟨y, C, hy, hdefinite₁, hsub₁, hC⟩ := h₁.definite B hB
    rw [h.gains.keeps.shape] at hdefinite₁
    exact ⟨f x y, C, hr x y hx hy, hf x y A B C hC.items hdefinite hdefinite₁, hsub.trans hsub₁, hC⟩

/-- A step at the end that names do not see. -/
theorem andThen (h : Secures crate depth deferred names r s s₁) (hg : ∀ depth, s₁.env.Gains depth [] s'.env)
    (hplaces : s'.env.places = s₁.env.places) (hdiverged : s'.diverged = s₁.diverged) :
    Secures crate depth deferred names r s s' where
  gains := h.gains.trans (hg depth).of_nil
  definite A hA := by
    obtain ⟨x, B, hx, hdefinite, hsub, hB⟩ := h.definite A hA
    exact ⟨x, B, hplaces ▸ hx, hdefinite, hsub, hB.quiet (hg _) hdiverged⟩

end Secures

end Compile

namespace Environment

variable {env afterThen afterElse : Environment} {depth : Nat} {names deferred : List Text} {a b : Bool}

/-- The bindings after a conditional, slot by slot. -/
theorem at?_joined (hthen : env.Gains depth names afterThen) (helse : env.Gains depth names afterElse)
    (hd : afterThen.Distinct) {i j : Nat} {w : Variable}
    (hw : (afterElse.combine afterThen (Compile.joined a b)).at? i j = some w) :
    ∃ v u u', env.at? i j = some v ∧ afterThen.at? i j = some u ∧ afterElse.at? i j = some u' ∧
      w = Compile.joined a b u u' ∧ u.name = v.name ∧ u'.name = v.name := by
  have hkept := keeps_combine (Compile.joined_quiet a b) afterElse afterThen
  obtain ⟨u', hu', -, -⟩ := hkept.at? hw
  obtain ⟨v, hv, hid', hname'⟩ := helse.keeps.at? hu'
  obtain ⟨u, hu, hid, hname⟩ := hthen.keeps.at?_later hv
  have hjoined := at?_combine hd (Compile.joined a b) hu' hu (hid.trans hid'.symm)
  exact ⟨v, u, u', hv, hu, hu', Option.some.inj (hw.symm.trans hjoined), hname, hname'⟩

/-- A conditional gains what one of its branches does. -/
theorem gains_joined (hthen : env.Gains depth names afterThen) (helse : env.Gains depth names afterElse)
    (hd : afterThen.Distinct) : env.Gains depth names (afterElse.combine afterThen (Compile.joined a b)) where
  keeps := helse.keeps.trans (keeps_combine (Compile.joined_quiet a b) afterElse afterThen)
  outer i hi j v w hv hw := by
    obtain ⟨v', u, u', hv', hu, hu', rfl, -, -⟩ := at?_joined hthen helse hd hw
    cases hv.symm.trans hv'
    obtain ⟨-, hgain⟩ := hthen.outer i hi j v u hv hu
    obtain ⟨hhidden, hgain'⟩ := helse.outer i hi j v u' hv hu'
    refine ⟨hhidden, fun hown => ?_⟩
    simp only [Compile.joined] at hown
    split at hown
    · exact hgain' hown
    split at hown
    · exact hgain hown
    · exact hgain' (Bool.and_eq_true_iff.mp hown).1

/-- The slots that have values after every branch that is completed have values after the conditional. -/
theorem held_joined {B C : Set (Nat × Nat)} (hthen : env.Gains env.depth names afterThen)
    (helse : env.Gains env.depth names afterElse) (hd : afterThen.Distinct) (hB : afterThen.Held deferred B)
    (hC : afterElse.Held deferred C) :
    (afterElse.combine afterThen (Compile.joined a b)).Held deferred (joinedSlots a b B C) := by
  intro i j w hw hvisible hown
  obtain ⟨v, u, u', hv, hu, hu', rfl, hname, hname'⟩ := at?_joined hthen helse hd hw
  have hhidden := (hthen.outer i (lt_of_at? hv) j v u hv hu).1
  have hhidden' := (helse.outer i (lt_of_at? hv) j v u' hv hu').1
  replace hvisible : u'.hidden = false := hvisible
  have hvisible' : u.hidden = false := by rw [hhidden, ← hhidden', hvisible]
  have hfree : (Compile.joined a b u u').name ∉ deferred → u.name ∉ deferred ∧ u'.name ∉ deferred := by
    intro hfree
    exact ⟨by rw [hname, ← hname']; exact hfree, hfree⟩
  have hmem : u.owns = true ∨ u.name ∉ deferred → (i, j) ∈ B := hB i j u hu hvisible'
  have hmem' : u'.owns = true ∨ u'.name ∉ deferred → (i, j) ∈ C := hC i j u' hu' hvisible
  simp only [joinedSlots]
  simp only [Compile.joined] at hown hfree
  split at hown
  next h => rw [if_pos h]; exact hmem' (hown.imp_right fun h => (hfree h).2)
  next h =>
    rw [if_neg h]
    split at hown
    next h' => rw [if_pos h']; exact hmem (hown.imp_right fun h => (hfree h).1)
    next h' =>
      rw [if_neg h']
      rcases hown with hown | hout
      · obtain ⟨hown', hown⟩ := Bool.and_eq_true_iff.mp hown
        exact ⟨hmem' (.inl hown'), hmem (.inl hown)⟩
      · exact ⟨hmem' (.inr (hfree hout).2), hmem (.inr (hfree hout).1)⟩

end Environment

namespace Compile

variable {crate : List Nat} {depth : Nat} {deferred names : List Text} {n m : Nat} {r : Resolve (Term n)}
  {s s₁ s' : CompileState} {A B : Set (Nat × Nat)}

section Rules

variable {visit : Visit} {resolve : Resolve.Visit} {start : Nat} {t : Tree} {code : Emissions}

/-! ## Names -/

/-- A name that is found stands for a visible binding that is in its slot. -/
theorem find?_slot {env : Environment} {name : Text} {pos : Position} {v : Variable}
    (h : env.find? name = some (pos, v)) :
    ∃ frame slot, Resolve.position name env.places = some ((frame, slot), env.places) ∧
      env.at? frame slot = some v ∧ v.name = name ∧ v.hidden = false := by
  obtain ⟨frame, slot, hpos, rfl, -⟩ := find?_position h
  obtain ⟨i, j, heq, hv, hname, hvisible⟩ := Environment.at?_of_find? h
  obtain ⟨rfl, rfl⟩ : frame = i ∧ slot = j := by
    simp only [Environment.positionOf, Position.mk.injEq] at heq
    omega
  exact ⟨frame, slot, hpos, hv, hname, hvisible⟩

theorem path_secures {name : Text} {use : Use} (h : path name use s = .ok (code, s')) :
    Secures crate depth deferred names (Resolve.path name) s s' := by
  simp only [path, bind_ok, resolve_ok] at h
  obtain ⟨⟨pos, v⟩, _, ⟨hfind, rfl⟩, h⟩ := h
  obtain ⟨frame, slot, hpos, hv, -, hvisible⟩ := find?_slot hfind
  split at h
  next hown =>
    have hload : ∀ {u : CompileState},
        (do setLent v.lends; emit [.load pos] : Compile Emissions) u = .ok (code, s') →
        (∀ depth, s.env.Gains depth [] u.env) → u.env.places = s.env.places → u.diverged = s.diverged →
        Secures crate depth deferred names (Resolve.path name) s s' := by
      intro u hu hg hplaces hdiverged
      simp only [bind_ok, setLent_ok, emit_ok] at hu
      obtain ⟨_, _, rfl, rfl, rfl⟩ := hu
      refine .leaf hg hdiverged (x := .load frame slot) ?_ fun A hA => .load (hA.held _ _ v hv hvisible (.inl hown))
      simp [Resolve.path, hpos, hplaces]
    split at h
    · simp only [bind_ok (x := onEnv _), onEnv_ok] at h
      obtain ⟨_, _, rfl, h⟩ := h
      refine hload h (fun depth => .update (fun v => by simp) _ fun w _ _ hown => ?_)
        (Environment.places_update (fun v => by simp) s.env v.id) rfl
      cases hown
    · exact hload h (fun _ => .refl _) rfl rfl
  · exact absurd h fail_ok

theorem literal_secures (h : literal t s = .ok (code, s')) :
    Secures crate depth deferred names (Resolve.literal t) s s' := by
  simp only [literal, bind_ok, lift_ok] at h
  obtain ⟨source, _, ⟨hsource, rfl⟩, h⟩ := h
  cases hread : Literal.read source with
  | error e =>
    rw [hread] at h
    exact absurd h fail_ok
  | ok l =>
    rw [hread] at h
    obtain ⟨rfl, rfl⟩ := emit_ok.mp h
    refine .leaf (fun _ => .refl _) rfl (x := .constant l) ?_ fun A _ => .constant
    simp [Resolve.literal, Resolve.lift_apply hsource, hread]

theorem borrow_secures (h : borrow t s = .ok (code, s')) :
    Secures crate depth deferred names (Resolve.borrow t) s s' := by
  unfold borrow at h
  simp only at h
  generalize hform : Form.ofTag t.last.unwrapped.tag = form at h
  split at h
  case h_1 | h_2 =>
    simp only [bind_ok, lift_ok, resolve_ok] at h
    obtain ⟨name, _, ⟨hname, rfl⟩, ⟨pos, v⟩, _, ⟨hfind, rfl⟩, h⟩ := h
    obtain ⟨frame, slot, hpos, hv, -, hvisible⟩ := find?_slot hfind
    split at h
    · exact absurd h fail_bind_ok
    next hown =>
    replace hown : v.owns = true := by simpa using hown
    simp only [bind_ok, lift_ok] at h
    obtain ⟨mutable, _, ⟨hmutable, rfl⟩, h⟩ := h
    have hend : ∀ {u : CompileState},
        (do setLent (some v.id); emit [.reference pos mutable] : Compile Emissions) u = .ok (code, s') →
        (∀ depth, s.env.Gains depth [] u.env) → u.env.places = s.env.places → u.diverged = s.diverged →
        Secures crate depth deferred names (Resolve.borrow t) s s' := by
      intro u hu hg hplaces hdiverged
      simp only [bind_ok, setLent_ok, emit_ok] at hu
      obtain ⟨_, _, rfl, rfl, rfl⟩ := hu
      refine .leaf hg hdiverged (x := .borrow frame slot mutable) ?_
        fun A hA => .borrow (hA.held _ _ v hv hvisible (.inl hown))
      simp [Resolve.borrow, hform, Resolve.lift_apply hname, Resolve.lift_apply hmutable, hpos, hplaces]
    split at h
    · split at h
      · exact absurd h fail_bind_ok
      · simp only [bind_ok (x := onEnv _), onEnv_ok] at h
        obtain ⟨_, _, rfl, h⟩ := h
        exact hend h (fun depth => .update (fun v => by simp) _ fun w _ _ hown => .inl hown)
          (Environment.places_update (fun v => by simp) s.env v.id) rfl
    · split at h
      · exact absurd h fail_bind_ok
      · simp only [bind_ok (x := onEnv _), onEnv_ok] at h
        obtain ⟨_, _, rfl, h⟩ := h
        exact hend h (fun depth => .update (fun v => by simp) _ fun w _ _ hown => .inl hown)
          (Environment.places_update (fun v => by simp) s.env v.id) rfl
  · exact absurd h unsupported_ok

/-! ## Expressions -/

section Expressions

variable (hv : Securing crate visit resolve) (ht : t.Admits deferred names) (hblock : Form.ofTag t.tag ≠ .block)
  (hd : s.env.Distinct)

include hv ht hblock hd

theorem binary_secures (h : binary visit start t s = .ok (code, s')) :
    Secures crate depth deferred names (Resolve.binary resolve t) s s' := by
  simp only [binary, bind_ok, lift_ok] at h
  obtain ⟨operands, _, ⟨hops, rfl⟩, h⟩ := h
  have hadmits := ht.operands hblock hops
  split at h
  · simp only [bind_ok, lift_ok, emit_ok, pure_ok] at h
    obtain ⟨left, s₁, hleft, right, s₂, hright, op, _, ⟨hop, rfl⟩, _, _, ⟨rfl, rfl⟩, rfl, rfl⟩ := h
    have hx := hv depth (hadmits _ (by simp)) hd hleft
    have hy := hv depth (hadmits _ (by simp)) (hx.gains.keeps.distinct hd) hright
    refine hx.map₂ hy (f := .binary op) (fun x y hx hy => ?_) fun x y A B C _ hx hy => .binary hx hy
    simp [Resolve.binary, Resolve.lift_apply hops, Resolve.lift_apply hop, hx, hy]
  · exact absurd h unsupported_ok

theorem unary_secures (h : unary visit start t s = .ok (code, s')) :
    Secures crate depth deferred names (Resolve.unary resolve t) s s' := by
  simp only [unary, bind_ok, lift_ok] at h
  obtain ⟨operands, _, ⟨hops, rfl⟩, h⟩ := h
  have hadmits := ht.operands hblock hops
  split at h
  · simp only [bind_ok, lift_ok, emit_ok, pure_ok] at h
    obtain ⟨one, s₁, hone, op, _, ⟨hop, rfl⟩, _, _, ⟨rfl, rfl⟩, rfl, rfl⟩ := h
    refine (hv _ (hadmits _ (by simp)) hd hone).map (f := .unary op) (fun x hx => ?_) fun x A B hx => .unary hx
    simp [Resolve.unary, Resolve.lift_apply hops, Resolve.lift_apply hop, hx]
  · exact absurd h unsupported_ok

/-- What is known after a conditional is known after every branch that is completed. -/
theorem conditional_secures (h : conditional visit start t s = .ok (code, s')) :
    Secures crate depth deferred names (Resolve.conditional resolve t) s s' := by
  simp only [conditional, bind_ok, lift_ok] at h
  obtain ⟨operands, _, ⟨hops, rfl⟩, h⟩ := h
  have hadmits := ht.operands hblock hops
  split at h
  next condition thenBranch rest =>
    simp only [bind_ok, get_ok, setDiverged_ok, modify_ok] at h
    obtain ⟨test, s₁, htest, _, _, ⟨rfl, rfl⟩, _, _, rfl, one, s₂, hone, _, _, ⟨rfl, rfl⟩, _, s₃, hs₃, h⟩ := h
    have hc := fun depth => hv depth (hadmits condition (by simp)) hd htest
    have hd₁ := (hc 0).gains.keeps.distinct hd
    have hx := fun depth => hv depth (s := { s₁ with diverged := false })
      (hadmits thenBranch (by simp)) hd₁ hone
    -- the second branch starts from what the first one started from
    have hg₃ : ∀ depth, s₁.env.Gains depth [] s₃.env := fun depth => hs₃ ▸ (hx depth).gains.restored hd₁
    have hp₃ : s₃.env.places = s₂.env.places := by simp [← hs₃]
    have hdiverged₃ : s₃.diverged = false := by simp [← hs₃]
    have hend : ∀ {r : Resolve (Term 1)} {s₄ : CompileState}, (∀ depth, Secures crate depth deferred names r s₃ s₄) →
        (∀ c x y, resolve condition s.env.places = some (c, s₁.env.places) →
          resolve thenBranch s₁.env.places = some (x, s₃.env.places) →
          r s₃.env.places = some (y, s₄.env.places) →
          Resolve.conditional resolve t s.env.places = some (.conditional c x y, s₄.env.places)) →
        s'.env = s₄.env.combine s₂.env (joined s₂.diverged s₄.diverged) →
        s'.diverged = (s₁.diverged || (s₂.diverged && s₄.diverged)) →
        Secures crate depth deferred names (Resolve.conditional resolve t) s s' := by
      intro r s₄ hy hr henv hdiverged
      have hg₄ := fun depth => (hg₃ depth).of_nil.trans (hy depth).gains
      have hd₂ := (hx 0).gains.keeps.distinct hd₁
      refine ⟨(hc depth).gains.trans (henv ▸ Environment.gains_joined (hx depth).gains (hg₄ depth) hd₂),
        fun A hA => ?_⟩
      obtain ⟨c, A₁, hcr, hcd, hsub₁, hA₁⟩ := (hc depth).definite A hA
      obtain ⟨x, B, hxr, hxd, hsubB, hB⟩ := (hx depth).definite A₁ hA₁.started
      have hA₃ : Stage crate deferred s₃ A₁ :=
        ⟨(hg₃ 0).keeps.depth ▸ hA₁.depth, hA₁.held.gains (hg₃ _) (by simp), hA₁.items, fun hfalse =>
          by rw [hdiverged₃] at hfalse; cases hfalse⟩
      obtain ⟨y, C, hyr, hyd, hsubC, hC⟩ := (hy depth).definite A₁ hA₃
      have hshape₁ := (hc 0).gains.keeps.shape
      rw [(hg₃ 0).keeps.shape, hshape₁] at hyd
      have hplaces : s'.env.places = s₄.env.places := henv ▸ Environment.places_combine (joined_quiet _ _) s₄.env s₂.env
      have hsub := subset_joinedSlots s₂.diverged s₄.diverged hsubB hsubC
      refine ⟨.conditional c x y, joinedSlots s₂.diverged s₄.diverged B C, ?_, ?_, hsub₁.trans hsub, ?_⟩
      · rw [hplaces]
        exact hr c x y hcr (by rw [hp₃]; exact hxr) hyr
      · exact .conditional hcd (.joinedThen (hshape₁ ▸ hxd) hB.diverged) (.joinedElse hyd hC.diverged)
      · have hg := Environment.gains_joined (a := s₂.diverged) (b := s₄.diverged) (hx 0).gains (hg₄ 0) hd₂
        refine ⟨?_, ?_, hA₁.items.trans hsub, fun hdiv => ?_⟩
        · rw [henv, hg.keeps.depth]
          exact hA₁.depth
        · rw [henv]
          exact Environment.held_joined (hx _).gains (hg₄ _) hd₂ hB.held hC.held
        · rw [hdiverged] at hdiv
          rcases Bool.or_eq_true_iff.mp hdiv with hdiv | hdiv
          · exact fun slot => hsub (hA₁.diverged hdiv slot)
          · exact never_joinedSlots hB.diverged hC.diverged hdiv
    cases rest with
    | nil =>
      simp only [bind_ok, get_ok, modify_ok, emit_ok, pure_ok] at h
      obtain ⟨_, _, ⟨rfl, rfl⟩, _, _, ⟨rfl, rfl⟩, _, _, rfl, _, _, ⟨rfl, rfl⟩, _, _, ⟨rfl, rfl⟩, rfl, rfl⟩ := h
      refine hend (r := pure Resolve.unit) (fun _ => .leaf (fun _ => .refl _) rfl rfl fun _ _ => .constant) ?_ rfl rfl
      intro c x y hc hx hy
      obtain ⟨rfl, -⟩ := Resolve.pure_some.mp hy
      simp [Resolve.conditional, Resolve.lift_apply hops, hc, hx]
    | cons e tail =>
      simp only [bind_ok, get_ok, modify_ok, emit_ok, pure_ok] at h
      obtain ⟨two, s₄, htwo, _, _, ⟨rfl, rfl⟩, _, _, rfl, _, _, ⟨rfl, rfl⟩, _, _, ⟨rfl, rfl⟩, rfl, rfl⟩ := h
      have hd₃ := (hg₃ 0).keeps.distinct hd₁
      refine hend (fun depth => hv depth (hadmits e (by simp)) hd₃ htwo) (fun c x y hc hx hy => ?_) rfl rfl
      simp [Resolve.conditional, Resolve.lift_apply hops, hc, hx, hy]
  · exact absurd h unsupported_ok

/-- The body of a loop may not run, and it gains nothing that might not have had a value before. -/
theorem loop_secures (hform : Form.ofTag t.tag = .loop) (h : loop visit start t s = .ok (code, s')) :
    Secures crate depth deferred names (Resolve.loop resolve t) s s' := by
  simp only [loop, bind_ok, lift_ok] at h
  obtain ⟨operands, _, ⟨hops, rfl⟩, h⟩ := h
  have hadmits := ht.operands hblock hops
  split at h
  next condition body =>
    simp only [bind_ok, get_ok, setDiverged_ok, onEnv_ok] at h
    obtain ⟨_, _, ⟨rfl, rfl⟩, _, _, rfl, test, s₁, htest, one, s₂, hone, _, s₃, hs₃, now, _, ⟨hnow, rfl⟩, h⟩ := h
    have hbody := hadmits body (by simp)
    have hc := fun depth => hv depth (s := { s with diverged := false }) (hadmits condition (by simp)) hd
      htest
    have hx := fun depth => hv depth ⟨hbody.orderly, List.Subset.refl _⟩
      ((hc 0).gains.keeps.distinct hd) hone
    have hdisjoint := Tree.disjoint_of_orderly_loop ht.orderly hform hops
    have hg₃ : ∀ depth, s₁.env.Gains depth body.targets s₃.env :=
      fun depth => (hx depth).gains.trans (hs₃ ▸ .restoreBorrows s₂.env s.env)
    have hp₃ : s₃.env.places = s₂.env.places := by simp [← hs₃]
    have hend : (do
        setDiverged s.diverged
        let a ← emit [.jumpUnless (start + test.length + one.length + 3 : Nat)]
        let b ← emit [.plain .pop, .jump (start : Nat), pushUnit]
        pure (test ++ a ++ one ++ b) : Compile Emissions) s₃ = .ok (code, s') →
        Secures crate depth deferred names (Resolve.loop resolve t) s s' := by
      intro h
      simp only [bind_ok, setDiverged_ok, emit_ok, pure_ok] at h
      obtain ⟨_, _, rfl, _, _, ⟨rfl, rfl⟩, _, _, ⟨rfl, rfl⟩, rfl, rfl⟩ := h
      refine ⟨(hc depth).gains.trans ((hg₃ depth).mono hbody.targets), fun A hA => ?_⟩
      obtain ⟨c, B, hcr, hcd, hsub, hB⟩ := (hc depth).definite A hA.started
      obtain ⟨x, C, hxr, hxd, -, -⟩ := (hx depth).definite B hB
      have hshape := (hc 0).gains.keeps.shape
      refine ⟨.loop c x, B, ?_, .loop hcd (hshape ▸ hxd), hsub, ?_⟩
      · have hcr : resolve condition s.env.places = some (c, s₁.env.places) := hcr
        simp [Resolve.loop, Resolve.lift_apply hops, hcr, hxr, hp₃]
      · exact hB.step (hg₃ _) hdisjoint fun hdiv slot => hsub (hA.diverged hdiv slot)
    split at h
    · cases hmoved : movedSince s.env now.env with
      | nil =>
        simp only [hmoved] at h
        exact hend h
      | cons v others =>
        simp only [hmoved] at h
        exact absurd h fail_bind_ok
    · exact hend h
  · exact absurd h unsupported_ok

omit ht hblock in
theorem arguments_secures {ts : List Tree} (hts : ∀ e ∈ ts, e.Admits deferred names)
    (h : arguments visit start ts s = .ok (code, s')) :
    Secures crate depth deferred names (Resolve.arguments resolve ts) s s' := by
  induction ts generalizing start s code with
  | nil =>
    obtain ⟨rfl, rfl⟩ := pure_ok.mp h
    exact .leaf (fun _ => .refl _) rfl (x := .nothing) rfl fun _ _ => .nothing
  | cons t rest ih =>
    simp only [arguments, bind_ok, pure_ok] at h
    obtain ⟨one, s₁, hone, two, s₂, htwo, rfl, rfl⟩ := h
    have hx := hv depth (hts t (List.mem_cons_self ..)) hd hone
    have hy := ih (hx.gains.keeps.distinct hd) (fun e he => hts e (List.mem_cons_of_mem _ he)) htwo
    refine hx.map₂ hy (f := .also) (fun x y hx hy => ?_) fun x y A B C _ hx hy => .also hx hy
    simp [Resolve.arguments, hx, hy]

theorem call_secures (h : call visit start t s = .ok (code, s')) :
    Secures crate depth deferred names (Resolve.call resolve t) s s' := by
  simp only [call, bind_ok, lift_ok] at h
  obtain ⟨operands, _, ⟨hops, rfl⟩, h⟩ := h
  have hadmits := ht.operands hblock hops
  split at h
  · exact absurd h unsupported_ok
  · simp only [bind_ok, emit_ok, pure_ok] at h
    obtain ⟨one, s₁, hone, two, s₂, htwo, _, _, ⟨rfl, rfl⟩, rfl, rfl⟩ := h
    have hx := hv depth (hadmits _ (by simp)) hd hone
    refine hx.map₂ (arguments_secures hv (hx.gains.keeps.distinct hd)
      (fun e he => hadmits e (List.mem_cons_of_mem _ he)) htwo) (f := .call) (fun x y hx hy => ?_)
      fun x y A B C hcrate hx hy => .call hx hy hcrate
    simp [Resolve.call, Resolve.lift_apply hops, hx, hy]

theorem last_secures {use : Use} (h : visit start t.last use s = .ok (code, s')) :
    Secures crate depth deferred names (resolve t.last) s s' :=
  hv depth (ht.last hblock) hd h

/-- What comes after a return is not reached. -/
theorem returning_secures (h : returning visit start t s = .ok (code, s')) :
    Secures crate depth deferred names (Resolve.returning resolve t) s s' := by
  have hend : ∀ {r : Resolve (Term 1)} {s₁ : CompileState}, Secures crate depth deferred names r s s₁ →
      (∀ x, r s.env.places = some (x, s₁.env.places) →
        Resolve.returning resolve t s.env.places = some (.returning x, s₁.env.places)) →
      s' = { s₁ with diverged := true } → Secures crate depth deferred names (Resolve.returning resolve t) s s' := by
    rintro r s₁ hr hresolve rfl
    refine ⟨hr.gains, fun A hA => ?_⟩
    obtain ⟨x, B, hx, hdefinite, -, hB⟩ := hr.definite A hA
    refine ⟨.returning x, Set.univ, hresolve x hx, .returning hdefinite, Set.subset_univ A, ?_⟩
    exact ⟨hB.depth, hB.held.mono (Set.subset_univ B), Set.subset_univ _, fun _ slot => Set.mem_univ _⟩
  unfold returning at h
  split at h
  next hlast =>
    simp only [bind_ok, setDiverged_ok, emit_ok, pure_ok] at h
    obtain ⟨one, s₁, hone, _, _, rfl, _, _, ⟨rfl, rfl⟩, rfl, rfl⟩ := h
    refine hend (last_secures hv ht hblock hd hone) (fun x hx => ?_) rfl
    simp [Resolve.returning, hlast, hx]
  next hlast =>
    simp only [bind_ok, setDiverged_ok, emit_ok, pure_ok] at h
    obtain ⟨_, _, ⟨rfl, rfl⟩, _, _, rfl, _, _, ⟨rfl, rfl⟩, rfl, rfl⟩ := h
    refine hend (r := pure Resolve.unit) (.leaf (fun _ => .refl _) rfl rfl fun _ _ => .constant) (fun x hx => ?_) rfl
    obtain ⟨rfl, -⟩ := Resolve.pure_some.mp hx
    simp [Resolve.returning, hlast]

theorem dereference_secures (h : dereference visit start t s = .ok (code, s')) :
    Secures crate depth deferred names (Resolve.dereference resolve t) s s' := by
  unfold dereference at h
  split at h
  · simp only [bind_ok, emit_ok, pure_ok] at h
    obtain ⟨one, s₁, hone, _, _, ⟨rfl, rfl⟩, rfl, rfl⟩ := h
    refine (last_secures hv ht hblock hd hone).map (f := .dereference) (fun x hx => ?_) fun x A B hx => .dereference hx
    simp [Resolve.dereference, hx]
  · exact absurd h unsupported_ok

theorem group_secures {use : Use} (h : group visit start t use s = .ok (code, s')) :
    Secures crate depth deferred names (Resolve.group resolve t) s s' := by
  unfold group at h
  split at h
  next hempty =>
    simp only [bind_ok, setLent_ok, emit_ok] at h
    obtain ⟨_, _, rfl, rfl, rfl⟩ := h
    refine .leaf (fun _ => .refl _) rfl (x := Resolve.unit) ?_ fun _ _ => .constant
    simp [Resolve.group, hempty]
  next hempty =>
    refine (last_secures hv ht hblock hd h).map (f := id) (fun x hx => ?_) fun x A B hx => hx
    simp [Resolve.group, hempty, hx]

theorem wrapper_secures {use : Use} (h : wrapper visit start t use s = .ok (code, s')) :
    Secures crate depth deferred names (Resolve.wrapper resolve t) s s' := by
  unfold wrapper at h
  rcases hchildren : t.children with _ | ⟨e, _ | ⟨_, _⟩⟩ <;> simp only [hchildren] at h
  · exact absurd h unsupported_ok
  · refine (hv _ (ht.of_mem hblock (by simp [hchildren])) hd h).map (f := id) (fun x hx => ?_) fun x A B hx => hx
    simp [Resolve.wrapper, hchildren, hx]
  · exact absurd h unsupported_ok

/-! ## Assignments -/

/-- A variable that is assigned has a value afterwards. -/
theorem assignment_secures (hform : Form.ofTag t.tag = .assignment) (h : assignment visit start t s = .ok (code, s')) :
    Secures crate depth deferred names (Resolve.assignment resolve t) s s' := by
  simp only [assignment, bind_ok, lift_ok] at h
  obtain ⟨operands, _, ⟨hops, rfl⟩, h⟩ := h
  have hadmits := ht.operands hblock hops
  split at h
  next target value =>
    simp only [bind_ok, lift_ok] at h
    obtain ⟨kind, _, ⟨hkind, rfl⟩, h⟩ := h
    split at h
    case h_1 | h_2 =>
      simp only [bind_ok, lift_ok, resolve_ok, get_ok, onEnv_ok, emit_ok, pure_ok] at h
      obtain ⟨name, _, ⟨hname, rfl⟩, ⟨pos, v⟩, _, ⟨hfind, rfl⟩, one, s₁, hone, _, _, ⟨rfl, rfl⟩, _, _, rfl, _, _,
        ⟨rfl, rfl⟩, rfl, rfl⟩ := h
      obtain ⟨frame, slot, hpos, hslot, rfl, -⟩ := find?_slot hfind
      have hx := fun depth => hv depth (hadmits value (by simp)) hd hone
      have hd₁ := (hx 0).gains.keeps.distinct hd
      obtain ⟨w, hw, hid, hsame⟩ := (hx 0).gains.keeps.at?_later hslot
      have htarget : t.target? = some v.name := by
        simp [Tree.target?, hform, hops, hkind, hname, Except.toOption]
      have hquiet : Environment.Quiet fun v : Variable => { v with owns := true, lends := s₁.lent } := fun v => by simp
      refine ⟨(hx depth).gains.trans (.update hquiet _ fun u hu huid _ => .inr ?_), fun A hA => ?_⟩
      · rw [(hx 0).gains.keeps.name_of_id hd (Environment.mem_of_at? hslot) hu huid]
        exact ht.targets (Tree.mem_targets htarget)
      · obtain ⟨x, B, hxr, hxd, hsub, hB⟩ := (hx depth).definite A hA
        refine ⟨.seq (.store frame slot x) Resolve.unit, insert (frame, slot) B, ?_, ?_, ?_, ?_⟩
        · rw [Environment.places_update hquiet]
          simp [Resolve.assignment, Resolve.lift_apply hops, Resolve.lift_apply hkind, Resolve.lift_apply hname, hpos,
            hxr]
        · exact .seq (.store hxd (Environment.within_of_at? hslot)) .constant
        · exact hsub.trans (Set.subset_insert ..)
        · have hkeeps := Environment.keeps_update (fun v => (hquiet v).imp_right And.left) s₁.env v.id
          refine ⟨hkeeps.depth ▸ hB.depth, ?_, hB.items.trans (Set.subset_insert ..),
            fun hdiv i => .inr (hB.diverged hdiv i)⟩
          exact hid ▸ hB.held.update hd₁ hw (Set.subset_insert ..) fun _ => Set.mem_insert ..
    case h_3 =>
      simp only [bind_ok, emit_ok, pure_ok] at h
      obtain ⟨one, s₁, hone, two, s₂, htwo, _, _, ⟨rfl, rfl⟩, rfl, rfl⟩ := h
      have htarget := (hadmits target (by simp)).unwrapped
      have hx := hv depth (htarget.last (by rw [Tree.ofTag_of_form hkind]; decide)) hd hone
      have hy := hv depth (hadmits value (by simp)) (hx.gains.keeps.distinct hd) htwo
      refine hx.map₂ hy (f := fun x y => .seq (.discard (.update x y)) Resolve.unit) (fun x y hx hy => ?_)
        fun x y A B C _ hx hy => .seq (.discard (.update hx hy)) .constant
      simp [Resolve.assignment, Resolve.lift_apply hops, Resolve.lift_apply hkind, hx, hy]
    case h_4 => exact absurd h unsupported_ok
  · exact absurd h unsupported_ok

/-- The variable that is assigned has a value before. -/
theorem compoundAssignment_secures (h : compoundAssignment visit start t s = .ok (code, s')) :
    Secures crate depth deferred names (Resolve.compoundAssignment resolve t) s s' := by
  simp only [compoundAssignment, bind_ok, lift_ok] at h
  obtain ⟨op, _, ⟨hop, rfl⟩, operands, _, ⟨hops, rfl⟩, h⟩ := h
  have hadmits := ht.operands hblock hops
  split at h
  next target value =>
    split at h
    · exact absurd h fail_bind_ok
    simp only [bind_ok, lift_ok] at h
    obtain ⟨kind, _, ⟨hkind, rfl⟩, h⟩ := h
    split at h
    case h_1 | h_2 =>
      simp only [bind_ok, lift_ok, resolve_ok, emit_ok, pure_ok] at h
      obtain ⟨name, _, ⟨hname, rfl⟩, ⟨pos, v⟩, _, ⟨hfind, rfl⟩, old, s₁, hold, one, s₂, hone, _, _, ⟨rfl, rfl⟩, rfl,
        rfl⟩ := h
      obtain ⟨frame, slot, hpos, hslot, -, -⟩ := find?_slot hfind
      have hload : Secures crate depth deferred names (Resolve.path name) s s₁ := path_secures hold
      have hx := hv depth (hadmits value (by simp)) (hload.gains.keeps.distinct hd) hone
      refine hload.map₂ hx
        (f := fun x y => .seq (.store frame slot (.binary ⟨op.octets.dropLast⟩ x y)) Resolve.unit)
        (fun x y hx hy => ?_) fun x y A B C _ hx hy => ?_
      · obtain ⟨rfl, hp₁⟩ : .load frame slot = x ∧ s.env.places = s₁.env.places := by
          simpa [Resolve.path, hpos] using hx
        rw [← hp₁] at hy
        simp [Resolve.compoundAssignment, Resolve.lift_apply hop, Resolve.lift_apply hops, Resolve.lift_apply hkind,
          Resolve.lift_apply hname, hpos, hy]
      · refine .weaken (.seq (.store (.binary hx hy) ?_) .constant) (Set.subset_insert (frame, slot) C)
        exact Environment.within_of_at? hslot
    case h_3 =>
      simp only [bind_ok, emit_ok, pure_ok] at h
      obtain ⟨one, s₁, hone, again, s₂, hagain, two, s₃, htwo, _, _, ⟨rfl, rfl⟩, _, _, ⟨rfl, rfl⟩, rfl, rfl⟩ := h
      have htarget := (hadmits target (by simp)).unwrapped.last (by rw [Tree.ofTag_of_form hkind]; decide)
      have hx := hv depth htarget hd hone
      have hd₁ := hx.gains.keeps.distinct hd
      have hy := hv depth htarget hd₁ hagain
      have hz := hv depth (hadmits value (by simp)) (hy.gains.keeps.distinct hd₁) htwo
      have hvalue : Secures crate depth deferred names (do
          let again ← resolve target.unwrapped.last
          return .binary ⟨op.octets.dropLast⟩ (.dereference again) (← resolve value)) s₁ s₃ := by
        refine hy.map₂ hz (f := fun y z => .binary ⟨op.octets.dropLast⟩ (.dereference y) z) (fun y z hy hz => ?_)
          fun y z A B C _ hy hz => .binary (.dereference hy) hz
        simp [hy, hz]
      refine hx.map₂ hvalue (f := fun x y => .seq (.discard (.update x y)) Resolve.unit) (fun x y hx hy => ?_)
        fun x y A B C _ hx hy => .seq (.discard (.update hx hy)) .constant
      obtain ⟨again, _, hagain, hy⟩ := Resolve.bind_some.mp hy
      obtain ⟨z, _, hz, hy⟩ := Resolve.bind_some.mp hy
      obtain ⟨rfl, rfl⟩ := Resolve.pure_some.mp hy
      simp [Resolve.compoundAssignment, Resolve.lift_apply hop, Resolve.lift_apply hops, Resolve.lift_apply hkind, hx,
        hagain, hz]
    case h_4 => exact absurd h unsupported_ok
  · exact absurd h unsupported_ok

end Expressions

/-! ## Statements and blocks -/

section Statements

variable (hv : Securing crate visit resolve) (hd : s.env.Distinct)

include hv hd

/-- A variable has a value after its let statement, or its name is set apart. -/
theorem letStatement_secures (ht : t.AdmitsInBlock deferred names) (hform : Form.ofTag t.tag = .letStatement)
    (h : letStatement visit start t s = .ok (code, s')) :
    Secures crate (s.env.depth - 1) deferred names (Resolve.letStatement resolve t) s s' := by
  simp only [letStatement, bind_ok, lift_ok, get_ok] at h
  obtain ⟨name, _, ⟨hname, rfl⟩, _, _, ⟨rfl, rfl⟩, h⟩ := h
  cases hslot : (s.env.innermost?.getD []).hidden? name 0 with
  | none =>
    simp only [hslot] at h
    exact absurd h fail_ok
  | some found =>
    obtain ⟨slot, v⟩ := found
    obtain ⟨hat, rfl⟩ := Environment.at?_of_hidden? hslot
    simp only [hslot, bind_ok, lift_ok] at h
    obtain ⟨initializer, _, ⟨hinit, rfl⟩, h⟩ := h
    have hfirst := Environment.places_firstUndeclared? hslot
    cases initializer with
    | none =>
      simp only [bind_ok, onEnv_ok, pure_ok] at h
      obtain ⟨_, _, rfl, rfl, rfl⟩ := h
      refine ⟨.innermost hd hat fun v => by simp, fun A hA => ⟨.nothing, A, ?_, .nothing, Set.Subset.refl A, ?_⟩⟩
      · rw [Environment.places_declare hd (.refl _) hslot (fun v => by simp)]
        simp [Resolve.letStatement, Resolve.lift_apply hname, hfirst, Resolve.lift_apply hinit]
      · have hkeeps : s.env.Keeps (s.env.update v.id fun v => { v with owns := false, hidden := false }) :=
          Environment.keeps_update (fun v => by simp) s.env v.id
        refine ⟨hkeeps.depth ▸ hA.depth, hA.held.update hd hat (Set.Subset.refl A) fun hown => ?_, hA.items, hA.diverged⟩
        rcases hown with hown | hfree
        · cases hown
        · exact absurd (ht.defers hform hinit _ hname) hfree
    | some e =>
      simp only [bind_ok, get_ok, onEnv_ok, emit_ok, pure_ok] at h
      obtain ⟨one, s₁, hone, _, _, ⟨rfl, rfl⟩, _, _, rfl, _, _, ⟨rfl, rfl⟩, rfl, rfl⟩ := h
      have he : e.Admits deferred names := by
        have hmem : e ∈ t.children := Tree.mem_of_firstWith hinit
        have hne : Form.ofTag t.tag ≠ .block := by rw [hform]; decide
        exact ⟨Tree.orderly_of_mem ht.orderly hne hmem, List.Subset.trans (Tree.targets_of_mem hmem) ht.targets⟩
      have hx := hv (s.env.depth - 1) he hd hone
      have hd₁ := hx.gains.keeps.distinct hd
      obtain ⟨w, hw, hid, -⟩ := hx.gains.keeps.at?_later hat
      have hdepth := hx.gains.keeps.depth
      have hw' : s₁.env.at? (s₁.env.depth - 1) slot = some w := hdepth ▸ hw
      have hquiet : ∀ v : Variable, ({ v with lends := s₁.lent, owns := true, hidden := false } : Variable).id = v.id ∧
        ({ v with lends := s₁.lent, owns := true, hidden := false } : Variable).name = v.name := fun v => by simp
      have hp₂ := Environment.places_declare (g := fun v => { v with lends := s₁.lent, owns := true, hidden := false })
        hd hx.gains.keeps hslot (fun v => by simp)
      refine ⟨hx.gains.trans (hdepth ▸ hid ▸ .innermost hd₁ hw' hquiet), fun A hA => ?_⟩
      obtain ⟨x, B, hxr, hxd, hsub, hB⟩ := hx.definite A hA
      refine ⟨.store (s.env.depth - 1) slot x, insert (s.env.depth - 1, slot) B, ?_,
        .store hxd (Environment.within_of_at? hat), hsub.trans (Set.subset_insert ..), ?_⟩
      · rw [hp₂]
        simp [Resolve.letStatement, Resolve.lift_apply hname, hfirst, Resolve.lift_apply hinit, hxr]
      · refine ⟨(Environment.keeps_update hquiet s₁.env v.id).depth ▸ hB.depth, ?_,
          hB.items.trans (Set.subset_insert ..), fun hdiv i => .inr (hB.diverged hdiv i)⟩
        exact hid ▸ hB.held.update hd₁ hw (Set.subset_insert ..) fun _ => Set.mem_insert ..

theorem effect_secures (ht : t.Admits deferred names) (h : effect visit start t s = .ok (code, s')) :
    Secures crate depth deferred names (do return .discard (← resolve t)) s s' := by
  simp only [effect, bind_ok, get_ok] at h
  obtain ⟨_, _, ⟨rfl, rfl⟩, one, s₁, hone, _, _, ⟨rfl, rfl⟩, h⟩ := h
  have hx : Secures crate depth deferred names (do return .discard (← resolve t)) s s₁ := by
    refine (hv _ ht hd hone).map (f := .discard) (fun x hx => ?_) fun x A B hx => .discard hx
    simp [hx]
  have hend : ∀ {u : CompileState},
      (do setLent none; return one ++ (← emit [.plain .pop]) : Compile Emissions) u = .ok (code, s') →
      (∀ depth, s₁.env.Gains depth [] u.env) → u.env.places = s₁.env.places → u.diverged = s₁.diverged →
      Secures crate depth deferred names (do return .discard (← resolve t)) s s' := by
    intro u hu hg hplaces hdiverged
    simp only [bind_ok, setLent_ok, emit_ok, pure_ok] at hu
    obtain ⟨_, _, rfl, _, _, ⟨rfl, rfl⟩, rfl, rfl⟩ := hu
    exact hx.andThen hg hplaces hdiverged
  cases hlent : s₁.lent with
  | none =>
    simp only [hlent] at h
    exact hend h (fun _ => .refl _) rfl rfl
  | some id =>
    simp only [hlent] at h
    cases hsaved : s.env.get? id with
    | none =>
      simp only [hsaved] at h
      exact hend h (fun _ => .refl _) rfl rfl
    | some saved =>
      simp only [hsaved, bind_ok (x := onEnv _), onEnv_ok] at h
      obtain ⟨_, _, rfl, h⟩ := h
      exact hend h (fun depth => .update (fun v => by simp) _ fun w _ _ hown => .inl hown)
        (Environment.places_update (fun v => by simp) s₁.env id) rfl

theorem expressionStatement_secures (ht : t.Admits deferred names) (htag : Form.ofTag t.tag = .expressionStatement)
    (h : statement visit start t s = .ok (code, s')) :
    Secures crate depth deferred names (Resolve.statement resolve t) s s' := by
  simp only [statement, bind_ok, lift_ok] at h
  obtain ⟨form, _, ⟨hform, rfl⟩, h⟩ := h
  obtain rfl := (Tree.ofTag_of_form hform).symm.trans htag
  simp only at h
  split at h
  next hlast =>
    refine (effect_secures hv hd (ht.last (by rw [htag]; decide)) h).map (f := id) (fun x hx => ?_) fun x A B hx => hx
    simp only [Resolve.statement, Resolve.bind_apply, Resolve.lift_apply hform, Option.bind_some, hlast, if_pos]
    exact hx
  next hlast =>
    obtain ⟨rfl, rfl⟩ := pure_ok.mp h
    refine .leaf (fun _ => .refl _) rfl (x := .nothing) ?_ fun _ _ => .nothing
    simp [Resolve.statement, Resolve.lift_apply hform, hlast]

theorem statement_secures (ht : t.AdmitsInBlock deferred names) (h : statement visit start t s = .ok (code, s')) :
    Secures crate (s.env.depth - 1) deferred names (Resolve.statement resolve t) s s' := by
  have hstatement := h
  simp only [statement, bind_ok, lift_ok] at h
  obtain ⟨form, _, ⟨hform, rfl⟩, h⟩ := h
  have htag := Tree.ofTag_of_form hform
  split at h
  · refine (letStatement_secures hv hd ht htag h).map (f := id) (fun x hx => ?_) fun x A B hx => hx
    simp [Resolve.statement, Resolve.lift_apply hform, hx]
  · exact expressionStatement_secures hv hd (ht.outside (by rw [htag]; decide)) htag hstatement
  next hlet hexpression =>
    refine (effect_secures hv hd (ht.outside (by rw [htag]; exact hlet)) h).map (f := id) (fun x hx => ?_)
      fun x A B hx => hx
    simp only [Resolve.statement, Resolve.bind_apply, Resolve.lift_apply hform, Option.bind_some]
    exact hx

theorem statements_secures {ts : List Tree} (hts : ∀ e ∈ ts, e.AdmitsInBlock deferred names)
    (h : statements visit start ts s = .ok (code, s')) :
    Secures crate (s.env.depth - 1) deferred names (Resolve.statements resolve ts) s s' := by
  induction ts generalizing start s code with
  | nil =>
    obtain ⟨rfl, rfl⟩ := pure_ok.mp h
    exact .leaf (fun _ => .refl _) rfl (x := .nothing) rfl fun _ _ => .nothing
  | cons t rest ih =>
    simp only [statements, bind_ok, pure_ok] at h
    obtain ⟨one, s₁, hone, two, s₂, htwo, rfl, rfl⟩ := h
    have hx := statement_secures hv hd (hts t (List.mem_cons_self ..)) hone
    have hy := ih (hx.gains.keeps.distinct hd) (fun e he => hts e (List.mem_cons_of_mem _ he)) htwo
    rw [hx.gains.keeps.depth] at hy
    refine hx.map₂ hy (f := .seq) (fun x y hx hy => ?_) fun x y A B C _ hx hy => .seq hx hy
    simp [Resolve.statements, hx, hy]

end Statements

/-- Where no function stands, a block declares the variables of its let statements only. -/
theorem hidden_of_declarations {ts : List Tree} {declared : List (Text × Bool)}
    (hts : ∀ e ∈ ts, Form.ofTag e.tag ≠ .function) (h : declarations ts = .ok declared) : ∀ d ∈ declared, d.2 = true := by
  induction ts generalizing declared with
  | nil =>
    cases h
    simp
  | cons t rest ih =>
    rw [declarations] at h
    cases hform : t.form with
    | error m => simp [hform, bind, Except.bind] at h
    | ok f =>
      have hne := hts t (List.mem_cons_self ..)
      rw [Tree.ofTag_of_form hform] at hne
      have hrest : ∀ {declared}, declarations rest = .ok declared → ∀ d ∈ declared, d.2 = true :=
        ih fun e he => hts e (List.mem_cons_of_mem _ he)
      simp only [hform, bind, Except.bind] at h
      split at h
      · split at h
        · cases h
        next name hname =>
          split at h
          · cases h
          next others hothers =>
            cases h
            exact List.forall_mem_cons.mpr ⟨rfl, hrest hothers⟩
      · exact absurd rfl hne
      · exact hrest h

theorem leaveBlock_env {outer : Environment} {lent : Option Nat} {u : Unit} (h : leaveBlock outer lent s = .ok (u, s')) :
    ∃ kept : Environment, (∀ depth, s.env.Gains depth [] kept) ∧ kept.places = s.env.places ∧
      s'.env = kept.shrink ∧ s'.diverged = s.diverged := by
  simp only [leaveBlock, bind_ok, get_ok, modify_ok] at h
  obtain ⟨_, _, ⟨rfl, rfl⟩, rfl⟩ := h
  have hborrows : ∀ depth, s.env.Gains depth [] (s.env.restoreBorrows outer) := fun _ => .restoreBorrows s.env outer
  split
  · exact ⟨_, hborrows, by simp, rfl, rfl⟩
  · split
    · exact ⟨_, hborrows, by simp, rfl, rfl⟩
    · refine ⟨_, fun depth => (hborrows depth).trans ?_, ?_, rfl, rfl⟩
      · exact .update (fun w => by simp) _ fun w _ _ hown => .inl hown
      · rw [Environment.places_update fun w => by simp]
        simp

theorem admits_of_tail? {e : Tree} (ht : ∀ e ∈ t.children, e.AdmitsInBlock deferred names) (h : tail? t = some e) :
    e.Admits deferred names := by
  refine (ht e (mem_of_tail? h)).outside ?_
  unfold tail? at h
  split at h
  · cases h
  · split at h
    · cases h
    · cases h
    · cases h
    next hlet _ _ =>
      cases h
      exact hlet

/-- A variable outside of a block has a value after it if it had one before, or if the block has given it one. -/
theorem block_secures (hv : Securing crate visit resolve) (ht : t.Admits deferred names)
    (hform : Form.ofTag t.tag = .block) (hd : s.env.Distinct) (h : block visit start t s = .ok (code, s')) :
    Secures crate depth deferred names (Resolve.block resolve t) s s' := by
  simp only [block, bind_ok, lift_ok, get_ok, onEnv_ok] at h
  obtain ⟨declared, _, ⟨hdeclared, rfl⟩, _, _, ⟨rfl, rfl⟩, opening, _, hopening, _, _, hextend, _, s₁, hs₁, items, _,
    ⟨hitems, rfl⟩, one, s₂, hone, others, _, ⟨hothers, rfl⟩, two, s₃, htwo, h⟩ := h
  obtain ⟨rfl, rfl⟩ := emit_ok.mp hopening
  obtain ⟨-, rfl⟩ := extend_ok hextend
  have hchild := fun e he => ht.of_mem_block hform (e := e) he
  have hfunction := fun e he => Tree.form_ne_function_of_orderly (hchild e he).orderly
  obtain rfl : items = [] := List.eq_nil_iff_forall_not_mem.mpr fun e he =>
    hfunction e (Tree.mem_of_select hitems he) (by simpa using Tree.passes_of_select hitems he)
  obtain ⟨rfl, rfl⟩ := pure_ok.mp hone
  have henv₁ : s₁.env = (s.env.extend (declared.map Prod.fst)).onInnermost fun f => f.hide (declared.map Prod.snd) := by
    rw [← hs₁]
  have hdiverged₁ : s₁.diverged = s.diverged := by rw [← hs₁]
  have hopen : (s.env.extend (declared.map Prod.fst)).Gains s.env.depth [] s₁.env := henv₁ ▸ .hide ..
  have hd₁ : s₁.env.Distinct := hopen.keeps.distinct (hd.extend _)
  have hinside : ∀ e ∈ others, e ∈ t.children := fun e he => by
    have hmem := Tree.mem_of_select hothers he
    split at hmem
    · exact (List.dropLast_sublist _).subset hmem
    · exact hmem
  have hdepth : s₁.env.depth - 1 = s.env.depth := by
    rw [hopen.keeps.depth]
    simp [Environment.depth, Environment.extend]
  have hbody := statements_secures hv hd₁ (fun e he => hchild e (hinside e he)) htwo
  rw [hdepth] at hbody
  have hshape : s₁.env.shape = s.env.shape ++ [declared.length] := by
    rw [hopen.keeps.shape, Environment.shape_extend, List.length_map]
  have hend : ∀ {value : Emissions} {lent : Option Nat} {u : CompileState},
      Secures crate s.env.depth (deferred ++ Tree.deferredAmong t.children) names
        ((tail? t).elim (pure Resolve.unit) resolve) s₃ u →
      (do
        let closing ← emit (drops u.env ++ [.plain .exitScope])
        leaveBlock s.env lent
        pure ([⟨.enterScope declared.length, s.env⟩] ++ [] ++ two ++ value ++ closing) :
          Compile Emissions) u = .ok (code, s') →
      Secures crate depth deferred names (Resolve.block resolve t) s s' := by
    intro value lent u hvalue hu
    simp only [bind_ok, emit_ok, pure_ok] at hu
    obtain ⟨_, _, ⟨rfl, rfl⟩, _, s₅, hleave, rfl, rfl⟩ := hu
    obtain ⟨kept, hkept, hplaces, henv, hdiverged⟩ := leaveBlock_env hleave
    have hinner : (s.env.extend (declared.map Prod.fst)).Gains s.env.depth names kept :=
      hopen.of_nil.trans (hbody.gains.trans (hvalue.gains.trans (hkept _).of_nil))
    have hgains : ∀ depth, s.env.Gains depth names s₅.env := fun depth => henv ▸ hinner.shrink
    refine ⟨hgains depth, fun A hA => ?_⟩
    have hA₁ : Stage crate (deferred ++ Tree.deferredAmong t.children) s₁ A := by
      refine ⟨by have := hA.depth; omega, ?_, hA.items, fun hdiv => hA.diverged (hdiverged₁ ▸ hdiv)⟩
      rw [henv₁]
      exact hA.held.hide (hidden_of_declarations hfunction hdeclared) (List.subset_append_left ..)
    obtain ⟨y, B, hyr, hyd, hsubB, hB⟩ := hbody.definite A hA₁
    obtain ⟨z, C, hzr, hzd, hsubC, hC⟩ := hvalue.definite B hB
    rw [hbody.gains.keeps.shape] at hzd
    rw [hshape] at hyd hzd
    refine ⟨.scope declared.length (.seq .nothing (.seq y z)), _, ?_, .scope (.seq .nothing (.seq hyd hzd)),
      fun p hp => ⟨hsubC (hsubB hp), .inr hp⟩, (hgains 0).keeps.depth ▸ hA.depth, ?_,
      fun p hp => ⟨hsubC (hsubB (hA.items hp)), .inr (hA.items hp)⟩, fun hdiv slot => ⟨?_, .inl ?_⟩⟩
    · rw [henv, Environment.places_shrink, hplaces]
      rw [henv₁, Environment.places_hide] at hyr
      simp only [Resolve.block, Resolve.bind_apply, Resolve.lift_apply hdeclared, Resolve.modify_apply,
        Resolve.lift_apply hitems, Resolve.lift_apply hothers, Option.bind_some, Resolve.functions, Resolve.pure_apply,
        hyr]
      cases htail : tail? t with
      | none =>
        rw [htail] at hzr
        obtain ⟨rfl, hp⟩ := Resolve.pure_some.mp hzr
        simp [Resolve.closeFrame, hp]
      | some e =>
        rw [htail] at hzr
        replace hzr : resolve e s₃.env.places = some (z, u.env.places) := hzr
        simp [Resolve.closeFrame, hzr]
    · intro i j w hw hvisible hown
      have hi : i < s.env.depth := (hgains 0).keeps.depth ▸ Environment.lt_of_at? hw
      refine ⟨?_, .inl (by simpa [Environment.shape, Environment.depth] using hi)⟩
      rcases hown with hown | hfree
      · -- the binding owns a value where the block ends
        obtain ⟨hw, -⟩ := Environment.at?_of_shrink (henv ▸ hw)
        obtain ⟨v, hv, -, -⟩ := (hkept 0).keeps.at? hw
        obtain ⟨hhidden, howns⟩ := (hkept (i + 1)).outer i (Nat.lt_succ_self i) j v w hv hw
        exact hC.held i j v hv (hhidden ▸ hvisible) (.inl ((howns hown).resolve_right (by simp)))
      · -- the slot of the binding had a value before the block
        obtain ⟨v, hv, -, hname⟩ := (hgains 0).keeps.at? hw
        obtain ⟨hhidden, -⟩ := (hgains (i + 1)).outer i (Nat.lt_succ_self i) j v w hv hw
        exact hsubC (hsubB (hA.held i j v hv (hhidden ▸ hvisible) (.inr (hname ▸ hfree))))
    · exact hC.diverged (hdiverged ▸ hdiv) slot
    · simpa [Environment.shape, Environment.depth] using hA.depth
  cases htail : tail? t with
  | none =>
    simp only [htail, bind_ok (x := emit [pushUnit]), bind_ok (x := pure _), bind_ok (x := get), emit_ok, pure_ok,
      get_ok] at h
    obtain ⟨_, _, ⟨rfl, rfl⟩, _, _, ⟨rfl, rfl⟩, _, _, ⟨rfl, rfl⟩, h⟩ := h
    refine hend ?_ h
    rw [htail]
    exact .leaf (fun _ => .refl _) rfl rfl fun _ _ => .constant
  | some e =>
    simp only [htail, bind_ok (x := visit _ _ _), bind_ok (x := pure _), bind_ok (x := get), pure_ok,
      get_ok] at h
    obtain ⟨value, s₄, hvalue, _, _, ⟨rfl, rfl⟩, _, _, ⟨rfl, rfl⟩, _, _, ⟨rfl, rfl⟩, h⟩ := h
    refine hend ?_ h
    rw [htail]
    exact hv _ (admits_of_tail? hchild htail) (hbody.gains.keeps.distinct hd₁) hvalue

/-! ## Trees -/

theorem rule_secures (hv : Securing crate visit resolve) (ht : t.Admits deferred names) (hd : s.env.Distinct)
    {use : Use} {f : Form} (hform : Form.ofTag t.tag = f) (h : rule visit start f t use s = .ok (code, s')) :
    Secures crate depth deferred names (Resolve.rule resolve f t) s s' := by
  have hblock : f ≠ .block → Form.ofTag t.tag ≠ .block := fun hne => hform ▸ hne
  cases f with
  | literal => exact literal_secures h
  | path | identifier =>
    simp only [rule, bind_ok, lift_ok] at h
    obtain ⟨name, _, ⟨hname, rfl⟩, h⟩ := h
    have hpath : Secures crate depth deferred names (Resolve.path name) s s' := path_secures h
    refine hpath.map (f := id) (fun x hx => ?_) fun x A B hx => hx
    simp [Resolve.rule, Resolve.lift_apply hname, hx]
  | block => exact block_secures hv ht hform hd h
  | grouped => exact group_secures hv ht (hblock (by decide)) hd h
  | arithmetic | comparison | lazyBoolean => exact binary_secures hv ht (hblock (by decide)) hd h
  | negation => exact unary_secures hv ht (hblock (by decide)) hd h
  | conditional => exact conditional_secures hv ht (hblock (by decide)) hd h
  | loop => exact loop_secures hv ht (hblock (by decide)) hd hform h
  | call => exact call_secures hv ht (hblock (by decide)) hd h
  | returning => exact returning_secures hv ht (hblock (by decide)) hd h
  | assignment => exact assignment_secures hv ht (hblock (by decide)) hd hform h
  | compoundAssignment => exact compoundAssignment_secures hv ht (hblock (by decide)) hd h
  | borrow => exact borrow_secures h
  | dereference => exact dereference_secures hv ht (hblock (by decide)) hd h
  | letStatement => exact absurd hform (Tree.form_ne_letStatement_of_orderly ht.orderly)
  | expressionStatement =>
    simp only [rule, bind_ok, emit_ok, pure_ok] at h
    obtain ⟨one, s₁, hone, _, _, ⟨rfl, rfl⟩, rfl, rfl⟩ := h
    refine (expressionStatement_secures hv hd ht hform hone).map (f := fun x => .seq x Resolve.unit) (fun x hx => ?_)
      fun x A B hx => .seq hx .constant
    simp [Resolve.rule, hx]
  | crate | function | parameters | parameter | ascription | terminal | other =>
    exact wrapper_secures hv ht (hblock (by decide)) hd h

/-- Generating code for an orderly tree assigns before it reads, by induction on the depth. -/
theorem toDepth_secures (height : Nat) : Securing crate (toDepth height) (Resolve.toDepth height) := by
  induction height with
  | zero =>
    intro depth deferred names start t use s code s' ht hd h
    exact absurd h throw_ok
  | succ height ih =>
    intro depth deferred names start t use s code s' ht hd h
    cases t with
    | absent => exact absurd h throw_ok
    | node tag children val type =>
      simp only [toDepth, bind_ok] at h
      obtain ⟨one, s₁, hone, h⟩ := h
      have hrule : Secures crate depth deferred names (Resolve.toDepth (height + 1) (.node tag children val type)) s s₁ :=
        rule_secures ih ht hd rfl hone
      split at h
      · simp only [bind_ok, setLent_ok, pure_ok] at h
        obtain ⟨_, _, rfl, rfl, rfl⟩ := h
        exact hrule.andThen (fun _ => .refl _) rfl rfl
      · obtain ⟨rfl, rfl⟩ := pure_ok.mp h
        exact hrule

end Rules

end Compile

end Tenure
