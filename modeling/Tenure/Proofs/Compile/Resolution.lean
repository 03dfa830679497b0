import Tenure.Proofs.Compile.Steps
import Tenure.Proofs.Text.Characters

/-!
# Code follows resolved terms

Whenever code is generated for a tree, the names of the tree can be resolved and the code is laid out for the resolved
term: `Tree.emissions_layout`. There is one lemma for each rule, over visits of the nodes below that already have the
property, and an induction on the depth closes the recursion.
-/

set_option autoImplicit false

namespace Tenure

namespace Compile

/-- Code was generated that follows what resolving the names gives. -/
def Resolves {n : Nat} (r : Resolve (Term n)) (start : Nat) (s : CompileState) (code : Emissions) (s' : CompileState) :
    Prop :=
  s.env.Keeps s'.env ∧
    ∃ t, r s.env.places = some (t, s'.env.places) ∧ Layout t s.env.shape start code

/-- Generating code for the nodes below follows resolving their names. -/
def Follows (visit : Visit) (resolve : Resolve.Visit) : Prop :=
  ∀ ⦃start t use s code s'⦄, s.env.Distinct → visit start t use s = .ok (code, s') →
    Resolves (resolve t) start s code s'

variable {visit : Visit} {resolve : Resolve.Visit} {start : Nat} {t : Tree} {s s' : CompileState} {code : Emissions}

/-! ## Names -/

theorem resolve_ok {name : Text} {found : Position × Variable} :
    Compile.resolve name s = .ok (found, s') ↔ s.env.find? name = some found ∧ s = s' := by
  unfold Compile.resolve
  simp only [bind_ok, get_ok]
  constructor
  · rintro ⟨_, _, ⟨rfl, rfl⟩, h⟩
    cases hf : s.env.find? name with
    | none =>
      rw [hf] at h
      exact absurd h fail_ok
    | some found' =>
      rw [hf] at h
      obtain ⟨rfl, rfl⟩ := pure_ok.mp h
      exact ⟨rfl, rfl⟩
  · rintro ⟨hf, rfl⟩
    refine ⟨s, s, ⟨rfl, rfl⟩, ?_⟩
    rw [hf]
    exact pure_ok.mpr ⟨rfl, rfl⟩

/-- A name that code generation finds is resolved to a slot that is there. -/
theorem find?_position {env : Environment} {name : Text} {pos : Position} {v : Variable}
    (h : env.find? name = some (pos, v)) :
    ∃ frame slot, Resolve.position name env.places = some ((frame, slot), env.places) ∧
      pos = Environment.positionOf frame slot ∧ Within env.shape frame slot := by
  obtain ⟨frame, slot, hfind, rfl⟩ := Environment.places_find? h
  refine ⟨frame, slot, ?_, rfl, ?_⟩
  · simp [Resolve.position, hfind]
  · rw [Within, Environment.shape_eq_places]
    exact Places.find?_within hfind

/-! ## Expressions -/

theorem known_of_readNumeral {text : Text} {l : Literal}
    (h : Literal.readInt text = .ok l ∨ Literal.readFloat text = .ok l) : l.Known := by
  rcases h with h | h
  · unfold Literal.readInt at h
    simp only at h
    split at h
    · cases h
    · split at h
      next hrange =>
        cases h
        exact .ofInt hrange
      next => cases h
  · unfold Literal.readFloat at h
    split at h
    · cases h
      exact .ofFloat _
    · cases h

theorem known_of_readBool {val : Payload} {text : Text} {l : Literal} (h : Literal.readBool val text = .ok l) :
    l.Known := by
  unfold Literal.readBool at h
  split at h
  · cases h
    exact .ofBool _
  · split at h
    · cases h
      exact .ofBool _
    · cases h

/-- A text that is one character has its code in range. -/
theorem lt_of_singleCode? {t : Text} {code : Nat} (h : Literal.singleCode? t = some code) : code < 0x110000 := by
  unfold Literal.singleCode? at h
  split at h
  next n hpieces =>
    cases h
    unfold Text.pieces at hpieces
    cases hoctets : t.octets with
    | nil => simp [hoctets, Text.piecesFrom] at hpieces
    | cons b rest =>
      rw [hoctets, Text.piecesFrom] at hpieces
      exact (Text.of_firstPiece (Prod.ext (List.cons.inj hpieces).1 rfl)).1
  next =>
    cases h
    decide
  next => cases h

theorem known_ofCode_of_singleCode? {t : Text} {code : Nat} (h : Literal.singleCode? t = some code) :
    (Literal.ofCode code).Known := by
  have hlt := lt_of_singleCode? h
  exact .ofCode (by omega)

theorem known_of_readChar {text : Text} {l : Literal} (h : Literal.readChar text = .ok l) : l.Known := by
  unfold Literal.readChar at h
  simp only [bind, Except.bind] at h
  split at h
  · split at h
    · split at h
      next hcode =>
        cases h
        exact known_ofCode_of_singleCode? hcode
      next => cases h
    · cases h
  · split at h
    next hcode =>
      cases h
      exact known_ofCode_of_singleCode? hcode
    next => cases h

theorem known_of_readString {text : Text} {l : Literal} (h : Literal.readString text = .ok l) : l.Known := by
  unfold Literal.readString at h
  split at h
  · split at h
    · cases h
      exact .ofText _
    · cases h
  · cases h
    exact .ofText _

/-- A literal that can be read has a value. -/
theorem known_of_read {source : Tree} {l : Literal} (h : Literal.read source = .ok l) : l.Known := by
  unfold Literal.read at h
  simp only at h
  split at h
  · exact known_of_readNumeral (.inl h)
  · split at h
    · exact known_of_readNumeral (.inr h)
    · split at h
      · exact known_of_readBool h
      · split at h
        · exact known_of_readChar h
        · split at h
          · exact known_of_readString h
          · cases h

theorem literal_resolves (h : literal t s = .ok (code, s')) : Resolves (Resolve.literal t) start s code s' := by
  simp only [literal, bind_ok, lift_ok] at h
  obtain ⟨source, _, ⟨hsource, rfl⟩, h⟩ := h
  cases hread : Literal.read source with
  | error e =>
    rw [hread] at h
    exact absurd h fail_ok
  | ok l =>
    rw [hread] at h
    obtain ⟨rfl, rfl⟩ := emit_ok.mp h
    refine ⟨.refl _, .constant l, ?_, known_of_read hread, s.env, rfl⟩
    simp [Resolve.literal, Resolve.lift_apply hsource, hread]

theorem path_resolves {name : Text} {use : Use} (h : path name use s = .ok (code, s')) :
    Resolves (Resolve.path name) start s code s' := by
  simp only [path, bind_ok, resolve_ok] at h
  obtain ⟨⟨pos, v⟩, _, ⟨hfind, rfl⟩, h⟩ := h
  obtain ⟨frame, slot, hpos, rfl, hwithin⟩ := find?_position hfind
  have hload : ∀ {u : CompileState}, s.env.Keeps u.env → u.env.places = s.env.places →
      (do setLent v.lends; emit [.load (Environment.positionOf frame slot)] : Compile Emissions) u = .ok (code, s') →
      Resolves (Resolve.path name) start s code s' := by
    intro u hk hplaces hu
    simp only [bind_ok, setLent_ok, emit_ok] at hu
    obtain ⟨_, _, rfl, rfl, rfl⟩ := hu
    refine ⟨hk, .load frame slot, ?_, hwithin, _, hk.shape, rfl⟩
    simp [Resolve.path, hpos, hplaces]
  split at h
  · split at h
    · simp only [bind_ok (x := onEnv _), onEnv_ok] at h
      obtain ⟨_, _, rfl, h⟩ := h
      exact hload (Environment.keeps_update (fun v => by simp) s.env v.id)
        (Environment.places_update (fun v => by simp) s.env v.id) h
    · exact hload (.refl _) rfl h
  · exact absurd h fail_ok

/-- An operation on two operands. -/
theorem binary_resolves (hv : Follows visit resolve) (hd : s.env.Distinct)
    (h : binary visit start t s = .ok (code, s')) : Resolves (Resolve.binary resolve t) start s code s' := by
  simp only [binary, bind_ok, lift_ok] at h
  obtain ⟨operands, _, ⟨hops, rfl⟩, h⟩ := h
  split at h
  · simp only [bind_ok, lift_ok, emit_ok, pure_ok] at h
    obtain ⟨left, s₁, hleft, right, s₂, hright, op, _, ⟨hop, rfl⟩, _, _, ⟨rfl, rfl⟩, rfl, rfl⟩ := h
    obtain ⟨hk₁, x, hx, hlx⟩ := hv hd hleft
    obtain ⟨hk₂, y, hy, hly⟩ := hv (hk₁.distinct hd) hright
    refine ⟨hk₁.trans hk₂, .binary op x y, ?_, left, right, _, rfl, hlx, hk₁.shape ▸ hly⟩
    simp [Resolve.binary, Resolve.lift_apply hops, Resolve.lift_apply hop, hx, hy]
  · exact absurd h unsupported_ok

theorem unary_resolves (hv : Follows visit resolve) (hd : s.env.Distinct)
    (h : unary visit start t s = .ok (code, s')) : Resolves (Resolve.unary resolve t) start s code s' := by
  simp only [unary, bind_ok, lift_ok] at h
  obtain ⟨operands, _, ⟨hops, rfl⟩, h⟩ := h
  split at h
  · simp only [bind_ok, lift_ok, emit_ok, pure_ok] at h
    obtain ⟨one, s₁, hone, op, _, ⟨hop, rfl⟩, _, _, ⟨rfl, rfl⟩, rfl, rfl⟩ := h
    obtain ⟨hk, x, hx, hlx⟩ := hv hd hone
    refine ⟨hk, .unary op x, ?_, one, _, rfl, hlx⟩
    simp [Resolve.unary, Resolve.lift_apply hops, Resolve.lift_apply hop, hx]
  · exact absurd h unsupported_ok

/-- Putting saved ownership and borrows back changes nothing that names see. -/
theorem restored_keeps (env saved : Environment) :
    env.Keeps ((env.restoreOwnership saved).restoreBorrows saved) ∧
      ((env.restoreOwnership saved).restoreBorrows saved).places = env.places :=
  ⟨(Environment.keeps_restoreOwnership env saved).trans (Environment.keeps_restoreBorrows _ saved), by simp⟩

theorem joined_quiet (a b : Bool) (v : Variable) : Environment.Quiet (joined a b v) := fun w => by simp [joined]

theorem conditional_resolves (hv : Follows visit resolve) (hd : s.env.Distinct)
    (h : conditional visit start t s = .ok (code, s')) : Resolves (Resolve.conditional resolve t) start s code s' := by
  simp only [conditional, bind_ok, lift_ok] at h
  obtain ⟨operands, _, ⟨hops, rfl⟩, h⟩ := h
  split at h
  next condition thenBranch rest =>
    simp only [bind_ok, get_ok, setDiverged_ok, modify_ok] at h
    obtain ⟨test, s₁, htest, _, _, ⟨rfl, rfl⟩, _, _, rfl, one, s₂, hone, _, _, ⟨rfl, rfl⟩, _, s₃, hs₃, h⟩ := h
    obtain ⟨hk₁, c, hc, hlc⟩ := hv hd htest
    have hd₁ := hk₁.distinct hd
    obtain ⟨hk₂, x, hx, hlx⟩ := hv (s := { s₁ with diverged := false }) hd₁ hone
    simp only at hk₂ hx hlx
    obtain ⟨hk₃, hp₃⟩ := restored_keeps s₂.env s₁.env
    have hs₃env : s₃.env = (s₂.env.restoreOwnership s₁.env).restoreBorrows s₁.env := by rw [← hs₃]
    rw [← hs₃env] at hk₃ hp₃
    have hk : s.env.Keeps s₃.env := hk₁.trans (hk₂.trans hk₃)
    have hend : ∀ {two : Emissions} {s₄ : CompileState} {y : Term 1} {env env' : Environment} {a b : Bool},
        s₃.env.Keeps s₄.env →
        Resolve.conditional resolve t s.env.places = some (.conditional c x y, s₄.env.places) →
        Layout y s₃.env.shape (start + test.length + 1 + one.length + 1) two →
        s'.env = s₄.env.combine s₂.env (joined a b) →
        code = test ++ [⟨.jumpUnless (start + test.length + 1 + one.length + 1 : Nat), env⟩] ++ one ++
          [⟨.jump (start + test.length + 1 + one.length + 1 + two.length : Nat), env'⟩] ++ two →
        Resolves (Resolve.conditional resolve t) start s code s' := by
      intro two s₄ y env env' a b hk₄ hy hly hs' hcode
      have hk₅ := Environment.keeps_combine (joined_quiet a b) s₄.env s₂.env
      have hp₅ := Environment.places_combine (joined_quiet a b) s₄.env s₂.env
      rw [← hs'] at hk₅ hp₅
      exact ⟨hk.trans (hk₄.trans hk₅), .conditional c x y, by rw [hp₅, hy], test, one, two, env, env', hcode, hlc,
        hk₁.shape ▸ hlx, hk.shape ▸ hly⟩
    cases rest with
    | nil =>
      simp only [bind_ok, get_ok, modify_ok, emit_ok, pure_ok] at h
      obtain ⟨_, _, ⟨rfl, rfl⟩, _, _, ⟨rfl, rfl⟩, _, _, rfl, _, _, ⟨rfl, rfl⟩, _, _, ⟨rfl, rfl⟩, rfl, rfl⟩ := h
      refine hend (y := Resolve.unit) (.refl _) ?_ ⟨.unit, _, rfl⟩ rfl rfl
      simp [Resolve.conditional, Resolve.lift_apply hops, hc, hx, hp₃]
    | cons e tail =>
      simp only [bind_ok, get_ok, modify_ok, emit_ok, pure_ok] at h
      obtain ⟨two, s₄, htwo, _, _, ⟨rfl, rfl⟩, _, _, rfl, _, _, ⟨rfl, rfl⟩, _, _, ⟨rfl, rfl⟩, rfl, rfl⟩ := h
      obtain ⟨hk₄, y, hy, hly⟩ := hv (hk.distinct hd) htwo
      refine hend hk₄ ?_ hly rfl rfl
      rw [hp₃] at hy
      simp [Resolve.conditional, Resolve.lift_apply hops, hc, hx, hy]
  · exact absurd h unsupported_ok

theorem loop_resolves (hv : Follows visit resolve) (hd : s.env.Distinct)
    (h : loop visit start t s = .ok (code, s')) : Resolves (Resolve.loop resolve t) start s code s' := by
  simp only [loop, bind_ok, lift_ok] at h
  obtain ⟨operands, _, ⟨hops, rfl⟩, h⟩ := h
  split at h
  next condition body =>
    simp only [bind_ok, get_ok, setDiverged_ok, onEnv_ok] at h
    obtain ⟨_, _, ⟨rfl, rfl⟩, _, _, rfl, test, s₁, htest, one, s₂, hone, _, s₃, hs₃, now, _, ⟨hnow, rfl⟩, h⟩ := h
    obtain ⟨hk₁, c, hc, hlc⟩ := hv (s := { s with diverged := false }) hd htest
    obtain ⟨hk₂, x, hx, hlx⟩ := hv (hk₁.distinct hd) hone
    simp only at hk₁ hc hlc
    have hk₃ := Environment.keeps_restoreBorrows s₂.env s.env
    have hend : (do
        setDiverged s.diverged
        let a ← emit [.jumpUnless (start + test.length + one.length + 3 : Nat)]
        let b ← emit [.plain .pop, .jump (start : Nat), pushUnit]
        pure (test ++ a ++ one ++ b) : Compile Emissions) s₃ = .ok (code, s') →
        Resolves (Resolve.loop resolve t) start s code s' := by
      intro h
      simp only [bind_ok, setDiverged_ok, emit_ok, pure_ok] at h
      obtain ⟨_, _, rfl, _, _, ⟨rfl, rfl⟩, _, _, ⟨rfl, rfl⟩, rfl, rfl⟩ := h
      obtain rfl := hs₃
      refine ⟨hk₁.trans (hk₂.trans hk₃), .loop c x, ?_, test, one, _, _, _, _, rfl, hlc, hk₁.shape ▸ hlx⟩
      simp [Resolve.loop, Resolve.lift_apply hops, hc, hx]
    split at h
    · cases hmoved : movedSince s.env now.env with
      | nil =>
        simp only [hmoved] at h
        exact hend h
      | cons v others =>
        simp only [hmoved] at h
        exact absurd h fail_bind_ok
    · exact hend h
  · exact absurd h unsupported_ok

theorem arguments_resolves (hv : Follows visit resolve) {ts : List Tree} (hd : s.env.Distinct)
    (h : arguments visit start ts s = .ok (code, s')) : Resolves (Resolve.arguments resolve ts) start s code s' := by
  induction ts generalizing start s code with
  | nil =>
    obtain ⟨rfl, rfl⟩ := pure_ok.mp h
    exact ⟨.refl _, .nothing, rfl, rfl⟩
  | cons t rest ih =>
    simp only [arguments, bind_ok, pure_ok] at h
    obtain ⟨one, s₁, hone, two, s₂, htwo, rfl, rfl⟩ := h
    obtain ⟨hk₁, x, hx, hlx⟩ := hv hd hone
    obtain ⟨hk₂, y, hy, hly⟩ := ih (hk₁.distinct hd) htwo
    refine ⟨hk₁.trans hk₂, .also x y, ?_, one, two, rfl, hlx, hk₁.shape ▸ hly⟩
    simp [Resolve.arguments, hx, hy]

theorem call_resolves (hv : Follows visit resolve) (hd : s.env.Distinct)
    (h : call visit start t s = .ok (code, s')) : Resolves (Resolve.call resolve t) start s code s' := by
  simp only [call, bind_ok, lift_ok] at h
  obtain ⟨operands, _, ⟨hops, rfl⟩, h⟩ := h
  split at h
  · exact absurd h unsupported_ok
  · simp only [bind_ok, emit_ok, pure_ok] at h
    obtain ⟨one, s₁, hone, two, s₂, htwo, _, _, ⟨rfl, rfl⟩, rfl, rfl⟩ := h
    obtain ⟨hk₁, x, hx, hlx⟩ := hv hd hone
    obtain ⟨hk₂, y, hy, hly⟩ := arguments_resolves hv (hk₁.distinct hd) htwo
    refine ⟨hk₁.trans hk₂, .call x y, ?_, one, two, _, rfl, hlx, hk₁.shape ▸ hly⟩
    simp [Resolve.call, Resolve.lift_apply hops, hx, hy]

/-- The code that pushes the unit value. -/
theorem unit_layout (shape : List Nat) (start : Nat) (env : Environment) :
    Layout Resolve.unit shape start [⟨pushUnit, env⟩] :=
  ⟨.unit, env, rfl⟩

theorem returning_resolves (hv : Follows visit resolve) (hd : s.env.Distinct)
    (h : returning visit start t s = .ok (code, s')) : Resolves (Resolve.returning resolve t) start s code s' := by
  unfold returning at h
  split at h
  next hlast =>
    simp only [bind_ok, setDiverged_ok, emit_ok, pure_ok] at h
    obtain ⟨one, s₁, hone, _, _, rfl, _, _, ⟨rfl, rfl⟩, rfl, rfl⟩ := h
    obtain ⟨hk, x, hx, hlx⟩ := hv hd hone
    refine ⟨hk, .returning x, ?_, one, _, rfl, hlx⟩
    simp [Resolve.returning, hlast, hx]
  next hlast =>
    simp only [bind_ok, setDiverged_ok, emit_ok, pure_ok] at h
    obtain ⟨_, _, ⟨rfl, rfl⟩, _, _, rfl, _, _, ⟨rfl, rfl⟩, rfl, rfl⟩ := h
    refine ⟨.refl _, .returning Resolve.unit, ?_, _, _, rfl, unit_layout _ _ _⟩
    simp [Resolve.returning, hlast]

theorem dereference_resolves (hv : Follows visit resolve) (hd : s.env.Distinct)
    (h : dereference visit start t s = .ok (code, s')) : Resolves (Resolve.dereference resolve t) start s code s' := by
  unfold dereference at h
  split at h
  · simp only [bind_ok, emit_ok, pure_ok] at h
    obtain ⟨one, s₁, hone, _, _, ⟨rfl, rfl⟩, rfl, rfl⟩ := h
    obtain ⟨hk, x, hx, hlx⟩ := hv hd hone
    refine ⟨hk, .dereference x, ?_, one, _, rfl, hlx⟩
    simp [Resolve.dereference, hx]
  · exact absurd h unsupported_ok

theorem group_resolves (hv : Follows visit resolve) {use : Use} (hd : s.env.Distinct)
    (h : group visit start t use s = .ok (code, s')) : Resolves (Resolve.group resolve t) start s code s' := by
  unfold group at h
  split at h
  next hempty =>
    simp only [bind_ok, setLent_ok, emit_ok] at h
    obtain ⟨_, _, rfl, rfl, rfl⟩ := h
    refine ⟨.refl _, Resolve.unit, ?_, unit_layout _ _ _⟩
    simp [Resolve.group, hempty]
  next hempty =>
    obtain ⟨hk, x, hx, hlx⟩ := hv hd h
    exact ⟨hk, x, by simp [Resolve.group, hempty, hx], hlx⟩

theorem wrapper_resolves (hv : Follows visit resolve) {use : Use} (hd : s.env.Distinct)
    (h : wrapper visit start t use s = .ok (code, s')) : Resolves (Resolve.wrapper resolve t) start s code s' := by
  unfold wrapper at h
  rcases hchildren : t.children with _ | ⟨e, _ | ⟨_, _⟩⟩ <;> simp only [hchildren] at h
  · exact absurd h unsupported_ok
  · obtain ⟨hk, x, hx, hlx⟩ := hv hd h
    exact ⟨hk, x, by simp [Resolve.wrapper, hchildren, hx], hlx⟩
  · exact absurd h unsupported_ok

/-! ## Assignments and borrows -/

theorem seq_unit_layout {first : Term 0} {shape : List Nat} (env : Environment) (h : Layout first shape start code) :
    Layout (.seq first Resolve.unit) shape start (code ++ [⟨pushUnit, env⟩]) :=
  ⟨code, _, rfl, h, unit_layout _ _ _⟩

theorem discard_layout {t : Term 1} {shape : List Nat} (env : Environment) (h : Layout t shape start code) :
    Layout (.discard t) shape start (code ++ [⟨.plain .pop, env⟩]) :=
  ⟨code, _, rfl, h⟩

theorem store_layout {t : Term 1} {shape : List Nat} {env : Environment} {frame slot : Nat}
    (hw : Within shape frame slot) (he : env.shape = shape) (h : Layout t shape start code) :
    Layout (.store frame slot t) shape start
      (code ++ [⟨.assign (Environment.positionOf frame slot), env⟩, ⟨.plain .pop, env⟩]) :=
  ⟨hw, code, env, env, rfl, he, h⟩

theorem assignment_resolves (hv : Follows visit resolve) (hd : s.env.Distinct)
    (h : assignment visit start t s = .ok (code, s')) : Resolves (Resolve.assignment resolve t) start s code s' := by
  simp only [assignment, bind_ok, lift_ok] at h
  obtain ⟨operands, _, ⟨hops, rfl⟩, h⟩ := h
  split at h
  next target value =>
    simp only [bind_ok, lift_ok] at h
    obtain ⟨form, _, ⟨hform, rfl⟩, h⟩ := h
    split at h
    case h_1 | h_2 =>
      simp only [bind_ok, lift_ok, resolve_ok, get_ok, onEnv_ok, emit_ok, pure_ok] at h
      obtain ⟨name, _, ⟨hname, rfl⟩, ⟨pos, v⟩, _, ⟨hfind, rfl⟩, one, s₁, hone, _, _, ⟨rfl, rfl⟩, _, s₂, hs₂, _, _,
        ⟨rfl, rfl⟩, rfl, rfl⟩ := h
      obtain ⟨frame, slot, hpos, rfl, hwithin⟩ := find?_position hfind
      obtain ⟨hk₁, x, hx, hlx⟩ := hv hd hone
      have hk₂ : s₁.env.Keeps s₂.env := hs₂ ▸ Environment.keeps_update (fun v => by simp) s₁.env v.id
      have hp₂ : s₂.env.places = s₁.env.places :=
        hs₂ ▸ Environment.places_update (fun v => by simp) s₁.env v.id
      have hk := hk₁.trans hk₂
      have hl := seq_unit_layout s₂.env (store_layout hwithin hk.shape hlx)
      refine ⟨hk, .seq (.store frame slot x) Resolve.unit, ?_, by simpa using hl⟩
      simp [Resolve.assignment, Resolve.lift_apply hops, Resolve.lift_apply hform, Resolve.lift_apply hname, hpos, hx,
        hp₂]
    case h_3 =>
      simp only [bind_ok, emit_ok, pure_ok] at h
      obtain ⟨one, s₁, hone, two, s₂, htwo, _, _, ⟨rfl, rfl⟩, rfl, rfl⟩ := h
      obtain ⟨hk₁, x, hx, hlx⟩ := hv hd hone
      obtain ⟨hk₂, y, hy, hly⟩ := hv (hk₁.distinct hd) htwo
      have hlvalue : Layout (.update x y) s.env.shape start (one ++ two ++ [⟨.plain .updateReference, s₂.env⟩]) :=
        ⟨one, two, _, rfl, hlx, hk₁.shape ▸ hly⟩
      have hl := seq_unit_layout s₂.env (discard_layout s₂.env hlvalue)
      refine ⟨hk₁.trans hk₂, .seq (.discard (.update x y)) Resolve.unit, ?_, by simpa using hl⟩
      simp [Resolve.assignment, Resolve.lift_apply hops, Resolve.lift_apply hform, hx, hy]
    case h_4 => exact absurd h unsupported_ok
  · exact absurd h unsupported_ok

theorem compoundAssignment_resolves (hv : Follows visit resolve) (hd : s.env.Distinct)
    (h : compoundAssignment visit start t s = .ok (code, s')) :
    Resolves (Resolve.compoundAssignment resolve t) start s code s' := by
  simp only [compoundAssignment, bind_ok, lift_ok] at h
  obtain ⟨op, _, ⟨hop, rfl⟩, operands, _, ⟨hops, rfl⟩, h⟩ := h
  split at h
  next target value =>
    split at h
    · exact absurd h fail_bind_ok
    simp only [bind_ok, lift_ok] at h
    obtain ⟨form, _, ⟨hform, rfl⟩, h⟩ := h
    split at h
    case h_1 | h_2 =>
      simp only [bind_ok, lift_ok, resolve_ok, emit_ok, pure_ok] at h
      obtain ⟨name, _, ⟨hname, rfl⟩, ⟨pos, v⟩, _, ⟨hfind, rfl⟩, old, s₁, hold, one, s₂, hone, _, _, ⟨rfl, rfl⟩, rfl,
        rfl⟩ := h
      obtain ⟨frame, slot, hpos, rfl, hwithin⟩ := find?_position hfind
      obtain ⟨hk₁, y, hy, hly⟩ : Resolves (Resolve.path name) start s old s₁ := path_resolves hold
      obtain ⟨hk₂, x, hx, hlx⟩ := hv (hk₁.distinct hd) hone
      -- the variable that is read is the one that is assigned
      have hplace : .load frame slot = y ∧ s.env.places = s₁.env.places := by
        simpa [Resolve.path, hpos] using hy
      obtain ⟨rfl, hp₁⟩ := hplace
      have hk := hk₁.trans hk₂
      have hlvalue : Layout (.binary ⟨op.octets.dropLast⟩ (.load frame slot) x) s.env.shape start
          (old ++ one ++ [⟨.binary ⟨op.octets.dropLast⟩, s₂.env⟩]) :=
        ⟨old, one, _, rfl, hly, hk₁.shape ▸ hlx⟩
      have hl := seq_unit_layout s₂.env (store_layout hwithin hk.shape hlvalue)
      refine ⟨hk, _, ?_, by simpa using hl⟩
      rw [← hp₁] at hx
      simp [Resolve.compoundAssignment, Resolve.lift_apply hop, Resolve.lift_apply hops, Resolve.lift_apply hform,
        Resolve.lift_apply hname, hpos, hx]
    case h_3 =>
      simp only [bind_ok, emit_ok, pure_ok] at h
      obtain ⟨one, s₁, hone, again, s₂, hagain, two, s₃, htwo, _, _, ⟨rfl, rfl⟩, _, _, ⟨rfl, rfl⟩, rfl, rfl⟩ := h
      obtain ⟨hk₁, x, hx, hlx⟩ := hv hd hone
      obtain ⟨hk₂, y, hy, hly⟩ := hv (hk₁.distinct hd) hagain
      have hk := hk₁.trans hk₂
      obtain ⟨hk₃, z, hz, hlz⟩ := hv (hk.distinct hd) htwo
      have hlvalue : Layout (.binary ⟨op.octets.dropLast⟩ (.dereference y) z) s.env.shape (start + one.length)
          (again ++ [⟨.plain .dereference, s₃.env⟩] ++ two ++ [⟨.binary ⟨op.octets.dropLast⟩, s₃.env⟩]) := by
        refine ⟨again ++ [⟨.plain .dereference, s₃.env⟩], two, _, rfl, ⟨again, _, rfl, hk₁.shape ▸ hly⟩, ?_⟩
        rw [hk.shape] at hlz
        simpa [Nat.add_assoc] using hlz
      have hlupdate : Layout (.update x (.binary ⟨op.octets.dropLast⟩ (.dereference y) z)) s.env.shape start _ :=
        ⟨one, _, s₃.env, rfl, hlx, hlvalue⟩
      have hl := seq_unit_layout s₃.env (discard_layout s₃.env hlupdate)
      refine ⟨hk.trans hk₃, _, ?_, by simpa using hl⟩
      simp [Resolve.compoundAssignment, Resolve.lift_apply hop, Resolve.lift_apply hops, Resolve.lift_apply hform, hx,
        hy, hz]
    case h_4 => exact absurd h unsupported_ok
  · exact absurd h unsupported_ok

theorem borrow_resolves (h : borrow t s = .ok (code, s')) : Resolves (Resolve.borrow t) start s code s' := by
  unfold borrow at h
  simp only at h
  generalize hform : Form.ofTag t.last.unwrapped.tag = form at h
  split at h
  case h_1 | h_2 =>
    simp only [bind_ok, lift_ok, resolve_ok] at h
    obtain ⟨name, _, ⟨hname, rfl⟩, ⟨pos, v⟩, _, ⟨hfind, rfl⟩, h⟩ := h
    obtain ⟨frame, slot, hpos, rfl, hwithin⟩ := find?_position hfind
    split at h
    · exact absurd h fail_bind_ok
    simp only [bind_ok, lift_ok] at h
    obtain ⟨mutable, _, ⟨hmutable, rfl⟩, h⟩ := h
    have hend : ∀ {u : CompileState}, s.env.Keeps u.env → u.env.places = s.env.places →
        (do setLent (some v.id); emit [.reference (Environment.positionOf frame slot) mutable] :
          Compile Emissions) u = .ok (code, s') →
        Resolves (Resolve.borrow t) start s code s' := by
      intro u hk hplaces hu
      simp only [bind_ok, setLent_ok, emit_ok] at hu
      obtain ⟨_, _, rfl, rfl, rfl⟩ := hu
      refine ⟨hk, .borrow frame slot mutable, ?_, hwithin, _, hk.shape, rfl⟩
      simp [Resolve.borrow, hform, Resolve.lift_apply hname, Resolve.lift_apply hmutable, hpos, hplaces]
    split at h
    · split at h
      · exact absurd h fail_bind_ok
      · simp only [bind_ok (x := onEnv _), onEnv_ok] at h
        obtain ⟨_, _, rfl, h⟩ := h
        exact hend (Environment.keeps_update (fun v => by simp) s.env v.id)
          (Environment.places_update (fun v => by simp) s.env v.id) h
    · split at h
      · exact absurd h fail_bind_ok
      · simp only [bind_ok (x := onEnv _), onEnv_ok] at h
        obtain ⟨_, _, rfl, h⟩ := h
        exact hend (Environment.keeps_update (fun v => by simp) s.env v.id)
          (Environment.places_update (fun v => by simp) s.env v.id) h
  · exact absurd h unsupported_ok

/-! ## Items -/

theorem extend_ok {names : List Text} {owner : FrameOwner} {u : Unit} (h : extend names owner s = .ok (u, s')) :
    Opens s.env.shape names.length ∧ { s with env := s.env.extend names } = s' := by
  unfold extend at h
  split at h
  · exact absurd h unsupported_ok
  next hslots =>
    simp only [bind_ok, get_ok] at h
    obtain ⟨_, _, ⟨rfl, rfl⟩, h⟩ := h
    split at h
    · exact absurd h unsupported_ok
    next hdepth =>
      refine ⟨⟨by omega, ?_⟩, onEnv_ok.mp h⟩
      simpa [Environment.shape, Environment.depth] using hdepth

theorem mem_dropSlots {frame : Nat} {f : Frame} {start : Nat} {i : Instr} (h : i ∈ dropSlots frame f start) :
    ∃ slot, slot < start + f.length ∧ i = .drop (Environment.positionOf frame slot) := by
  induction f generalizing start with
  | nil => simp [dropSlots] at h
  | cons v rest ih =>
    rw [dropSlots] at h
    have hrest : i ∈ dropSlots frame rest (start + 1) →
        ∃ slot, slot < start + (v :: rest).length ∧ i = .drop (Environment.positionOf frame slot) := by
      intro h
      obtain ⟨slot, hlt, rfl⟩ := ih h
      exact ⟨slot, by simp only [List.length_cons]; omega, rfl⟩
    split at h
    · rcases List.mem_cons.mp h with rfl | h
      · exact ⟨start, by simp, rfl⟩
      · exact hrest h
    · exact hrest h

/-- The code at the end of a scope drops slots of the innermost frame only. -/
theorem drops_layout (env : Environment) : Drops env.shape ((drops env).map fun i => ⟨i, env⟩) := by
  intro e he
  obtain ⟨i, hi, rfl⟩ := List.mem_map.mp he
  refine ⟨rfl, ?_⟩
  unfold drops at hi
  cases hf : env.innermost? with
  | none => simp [hf] at hi
  | some f =>
    simp only [hf] at hi
    obtain ⟨slot, hlt, rfl⟩ := mem_dropSlots hi
    have hdepth : env.shape.length = env.depth := by simp [Environment.shape, Environment.depth]
    refine ⟨slot, ⟨f.length, ?_, by simpa using hlt⟩, by rw [hdepth]⟩
    rw [hdepth, Environment.shape, List.getElem?_map, Environment.depth, ← List.getLast?_eq_getElem?]
    simp only [Environment.innermost?] at hf
    simp [hf]

theorem function_resolves (hv : Follows visit resolve) (hd : s.env.Distinct)
    (h : function visit start t s = .ok (code, s')) : Resolves (Resolve.function resolve t) start s code s' := by
  simp only [function, bind_ok, lift_ok] at h
  obtain ⟨name, _, ⟨hname, rfl⟩, body, _, ⟨hbody, rfl⟩, h⟩ := h
  cases body with
  | none => exact absurd h unsupported_ok
  | some body =>
    simp only [bind_ok, lift_ok, get_ok, setDiverged_ok, emit_ok, modify_ok] at h
    obtain ⟨trees, _, ⟨htrees, rfl⟩, parameters, _, ⟨hparameters, rfl⟩, _, _, ⟨rfl, rfl⟩, _, _, hextend, _, _, rfl,
      value, s₂, hvalue, _, _, ⟨rfl, rfl⟩, _, _, ⟨rfl, rfl⟩, _, s₃, hs₃, _, _, ⟨rfl, rfl⟩, h⟩ := h
    obtain ⟨hopens, rfl⟩ := extend_ok hextend
    obtain ⟨hk₂, x, hx, hlx⟩ := hv (s := { s with env := s.env.extend parameters, diverged := false })
      (hd.extend parameters) hvalue
    simp only [Environment.places_extend, Environment.shape_extend] at hk₂ hx hlx
    have hs₃env : s₃.env = (s₂.env.shrink.restoreOwnership s.env).restoreBorrows s.env := by rw [← hs₃]
    obtain ⟨hk₃, hp₃⟩ := restored_keeps s₂.env.shrink s.env
    rw [← hs₃env] at hk₃ hp₃
    have hk := hk₂.shrink.trans hk₃
    cases hfind : s₃.env.find? name with
    | none =>
      simp only [hfind] at h
      exact absurd h fail_ok
    | some found =>
      obtain ⟨pos, v⟩ := found
      simp only [hfind, bind_ok, emit_ok, pure_ok] at h
      obtain ⟨_, _, ⟨rfl, rfl⟩, _, _, ⟨rfl, rfl⟩, rfl, rfl⟩ := h
      obtain ⟨frame, slot, hpos, rfl, hwithin⟩ := find?_position hfind
      have hdrops := drops_layout s₂.env
      rw [hk₂.shape, Environment.shape_extend] at hdrops
      have hclosure : Layout (.closure parameters.length x) s.env.shape start _ :=
        ⟨hopens, value, _, s₃.env, s₃.env, s₂.env, rfl, hlx, hdrops⟩
      rw [hk.shape] at hwithin
      have hl := store_layout hwithin hk.shape hclosure
      refine ⟨hk, .store frame slot (.closure parameters.length x), ?_, by simpa using hl⟩
      rw [hp₃, Environment.places_shrink] at hpos ⊢
      simp [Resolve.function, Resolve.openFrame, Resolve.closeFrame, Resolve.lift_apply hname,
        Resolve.lift_apply hbody, Resolve.lift_apply htrees, Resolve.lift_apply hparameters, hx, hpos]

theorem functions_resolves (hv : Follows visit resolve) {ts : List Tree} (hd : s.env.Distinct)
    (h : functions visit start ts s = .ok (code, s')) : Resolves (Resolve.functions resolve ts) start s code s' := by
  induction ts generalizing start s code with
  | nil =>
    obtain ⟨rfl, rfl⟩ := pure_ok.mp h
    exact ⟨.refl _, .nothing, rfl, rfl⟩
  | cons t rest ih =>
    simp only [functions, bind_ok, pure_ok] at h
    obtain ⟨one, s₁, hone, two, s₂, htwo, rfl, rfl⟩ := h
    obtain ⟨hk₁, x, hx, hlx⟩ := function_resolves hv hd hone
    obtain ⟨hk₂, y, hy, hly⟩ := ih (hk₁.distinct hd) htwo
    refine ⟨hk₁.trans hk₂, .seq x y, ?_, one, two, rfl, hlx, hk₁.shape ▸ hly⟩
    simp [Resolve.functions, hx, hy]

/-! ## Statements and blocks -/

theorem letStatement_resolves (hv : Follows visit resolve) (hd : s.env.Distinct)
    (h : letStatement visit start t s = .ok (code, s')) : Resolves (Resolve.letStatement resolve t) start s code s' := by
  simp only [letStatement, bind_ok, lift_ok, get_ok] at h
  obtain ⟨name, _, ⟨hname, rfl⟩, _, _, ⟨rfl, rfl⟩, h⟩ := h
  cases hslot : (s.env.innermost?.getD []).hidden? name 0 with
  | none =>
    simp only [hslot] at h
    exact absurd h fail_ok
  | some found =>
    obtain ⟨slot, v⟩ := found
    simp only [hslot, bind_ok, lift_ok] at h
    obtain ⟨initializer, _, ⟨hinit, rfl⟩, h⟩ := h
    have hfirst := Environment.places_firstUndeclared? hslot
    cases initializer with
    | none =>
      simp only [bind_ok, onEnv_ok, pure_ok] at h
      obtain ⟨_, _, rfl, rfl, rfl⟩ := h
      refine ⟨Environment.keeps_update (fun v => by simp) s.env v.id, .nothing, ?_, rfl⟩
      rw [Environment.places_declare hd (.refl _) hslot (fun v => by simp)]
      simp [Resolve.letStatement, Resolve.lift_apply hname, hfirst, Resolve.lift_apply hinit]
    | some e =>
      simp only [bind_ok, get_ok, onEnv_ok, emit_ok, pure_ok] at h
      obtain ⟨one, s₁, hone, _, _, ⟨rfl, rfl⟩, _, s₂, hs₂, _, _, ⟨rfl, rfl⟩, rfl, rfl⟩ := h
      obtain ⟨hk₁, x, hx, hlx⟩ := hv hd hone
      have hk₂ : s₁.env.Keeps s₂.env := hs₂ ▸ Environment.keeps_update (fun v => by simp) s₁.env v.id
      have hp₂ : s₂.env.places = s₁.env.places.declare slot :=
        hs₂ ▸ Environment.places_declare hd hk₁ hslot (fun v => by simp)
      have hwithin := Places.firstUndeclared?_within hfirst
      rw [← Environment.shape_eq_places, Environment.length_places] at hwithin
      refine ⟨hk₁.trans hk₂, .store (s.env.depth - 1) slot x, ?_,
        store_layout hwithin (hk₁.trans hk₂).shape hlx⟩
      simp [Resolve.letStatement, Resolve.lift_apply hname, hfirst, Resolve.lift_apply hinit, hx, hp₂]

theorem effect_resolves (hv : Follows visit resolve) (hd : s.env.Distinct)
    (h : effect visit start t s = .ok (code, s')) :
    Resolves (do return .discard (← resolve t)) start s code s' := by
  simp only [effect, bind_ok, get_ok] at h
  obtain ⟨_, _, ⟨rfl, rfl⟩, one, s₁, hone, _, _, ⟨rfl, rfl⟩, h⟩ := h
  obtain ⟨hk₁, x, hx, hlx⟩ := hv hd hone
  have hend : ∀ {u : CompileState}, s₁.env.Keeps u.env → u.env.places = s₁.env.places →
      (do setLent none; return one ++ (← emit [.plain .pop]) : Compile Emissions) u = .ok (code, s') →
      Resolves (do return .discard (← resolve t)) start s code s' := by
    intro u hk hplaces hu
    simp only [bind_ok, setLent_ok, emit_ok, pure_ok] at hu
    obtain ⟨_, _, rfl, _, _, ⟨rfl, rfl⟩, rfl, rfl⟩ := hu
    refine ⟨hk₁.trans hk, .discard x, ?_, discard_layout _ hlx⟩
    simp [hx, hplaces]
  cases hlent : s₁.lent with
  | none =>
    simp only [hlent] at h
    exact hend (.refl _) rfl h
  | some id =>
    simp only [hlent] at h
    cases hsaved : s.env.get? id with
    | none =>
      simp only [hsaved] at h
      exact hend (.refl _) rfl h
    | some saved =>
      simp only [hsaved, bind_ok (x := onEnv _), onEnv_ok] at h
      obtain ⟨_, _, rfl, h⟩ := h
      exact hend (Environment.keeps_update (fun v => by simp) s₁.env id)
        (Environment.places_update (fun v => by simp) s₁.env id) h

theorem statement_resolves (hv : Follows visit resolve) (hd : s.env.Distinct)
    (h : statement visit start t s = .ok (code, s')) : Resolves (Resolve.statement resolve t) start s code s' := by
  simp only [statement, bind_ok, lift_ok] at h
  obtain ⟨form, _, ⟨hform, rfl⟩, h⟩ := h
  have hrule : ∀ {r : Resolve (Term 0)}, Resolves r start s code s' →
      Resolve.statement resolve t s.env.places = r s.env.places → Resolves (Resolve.statement resolve t) start s code s' := by
    rintro r ⟨hk, x, hx, hlx⟩ hr
    exact ⟨hk, x, hr.trans hx, hlx⟩
  split at h
  · exact hrule (letStatement_resolves hv hd h) (by simp [Resolve.statement, Resolve.lift_apply hform])
  · split at h
    next hlast =>
      refine hrule (effect_resolves hv hd h) ?_
      simp only [Resolve.statement, Resolve.bind_apply, Resolve.lift_apply hform, Option.bind_some, hlast, if_pos]
    next hlast =>
      obtain ⟨rfl, rfl⟩ := pure_ok.mp h
      exact ⟨.refl _, .nothing, by simp [Resolve.statement, Resolve.lift_apply hform, hlast], rfl⟩
  next hlet hexpression =>
    refine hrule (effect_resolves hv hd h) ?_
    simp only [Resolve.statement, Resolve.bind_apply, Resolve.lift_apply hform, Option.bind_some]

theorem statements_resolves (hv : Follows visit resolve) {ts : List Tree} (hd : s.env.Distinct)
    (h : statements visit start ts s = .ok (code, s')) : Resolves (Resolve.statements resolve ts) start s code s' := by
  induction ts generalizing start s code with
  | nil =>
    obtain ⟨rfl, rfl⟩ := pure_ok.mp h
    exact ⟨.refl _, .nothing, rfl, rfl⟩
  | cons t rest ih =>
    simp only [statements, bind_ok, pure_ok] at h
    obtain ⟨one, s₁, hone, two, s₂, htwo, rfl, rfl⟩ := h
    obtain ⟨hk₁, x, hx, hlx⟩ := statement_resolves hv hd hone
    obtain ⟨hk₂, y, hy, hly⟩ := ih (hk₁.distinct hd) htwo
    refine ⟨hk₁.trans hk₂, .seq x y, ?_, one, two, rfl, hlx, hk₁.shape ▸ hly⟩
    simp [Resolve.statements, hx, hy]

theorem leaveBlock_ok {outer : Environment} {lent : Option Nat} {u : Unit} {names : List Text}
    (h : leaveBlock outer lent s = .ok (u, s')) (hk : (outer.extend names).Keeps s.env) :
    outer.Keeps s'.env ∧ s'.env.places = s.env.places.dropLast := by
  simp only [leaveBlock, bind_ok, get_ok, modify_ok] at h
  obtain ⟨_, _, ⟨rfl, rfl⟩, rfl⟩ := h
  have hk₁ := hk.trans (Environment.keeps_restoreBorrows s.env outer)
  cases lent with
  | none => exact ⟨hk₁.shrink, by simp⟩
  | some id =>
    cases hv : s.env.get? id with
    | none =>
      simp only [hv]
      exact ⟨hk₁.shrink, by simp⟩
    | some v =>
      simp only [hv]
      refine ⟨(hk₁.trans (Environment.keeps_update (fun w => by simp) _ id)).shrink, ?_⟩
      rw [Environment.places_shrink, Environment.places_update (fun w => by simp)]
      simp

theorem block_resolves (hv : Follows visit resolve) (hd : s.env.Distinct)
    (h : block visit start t s = .ok (code, s')) : Resolves (Resolve.block resolve t) start s code s' := by
  simp only [block, bind_ok, lift_ok, get_ok, onEnv_ok] at h
  obtain ⟨declared, _, ⟨hdeclared, rfl⟩, _, _, ⟨rfl, rfl⟩, opening, _, hopening, _, _, hextend, _, s₁, hs₁, items, _,
    ⟨hitems, rfl⟩, one, s₂, hone, others, _, ⟨hothers, rfl⟩, two, s₃, htwo, h⟩ := h
  obtain ⟨rfl, rfl⟩ := emit_ok.mp hopening
  obtain ⟨hopens, rfl⟩ := extend_ok hextend
  have hk₁ : (s.env.extend (declared.map Prod.fst)).Keeps s₁.env :=
    hs₁ ▸ Environment.keeps_hide s.env (declared.map Prod.fst) (declared.map Prod.snd)
  have hp₁ : s₁.env.places = s.env.places ++ [declared.map fun d => ⟨d.1, !d.2⟩] :=
    hs₁ ▸ Environment.places_hide s.env declared
  have hd₁ : s₁.env.Distinct := hk₁.distinct (hd.extend _)
  have hsh₁ : s₁.env.shape = s.env.shape ++ [declared.length] := by
    rw [hk₁.shape, Environment.shape_extend, List.length_map]
  obtain ⟨hk₂, x, hx, hlx⟩ := functions_resolves hv hd₁ hone
  obtain ⟨hk₃, y, hy, hly⟩ := statements_resolves hv (hk₂.distinct hd₁) htwo
  have hk : (s.env.extend (declared.map Prod.fst)).Keeps s₃.env := hk₁.trans (hk₂.trans hk₃)
  have hend : ∀ {value : Emissions} {lent : Option Nat} {u : CompileState} {z : Term 1}, s₃.env.Keeps u.env →
      Resolve.block resolve t s.env.places = some (.scope declared.length (.seq x (.seq y z)), u.env.places.dropLast) →
      Layout z s₁.env.shape (start + 1 + one.length + two.length) value →
      (do
        let closing ← emit (drops u.env ++ [.plain .exitScope])
        leaveBlock s.env lent
        pure ([⟨.enterScope declared.length, s.env⟩] ++ one ++ two ++ value ++ closing) :
          Compile Emissions) u = .ok (code, s') →
      Resolves (Resolve.block resolve t) start s code s' := by
    intro value lent u z hku hz hlz hu
    simp only [bind_ok, emit_ok, pure_ok] at hu
    obtain ⟨_, _, ⟨rfl, rfl⟩, _, _, hleave, rfl, rfl⟩ := hu
    obtain ⟨hk', hp'⟩ := leaveBlock_ok hleave (hk.trans hku)
    have hdrops := drops_layout u.env
    rw [(hk.trans hku).shape, Environment.shape_extend, List.length_map] at hdrops
    rw [List.length_map] at hopens
    rw [hk₂.shape] at hly
    rw [hsh₁] at hlx hly hlz
    have hbody : Layout (.seq x (.seq y z)) (s.env.shape ++ [declared.length]) (start + 1) (one ++ (two ++ value)) :=
      ⟨one, two ++ value, rfl, hlx, two, value, rfl, hly, hlz⟩
    have hl : Layout (.scope declared.length (.seq x (.seq y z))) s.env.shape start _ :=
      ⟨hopens, _, _, s.env, u.env, rfl, hbody, hdrops⟩
    exact ⟨hk', _, by rw [hz, hp'], by simpa using hl⟩
  have hblock : Resolve.functions resolve items (s.env.places ++ [declared.map fun d => ⟨d.1, !d.2⟩]) =
        some (x, s₂.env.places) →
      Resolve.block resolve t s.env.places = (do
        let z ← (tail? t).elim (pure Resolve.unit) resolve
        Resolve.closeFrame
        return .scope declared.length (.seq x (.seq y z)) : Resolve (Term 1)) s₃.env.places := by
    intro hx
    simp only [Resolve.block, Resolve.bind_apply, Resolve.lift_apply hdeclared, Resolve.modify_apply,
      Resolve.lift_apply hitems, Resolve.lift_apply hothers, Option.bind_some, hx, hy]
    cases tail? t <;> rfl
  cases htail : tail? t with
  | none =>
    simp only [htail, bind_ok (x := emit [pushUnit]), bind_ok (x := pure _), bind_ok (x := get), emit_ok, pure_ok,
      get_ok] at h
    obtain ⟨_, _, ⟨rfl, rfl⟩, _, _, ⟨rfl, rfl⟩, _, _, ⟨rfl, rfl⟩, h⟩ := h
    refine hend (.refl _) ?_ (unit_layout _ _ _) h
    rw [hp₁] at hx
    rw [hblock hx, htail]
    simp [Resolve.closeFrame]
  | some e =>
    simp only [htail, bind_ok (x := visit _ _ _), bind_ok (x := pure _), bind_ok (x := get), pure_ok,
      get_ok] at h
    obtain ⟨value, s₄, hvalue, _, _, ⟨rfl, rfl⟩, _, _, ⟨rfl, rfl⟩, _, _, ⟨rfl, rfl⟩, h⟩ := h
    obtain ⟨hk₄, z, hz, hlz⟩ := hv ((hk₂.trans hk₃).distinct hd₁) hvalue
    refine hend hk₄ ?_ ((hk₂.trans hk₃).shape ▸ hlz) h
    rw [hp₁] at hx
    rw [hblock hx, htail]
    simp [Resolve.closeFrame, hz]

/-! ## Trees -/

theorem rule_resolves (hv : Follows visit resolve) {use : Use} {f : Form} (hd : s.env.Distinct)
    (h : rule visit start f t use s = .ok (code, s')) : Resolves (Resolve.rule resolve f t) start s code s' := by
  cases f with
  | literal => exact literal_resolves h
  | path | identifier =>
    simp only [rule, bind_ok, lift_ok] at h
    obtain ⟨name, _, ⟨hname, rfl⟩, h⟩ := h
    obtain ⟨hk, x, hx, hlx⟩ : Resolves (Resolve.path name) start s code s' := path_resolves h
    exact ⟨hk, x, by simp [Resolve.rule, Resolve.lift_apply hname, hx], hlx⟩
  | block => exact block_resolves hv hd h
  | grouped => exact group_resolves hv hd h
  | arithmetic | comparison | lazyBoolean => exact binary_resolves hv hd h
  | negation => exact unary_resolves hv hd h
  | conditional => exact conditional_resolves hv hd h
  | loop => exact loop_resolves hv hd h
  | call => exact call_resolves hv hd h
  | returning => exact returning_resolves hv hd h
  | assignment => exact assignment_resolves hv hd h
  | compoundAssignment => exact compoundAssignment_resolves hv hd h
  | borrow => exact borrow_resolves h
  | dereference => exact dereference_resolves hv hd h
  | letStatement | expressionStatement =>
    simp only [rule, bind_ok, emit_ok, pure_ok] at h
    obtain ⟨one, s₁, hone, _, _, ⟨rfl, rfl⟩, rfl, rfl⟩ := h
    obtain ⟨hk, x, hx, hlx⟩ := statement_resolves hv hd hone
    exact ⟨hk, .seq x Resolve.unit, by simp [Resolve.rule, hx], seq_unit_layout _ hlx⟩
  | crate | function | parameters | parameter | ascription | terminal | other => exact wrapper_resolves hv hd h

/-- Generating code down to a depth follows resolving names down to that depth. -/
theorem toDepth_follows (depth : Nat) : Follows (toDepth depth) (Resolve.toDepth depth) := by
  induction depth with
  | zero =>
    intro start t use s code s' hd h
    exact absurd h throw_ok
  | succ depth ih =>
    intro start t use s code s' hd h
    cases t with
    | absent => exact absurd h throw_ok
    | node tag children val type =>
      simp only [toDepth, bind_ok] at h
      obtain ⟨one, s₁, hone, h⟩ := h
      obtain ⟨hk, x, hx, hlx⟩ := rule_resolves ih hd hone
      split at h
      · simp only [bind_ok, setLent_ok, pure_ok] at h
        obtain ⟨_, _, rfl, rfl, rfl⟩ := h
        exact ⟨hk, x, hx, hlx⟩
      · obtain ⟨rfl, rfl⟩ := pure_ok.mp h
        exact ⟨hk, x, hx, hlx⟩

/-! ## Programs -/

end Compile

/-- A sequence of functions, each stored into a slot. -/
inductive Term.Items : Term 0 → Prop where
  | nothing : Items .nothing
  | function {frame slot arity : Nat} {body : Term 1} {rest : Term 0} (h : Items rest) :
    Items (.seq (.store frame slot (.closure arity body)) rest)

/-- The term of a crate: functions in a frame of their own, then a call of one slot without arguments. -/
def Term.IsCrate (t : Term 1) : Prop :=
  ∃ slots items frame slot, t = .scope slots (.seq items (.call (.load frame slot) .nothing)) ∧ items.Items

namespace Resolve

variable {p p' : Places}

theorem function_form {visit : Visit} {t : Tree} {x : Term 0} (h : function visit t p = some (x, p')) :
    ∃ frame slot arity body, x = .store frame slot (.closure arity body) := by
  simp only [function, bind_some] at h
  obtain ⟨_, _, -, body, _, -, h⟩ := h
  cases body with
  | none => cases h
  | some body =>
    simp only [bind_some, pure_some] at h
    obtain ⟨_, _, -, parameters, _, -, _, _, -, value, _, -, _, _, -, ⟨frame, slot⟩, _, -, rfl, rfl⟩ := h
    exact ⟨frame, slot, parameters.length, value, rfl⟩

/-- Function items are resolved to stores of closures. -/
theorem functions_items {visit : Visit} {ts : List Tree} {x : Term 0} (h : functions visit ts p = some (x, p')) :
    x.Items := by
  induction ts generalizing p x with
  | nil =>
    obtain ⟨rfl, -⟩ := pure_some.mp h
    exact .nothing
  | cons t rest ih =>
    simp only [functions, bind_some, pure_some] at h
    obtain ⟨first, _, hfirst, others, _, hothers, rfl, rfl⟩ := h
    obtain ⟨frame, slot, arity, body, rfl⟩ := function_form hfirst
    exact .function (ih hothers)

end Resolve

namespace Compile

variable {visit : Visit} {resolve : Resolve.Visit} {start : Nat} {t : Tree} {s s' : CompileState} {code : Emissions}

theorem crate_resolves (hv : Follows visit resolve) (hd : s.env.Distinct)
    (h : crate visit start t s = .ok (code, s')) :
    ∃ x, Resolve.crate resolve t s.env.places = some (x, s'.env.places) ∧ Layout x s.env.shape start code ∧
      x.IsCrate := by
  simp only [crate, bind_ok, lift_ok, emit_ok] at h
  obtain ⟨items, _, ⟨hitems, rfl⟩, slots, _, ⟨hslots, rfl⟩, _, _, ⟨rfl, rfl⟩, _, _, hextend, one, s₁, hone, h⟩ := h
  obtain ⟨hopens, rfl⟩ := extend_ok hextend
  obtain ⟨hk, x, hx, hlx⟩ := functions_resolves hv (s := { s with env := s.env.extend slots }) (hd.extend slots) hone
  simp only [Environment.places_extend, Environment.shape_extend] at hk hx hlx
  simp only [get_ok] at h
  obtain ⟨_, _, ⟨rfl, rfl⟩, h⟩ := h
  cases hfind : s₁.env.find? "main" with
  | none =>
    simp only [hfind] at h
    exact absurd h fail_ok
  | some found =>
    obtain ⟨pos, v⟩ := found
    simp only [hfind, bind_ok, emit_ok, pure_ok] at h
    obtain ⟨_, _, ⟨rfl, rfl⟩, rfl, rfl⟩ := h
    obtain ⟨frame, slot, hpos, rfl, hwithin⟩ := find?_position hfind
    have hshape : s₁.env.shape = s.env.shape ++ [slots.length] := by rw [hk.shape, Environment.shape_extend]
    rw [hshape] at hwithin
    refine ⟨_, ?_, ?_, slots.length, x, frame, slot, rfl, Resolve.functions_items hx⟩
    · simp [Resolve.crate, Resolve.openFrame, Resolve.lift_apply hitems, Resolve.lift_apply hslots, hx, hpos]
    · have hcall : Layout (.call (.load frame slot) .nothing) (s.env.shape ++ [slots.length])
          (start + 1 + one.length) ([⟨.load (Environment.positionOf frame slot), s₁.env⟩] ++ [] ++
            [⟨.call (0 : Nat), s₁.env⟩]) :=
        ⟨_, [], _, rfl, ⟨hwithin, s₁.env, hshape, rfl⟩, rfl⟩
      have hl : Layout (.scope slots.length (.seq x (.call (.load frame slot) .nothing))) s.env.shape start _ :=
        ⟨hopens, _, [], s.env, s₁.env, rfl, ⟨one, _, rfl, hlx, hcall⟩, fun e he => by simp at he⟩
      simpa using hl

theorem program_resolves (h : (program t).run {} = .ok (code, s')) :
    ∃ x one env, t.term? = some x ∧ code = one ++ [⟨.plain .done, env⟩] ∧ Layout x [Builtin.names.length] 0 one ∧
      x.IsCrate := by
  rw [StateT.run] at h
  simp only [program, bind_ok, onEnv_ok, emit_ok, pure_ok] at h
  obtain ⟨_, _, rfl, one, s₁, hone, _, _, ⟨rfl, rfl⟩, rfl, rfl⟩ := h
  have hempty : ({} : Environment).Distinct := by simp [Environment.Distinct, Environment.bindings]
  have hd : (({} : Environment).extend Builtin.names).Distinct := hempty.extend _
  obtain ⟨x, hx, hlx, hcrate⟩ := crate_resolves (toDepth_follows t.height)
    (s := { env := ({} : Environment).extend Builtin.names }) hd hone
  refine ⟨x, one, s₁.env, ?_, rfl, hlx, hcrate⟩
  simp only [Environment.places_extend] at hx
  simp only [Tree.term?, Resolve.program, StateT.run, Resolve.bind_apply, Resolve.openFrame, Resolve.modify_apply,
    Option.bind_some]
  have hplaces : ({} : Environment).places = [] := rfl
  rw [hplaces] at hx
  rw [hx]
  rfl

end Compile

/-- The code of a program is that of its resolved term, a crate inside the frame of the builtins, and an instruction
that stops the machine. -/
theorem Tree.emissions_layout {t : Tree} {code : Emissions} (h : t.emissions = .ok code) :
    ∃ x one env, t.term? = some x ∧ code = one ++ [⟨.plain .done, env⟩] ∧ Layout x [Builtin.names.length] 0 one ∧
      x.IsCrate := by
  unfold Tree.emissions at h
  split at h
  · cases h
  · split at h
    · cases h
    · cases h
    · split at h
      · cases hp : (Compile.program t).run {} with
        | error e => simp [hp, Except.map] at h
        | ok r =>
          obtain ⟨code', s'⟩ := r
          simp only [hp, Except.map, Except.ok.injEq] at h
          exact h ▸ Compile.program_resolves hp
      · cases h

end Tenure
