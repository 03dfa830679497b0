import Tenure.Proofs.Simulation.Logic

/-!
# Instructions simulate steps of evaluation

One lemma for each instruction, or each use of it, that says which step of evaluation it carries out.
-/

set_option autoImplicit false

namespace Tenure

open Endless

variable {code : Emissions} {g : Guard} {opened : List Nat} {base : Base} {fuel : Nat} {W W' : World} {σ σ' : Store}
  {s s' t : Endless} {e : Emission} {env shape : List Nat}

/-! ## Instructions without positions -/

/-- An instruction that carries no position fits everywhere. -/
theorem Endless.Fits.of_plain {o : Operation} (h : e.instr.op = .of o) (ho : o.usesPosition = false) : s.Fits e := by
  intro hu
  simp [h, Opcode.has, ho] at hu

theorem Endless.step_of {i : Instr} {o : Operation} (h : i.op = .of o) : s.step i = s.stepOperation o i := by
  simp [step, h]

/-- The state after an instruction that has pushed a value on top of the operands of another state. -/
def Gives (code : Emissions) (t : Endless) (v : Value) (W' : World) (_ : Store) (s' : Endless) : Prop :=
  s'.pc = t.pc ∧ s'.env = t.env ∧ s'.frames = t.frames ∧
    ∃ a, W'.Shows code s'.objs v a ∧ s'.operands = a :: t.operands

/-- A value that is already in the heap is pushed. -/
theorem push_simulates {x : Eval Value} {v : Value} {a : Address} {k : Nat} (hcode : code[s.pc]? = some e)
    (hfits : s.Fits e) (hstep : s.step e.instr = some ⟨k, .ok (t.push a)⟩) (hobjs : t.objs = s.objs)
    (hx : x σ = .ok v σ) (hA : W.Agrees code opened σ s.objs) (ha : W.Shows code s.objs v a) :
    Simulates code g opened base fuel W σ s x (Gives code t) := by
  have he : Extends code opened W s.objs W σ (t.push a).objs := by
    rw [show (t.push a).objs = s.objs from hobjs]
    exact .refl hA
  refine .ok hx (.single hcode hfits hstep) he ⟨rfl, rfl, rfl, a, ?_, rfl⟩
  rwa [show (t.push a).objs = s.objs from hobjs]

/-- A node with a new stamp is made and pushed. -/
theorem create_simulates {x : Eval Value} {v : Value} {o : Obj} {k : Nat} (hcode : code[s.pc]? = some e)
    (hfits : s.Fits e) (hstep : s.step e.instr = some ⟨k, .ok (t.create o)⟩) (hobjs : t.objs = s.objs)
    (hx : x σ = .ok v { σ with stamps := σ.stamps + 1 }) (hA : W.Agrees code opened σ s.objs)
    (ho : ∀ text, o.content ≠ .string text)
    (hv : ∀ (W' : World) (later : List Obj), W.Le W' → Grows s.objs later → W'.stamps[σ.stamps]? = some s.objs.length →
      later[s.objs.length]? = some o → W'.Shows code later v s.objs.length) :
    Simulates code g opened base fuel W σ s x (Gives code t) := by
  have hobjs' : (t.create o).objs = s.objs ++ [o] := by simp [create, hobjs]
  have hgrow : W.Agrees code opened σ (s.objs ++ [o]) := hA.append (by simpa using ho)
  have hnew : s.objs.length ∉ W.stamps := fun hm => absurd (hA.stamps_lt _ hm) (lt_irrefl _)
  have hA' := hgrow.stamp (a := s.objs.length) (by simp) hnew
  have hle : W.Le { W with stamps := W.stamps ++ [s.objs.length] } := ⟨List.prefix_rfl, List.prefix_append _ _⟩
  have he : Extends code opened W s.objs { W with stamps := W.stamps ++ [s.objs.length] }
      { σ with stamps := σ.stamps + 1 } (t.create o).objs := hobjs' ▸ ⟨hle, .append _ _, hA'⟩
  refine .ok hx (.single hcode hfits hstep) he ⟨rfl, rfl, rfl, s.objs.length, ?_, by simp [create, hobjs]⟩
  rw [hobjs']
  refine hv _ _ hle (.append _ _) ?_ (by simp)
  rw [← hA.stamps_length]
  simp

/-- The machine pushes the outcome of an operator. -/
theorem result_simulates {r : Except StepError (Bool ⊕ Number)} (hcode : code[s.pc]? = some e) (hfits : s.Fits e)
    (hstep : s.step e.instr = some (t.result r)) (hobjs : t.objs = s.objs) (hA : W.Agrees code opened σ s.objs) :
    Simulates code g opened base fuel W σ s (Eval.outcome r) (Gives code t) := by
  match r with
  | .ok (.inl b) => exact push_simulates (v := .bool b) hcode hfits hstep hobjs rfl hA rfl
  | .ok (.inr n) =>
    exact create_simulates (v := .number σ.stamps n) hcode hfits hstep hobjs rfl hA (by simp)
      fun W' later _ _ hs ho => ⟨hs, ho⟩
  | .error err => exact .failed rfl ⟨0, s, .refl s, e, 0, hcode, hfits, hstep⟩

theorem findText?_eq_some {text : Text} {a : Address} (h : t.findText? text = some a) :
    ∃ links, t.objs[a]? = some ⟨.string text, links⟩ := by
  obtain ⟨hlt, hcontent, -⟩ := List.findIdx?_eq_some_iff_getElem.mp h
  have hcontent' : t.objs[a].content = .string text := by simpa using hcontent
  exact ⟨t.objs[a].links, by rw [← hcontent', List.getElem?_eq_getElem hlt]⟩

theorem findText?_eq_none {text : Text} (h : t.findText? text = none) : ∀ o ∈ t.objs, o.content ≠ .string text := by
  simpa using List.findIdx?_eq_none_iff.mp h

theorem text_simulates {text : Text} (hcode : code[s.pc]? = some e) (hfits : s.Fits e)
    (hstep : s.step e.instr = some (t.text text)) (hobjs : t.objs = s.objs) (hA : W.Agrees code opened σ s.objs) :
    Simulates code g opened base fuel W σ s (pure (.text text)) (Gives code t) := by
  unfold Endless.text at hstep
  cases hfind : t.findText? text with
  | some a =>
    rw [hfind] at hstep
    exact push_simulates (v := .text text) hcode hfits hstep hobjs rfl hA (hobjs ▸ findText?_eq_some hfind)
  | none =>
    rw [hfind] at hstep
    have hobjs' : (t.create ⟨.string text, []⟩).objs = s.objs ++ [⟨.string text, []⟩] := by simp [create, hobjs]
    have hA' : W.Agrees code opened σ (s.objs ++ [⟨.string text, []⟩]) :=
      hA.grow (.append _ _) (hA.texts.create (hobjs ▸ findText?_eq_none hfind))
        fun _ hf => List.getElem?_append_left (hA.frame_lt hf)
    have he : Extends code opened W s.objs W σ (t.create ⟨.string text, []⟩).objs :=
      hobjs' ▸ ⟨.refl W, .append _ _, hA'⟩
    refine .ok rfl (.single hcode hfits hstep) he ⟨rfl, rfl, rfl, s.objs.length, ⟨[], ?_⟩, by simp [create, hobjs]⟩
    rw [hobjs']
    simp

theorem literal_simulates {l : Literal} {env : Environment} (hl : l.Known)
    (hcode : code[s.pc]? = some ⟨.loadConstant l, env⟩) (hA : W.Agrees code opened σ s.objs) :
    Simulates code g opened base fuel W σ s (Eval.literal l) (Gives code s.next) := by
  have hfits : s.Fits ⟨.loadConstant l, env⟩ := .of_plain rfl rfl
  have hstep : s.step (.loadConstant l) = s.next.literal l := step_of (o := .loadConstant) rfl
  unfold Endless.literal at hstep
  unfold Eval.literal
  by_cases h₀ : l.kind = Literal.unitKind
  · rw [if_pos h₀] at hstep ⊢
    exact push_simulates (v := .unit) hcode hfits hstep rfl rfl hA rfl
  rw [if_neg h₀] at hstep ⊢
  by_cases h₁ : l.kind = Literal.boolKind
  · rw [if_pos h₁] at hstep ⊢
    exact push_simulates (v := .bool l.bool) hcode hfits hstep rfl rfl hA rfl
  rw [if_neg h₁] at hstep ⊢
  by_cases h₂ : l.kind = Literal.intKind
  · rw [if_pos h₂] at hstep ⊢
    exact create_simulates (v := .number σ.stamps (.ofInt l.int)) hcode hfits hstep rfl rfl hA (by simp)
      fun _ _ _ _ hs ho => ⟨hs, ho⟩
  rw [if_neg h₂] at hstep ⊢
  by_cases h₃ : l.kind = Literal.floatKind
  · rw [if_pos h₃] at hstep ⊢
    exact create_simulates (v := .number σ.stamps (.float l.float)) hcode hfits hstep rfl rfl hA (by simp)
      fun _ _ _ _ hs ho => ⟨hs, ho⟩
  rw [if_neg h₃] at hstep ⊢
  by_cases h₄ : l.kind = Literal.charKind
  · rw [if_pos h₄] at hstep ⊢
    have hA' : W.Agrees code opened σ (s.next.create ⟨.char l.code, []⟩).objs := hA.append (by simp)
    exact .ok rfl (.single hcode hfits hstep) ⟨.refl W, .append _ _, hA'⟩
      ⟨rfl, rfl, rfl, s.objs.length, by simp [World.Shows, create, next], rfl⟩
  rw [if_neg h₄] at hstep ⊢
  have h₅ : l.kind = Literal.stringKind := by
    simpa [h₀, h₁, h₂, h₃, h₄] using hl.kind
  rw [if_pos h₅] at hstep
  exact text_simulates hcode hfits hstep rfl hA

/-! ## Operands -/

theorem World.Agrees.permanent (hA : W.Agrees code opened σ s.objs) {a : Address} {c : Content}
    (h : prelude[a]? = some ⟨c, []⟩) (hc : c ≠ .frame) : s.objs[a]? = some ⟨c, []⟩ :=
  hA.based.get h hc

/-- Operators see of an address what they see of the value there. -/
theorem operand?_of_shows (hA : W.Agrees code opened σ s.objs) {v : Value} {a : Address} (h : W.Shows code s.objs v a) :
    s.operand? a = some v.operand := by
  have hob : ∀ {c : Content} {links : List Address}, s.objs[a]? = some ⟨c, links⟩ →
      s.operand? a = some (.ofContent c) := by
    intro c links ho
    simp [operand?, ho]
  cases v with
  | unit =>
    obtain rfl : a = Heap.undefined := h
    exact hob (hA.permanent (c := .undefined) rfl (by simp))
  | bool b =>
    obtain rfl : a = Heap.ofBool b := h
    cases b
    · exact hob (hA.permanent (c := .falsity) rfl (by simp))
    · exact hob (hA.permanent (c := .truth) rfl (by simp))
  | number stamp n => exact hob h.2
  | char c => exact hob h
  | text t =>
    obtain ⟨links, ho⟩ := h
    exact hob ho
  | builtin b =>
    obtain rfl : a = builtinAt b := h
    cases b
    · exact hob (hA.permanent (c := .builtin 0) rfl (by simp))
    · exact hob (hA.permanent (c := .builtin 1) rfl (by simp))
    · exact hob (hA.permanent (c := .builtin 2) rfl (by simp))
    · exact hob (hA.permanent (c := .builtin 3) rfl (by simp))
  | closure stamp arity body env =>
    obtain ⟨-, entry, link, shape, ho, -⟩ := h
    exact hob ho
  | reference stamp mutable cell pos =>
    obtain ⟨-, link, ho, -⟩ := h
    exact hob ho

theorem kind_operand (v : Value) : v.operand.kind = v.kind := by
  cases v with
  | bool b => cases b <;> rfl
  | _ => rfl

/-- The node at the address of a value is of the kind of the value. -/
theorem kind_of_shows (hA : W.Agrees code opened σ s.objs) {v : Value} {a : Address} (h : W.Shows code s.objs v a) :
    ∃ o, s.objs[a]? = some o ∧ o.content.kind = v.kind := by
  have hop := operand?_of_shows hA h
  cases ho : s.objs[a]? with
  | none => simp [operand?, ho] at hop
  | some o =>
    simp only [operand?, ho, Option.map_some, Option.some.injEq] at hop
    exact ⟨o, rfl, by rw [← Operand.kind_ofContent, hop, kind_operand]⟩

theorem builtinAt_injective {b c : Builtin} (h : builtinAt b = builtinAt c) : b = c := by
  cases b <;> cases c <;> first | rfl | exact absurd h (by decide)

/-- Values at one address are the very same. -/
theorem same_of_shows (hA : W.Agrees code opened σ s.objs) {v w : Value} {a : Address} (hv : W.Shows code s.objs v a)
    (hw : W.Shows code s.objs w a) : v.same w = true := by
  have hkind : v.kind = w.kind := by
    have := (operand?_of_shows hA hv).symm.trans (operand?_of_shows hA hw)
    rw [← kind_operand v, ← kind_operand w, Option.some.inj this]
  have hstamp : ∀ {i j : Nat}, W.stamps[i]? = some a → W.stamps[j]? = some a → i = j := by
    intro i j hi hj
    exact (List.getElem?_inj (List.getElem?_eq_some_iff.mp hi).1 hA.stamps_nodup).mp (hi.trans hj.symm)
  cases v with
  | unit =>
    cases w with
    | unit => rfl
    | bool b => cases b <;> exact absurd hkind (by simp [Value.kind])
    | _ => exact absurd hkind (by simp [Value.kind])
  | bool b =>
    cases w with
    | bool c => cases b <;> cases c <;> first | rfl | exact absurd hkind (by simp [Value.kind])
    | _ => cases b <;> exact absurd hkind (by simp [Value.kind])
  | number i n =>
    cases w with
    | number j m => simp [Value.same, hstamp hv.1 hw.1]
    | bool b => cases b <;> exact absurd hkind (by simp [Value.kind])
    | _ => exact absurd hkind (by simp [Value.kind])
  | char c =>
    cases w with
    | char d =>
      have : (⟨.char c, []⟩ : Obj) = ⟨.char d, []⟩ := Option.some.inj (hv.symm.trans hw)
      simpa [Value.same] using this
    | bool b => cases b <;> exact absurd hkind (by simp [Value.kind])
    | _ => exact absurd hkind (by simp [Value.kind])
  | text t =>
    cases w with
    | text u =>
      obtain ⟨links, ho⟩ := hv
      obtain ⟨links', ho'⟩ := hw
      have := Option.some.inj (ho.symm.trans ho')
      simp only [Obj.mk.injEq, Content.string.injEq] at this
      simp [Value.same, this.1]
    | bool b => cases b <;> exact absurd hkind (by simp [Value.kind])
    | _ => exact absurd hkind (by simp [Value.kind])
  | builtin b =>
    cases w with
    | builtin c =>
      have : builtinAt b = builtinAt c := Eq.trans (Eq.symm hv) hw
      simp [Value.same, builtinAt_injective this]
    | bool b => cases b <;> exact absurd hkind (by simp [Value.kind])
    | _ => exact absurd hkind (by simp [Value.kind])
  | closure i arity body env =>
    cases w with
    | closure j _ _ _ => simp [Value.same, hstamp hv.1 hw.1]
    | bool b => cases b <;> exact absurd hkind (by simp [Value.kind])
    | _ => exact absurd hkind (by simp [Value.kind])
  | reference i mutable cell pos =>
    cases w with
    | reference j _ _ _ => simp [Value.same, hstamp hv.1 hw.1]
    | bool b => cases b <;> exact absurd hkind (by simp [Value.kind])
    | _ => exact absurd hkind (by simp [Value.kind])

/-- The very same value is at one address, except that characters may stand at several. -/
theorem eq_of_same (hA : W.Agrees code opened σ s.objs) {v w : Value} {a b : Address} (hv : W.Shows code s.objs v a)
    (hw : W.Shows code s.objs w b) (h : v.same w = true) : a = b ∨ v.operand.equal w.operand = true := by
  cases v <;> cases w <;> simp only [Value.same, decide_eq_true_eq, reduceCtorEq] at h
  case unit.unit => exact .inl (Eq.trans hv (Eq.symm hw))
  case bool.bool =>
    subst h
    exact .inl (Eq.trans hv (Eq.symm hw))
  case number.number =>
    subst h
    exact .inl (Option.some.inj (hv.1.symm.trans hw.1))
  case char.char =>
    subst h
    exact .inr (by simp [Value.operand, Operand.equal])
  case text.text =>
    subst h
    obtain ⟨links, ho⟩ := hv
    obtain ⟨links', ho'⟩ := hw
    exact .inl (hA.texts.unique a b _ _ _ ho ho' rfl rfl)
  case builtin.builtin =>
    subst h
    exact .inl (Eq.trans hv (Eq.symm hw))
  case closure.closure =>
    subst h
    exact .inl (Option.some.inj (hv.1.symm.trans hw.1))
  case reference.reference =>
    subst h
    exact .inl (Option.some.inj (hv.1.symm.trans hw.1))

/-- A binary operator sees only whether its operands are the same or equal in value. -/
theorem Operand.binary_congr {symbol : Text} {p q : Bool} {x y : Operand} (h : (p || x.equal y) = (q || x.equal y)) :
    Operand.binary symbol p x y = Operand.binary symbol q x y := by
  unfold Operand.binary
  rw [h]

/-- A binary operator does on addresses what it does on the values there. -/
theorem binary_of_shows (hA : W.Agrees code opened σ s.objs) {v w : Value} {a b : Address} (symbol : Text)
    (hv : W.Shows code s.objs v a) (hw : W.Shows code s.objs w b) :
    Operand.binary symbol (a = b) v.operand w.operand = Operand.binary symbol (v.same w) v.operand w.operand := by
  refine Operand.binary_congr ?_
  by_cases hab : a = b
  · subst hab
    simp [same_of_shows hA hv hw]
  · cases hs : v.same w with
    | false => simp [hab]
    | true =>
      rcases eq_of_same hA hv hw hs with h | h
      · exact absurd h hab
      · simp [h]

/-! ## Slots -/

/-- The environment at hand has the shape that the instruction expects. -/
theorem World.EnvAt.fits (hE : W.EnvAt s.objs env shape s.env) (he : e.env.shape = shape) : s.Fits e := by
  intro _
  obtain ⟨fs, ho, -, hshape⟩ := hE
  rw [shape?, ho, he]
  show fs.mapM _ = some shape
  clear ho he
  induction hshape with
  | nil => rfl
  | cons hf _ ih =>
    obtain ⟨links, hl, rfl⟩ := hf
    simp [List.mapM_cons, hl, ih]

/-- A slot that is there is a cell of the evaluation. -/
theorem World.EnvAt.locates {a : Address} {frame slot : Nat} (hE : W.EnvAt s.objs env shape a)
    (hw : Within shape frame slot) :
    ∃ c, Eval.cell env frame slot = pure c ∧ W.Locates s.objs a (Environment.positionOf frame slot) c := by
  obtain ⟨fs, ho, hids, hshape⟩ := hE
  obtain ⟨slots, hn, hlt⟩ := hw
  obtain ⟨f, hf, hframe⟩ := forall₂_getElem?_right hshape hn
  obtain ⟨id, hid, hidf⟩ := forall₂_getElem?_right hids hf
  exact ⟨⟨id, slot⟩, by simp [Eval.cell, hid], frame, fs, f, slots, rfl, ho, hf, hidf, hframe, hlt⟩

/-- What is found at a cell: in the store, and in the slot of its frame. -/
theorem World.Locates.slot {link : Address} {pos : Position} {c : Cell} (h : W.Locates s.objs link pos c)
    (hA : W.Agrees code opened σ s.objs) :
    ∃ f links cells cell a, s.frameAt? link pos = some f ∧ W.frames[c.frame]? = some f ∧
      s.objs[f]? = some ⟨.frame, links⟩ ∧ σ.frames[c.frame]? = some cells ∧ cells[c.slot]? = some cell ∧
      links[c.slot]? = some a ∧ W.Holds code s.objs (code.HasDrop ∧ c.frame ∉ opened) cell a ∧ pos.slot = c.slot := by
  obtain ⟨frame, fs, f, slots, rfl, he, hf, hw, ⟨links, ho, rfl⟩, hlt⟩ := h
  have hid : c.frame < σ.frames.length := hA.frames_length ▸ (List.getElem?_eq_some_iff.mp hw).1
  obtain ⟨links', ho', hcells⟩ := hA.frames c.frame _ f (List.getElem?_eq_getElem hid) hw
  obtain rfl : links = links' := by simpa using ho.symm.trans ho'
  obtain ⟨cell, hcell, hholds⟩ := forall₂_getElem?_right hcells (List.getElem?_eq_getElem hlt)
  refine ⟨f, links, _, cell, _, ?_, hw, ho, List.getElem?_eq_getElem hid, hcell, List.getElem?_eq_getElem hlt, hholds,
    rfl⟩
  simp [frameAt?, he, Obj.link?, Environment.positionOf, hf]

/-- No value is found at the mark of unassigned slots. -/
theorem World.Shows.ne_unassigned {v : Value} {a : Address} (h : W.Shows code s.objs v a)
    (hA : W.Agrees code opened σ s.objs) : a ≠ Heap.unassigned := by
  rintro rfl
  have ho := hA.permanent (c := .unassigned) (a := Heap.unassigned) rfl (by simp)
  cases v with
  | unit => cases h
  | bool b => cases b <;> cases h
  | number stamp n => cases ho.symm.trans h.2
  | char c => cases ho.symm.trans h
  | text t =>
    obtain ⟨links, ho'⟩ := h
    cases ho.symm.trans ho'
  | builtin b => cases b <;> cases h
  | closure stamp arity body env =>
    obtain ⟨-, entry, link, shape, ho', -⟩ := h
    cases ho.symm.trans ho'
  | reference stamp mutable cell pos =>
    obtain ⟨-, link, ho', -⟩ := h
    cases ho.symm.trans ho'

/-- The value of a slot is that of its cell, unless the slot was dropped. An access to a dropped slot is guarded, or it
fails. -/
theorem load_simulates {link : Address} {pos : Position} {c : Cell} {guarded : Bool} (hcode : code[s.pc]? = some e)
    (hfits : s.Fits e) (hstep : s.step e.instr = t.load link pos) (hobjs : t.objs = s.objs)
    (hA : W.Agrees code opened σ s.objs) (hl : W.Locates s.objs link pos c)
    (hguarded : guarded = true → g.loads = true ∨ g.references = true) (hfree : guarded = false → g.Unguarded e.instr) :
    Simulates code g opened base fuel W σ s (Eval.readOpen guarded opened c pos) (Gives code t) := by
  unfold Eval.readOpen
  by_cases hclosed : guarded = true ∧ c.frame ∉ opened
  · rw [if_pos hclosed]
    exact .refused rfl ⟨hguarded hclosed.1, pos, rfl⟩
  rw [if_neg hclosed]
  obtain ⟨f, links, cells, cell, a, hf, -, ho, hcells, hcell, ha, hholds, hslot⟩ := hl.slot hA
  have hload : t.cell? link pos = some a := by
    have hf' : t.frameAt? link pos = some f := by rw [← hf, frameAt?, frameAt?, hobjs]
    simp [cell?, hf', hobjs, ho, Obj.link?, hslot, ha]
  rw [load, hload] at hstep
  by_cases hu : a = Heap.unassigned
  · rw [Option.bind_eq_bind, Option.bind_some, if_pos hu] at hstep
    have hfails : FailsAt code s (.unassigned pos) := ⟨e, 0, hcode, hfits, hstep⟩
    rcases hholds with ⟨-, rfl | ⟨hdrop, hframe⟩⟩ | ⟨v, -, hv⟩
    · have hread : Eval.read c pos σ = .error (.failed (.unassigned pos)) σ := by
        simp only [Eval.read, Eval.get_bind_apply, hcells, hcell, Option.bind_some]
        rfl
      exact .failed hread ⟨0, s, .refl s, hfails⟩
    · have hunguarded : guarded = false := by simpa [hframe] using hclosed
      exact .dropped ⟨hdrop, 0, s, e, pos, .refl s, hfails, hcode, hfree hunguarded⟩
    · exact absurd hu (hv.ne_unassigned hA)
  · rw [Option.bind_eq_bind, Option.bind_some, if_neg hu] at hstep
    rcases hholds with ⟨h, -⟩ | ⟨v, rfl, hv⟩
    · exact absurd h hu
    refine push_simulates hcode hfits hstep hobjs ?_ hA hv
    simp only [Eval.read, Eval.get_bind_apply, hcells, hcell, Option.bind_some]
    rfl

/-- A slot gets a value when its cell does. -/
theorem setCell?_of_locates {link : Address} {pos : Position} {c : Cell} {v : Value} {a : Address}
    (hA : W.Agrees code opened σ t.objs) (hl : W.Locates t.objs link pos c) (hv : W.Shows code t.objs v a) :
    ∃ σ' later, t.setCell? link pos a = some { t with objs := later } ∧ Eval.write c v σ = .ok () σ' ∧
      Extends code opened W t.objs W σ' later := by
  obtain ⟨f, links, cells, cell, b, hf, hw, ho, hcells, hcell, hb, -, hslot⟩ := hl.slot hA
  have hlt : c.slot < links.length := (List.getElem?_eq_some_iff.mp hb).1
  have hset := hA.set c.slot hw ho hcells (.inr ⟨v, rfl, hv⟩)
  refine ⟨_, _, ?_, ?_, .refl W, .set ho c.slot a, hset⟩
  · simp [setCell?, hf, ho, hslot, hlt]
  · have hmod : σ.frames.modify c.frame (fun cells => cells.set c.slot (some v)) =
        σ.frames.set c.frame (cells.set c.slot (some v)) := by
      rw [List.modify_eq_set_getElem?, hcells]
      rfl
    rw [← hmod]
    rfl

/-- A slot of a frame that is no longer open may be emptied: its cell keeps its value, but the slot no longer shows
it. -/
theorem setCell?_unassigned {link : Address} {pos : Position} {c : Cell} (hA : W.Agrees code opened σ t.objs)
    (hl : W.Locates t.objs link pos c) (hd : code.HasDrop) (hclosed : c.frame ∉ opened) :
    ∃ later, t.setCell? link pos Heap.unassigned = some { t with objs := later } ∧
      Extends code opened W t.objs W σ later := by
  obtain ⟨f, links, cells, cell, b, hf, hw, ho, hcells, hcell, hb, -, hslot⟩ := hl.slot hA
  have hlt : c.slot < links.length := (List.getElem?_eq_some_iff.mp hb).1
  have hempty : W.Holds code t.objs (code.HasDrop ∧ c.frame ∉ opened) cell Heap.unassigned :=
    .inl ⟨rfl, .inr ⟨hd, hclosed⟩⟩
  have hset := hA.set c.slot hw ho hcells hempty
  have hsame : ({ σ with frames := σ.frames.set c.frame (cells.set c.slot cell) } : Store) = σ := by
    obtain ⟨hlt', rfl⟩ := List.getElem?_eq_some_iff.mp hcell
    obtain ⟨hid, rfl⟩ := List.getElem?_eq_some_iff.mp hcells
    rw [List.set_getElem_self, List.set_getElem_self]
  rw [hsame] at hset
  refine ⟨_, ?_, .refl W, .set ho c.slot Heap.unassigned, hset⟩
  simp [setCell?, hf, ho, hslot, hlt]

end Tenure
