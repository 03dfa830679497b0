import Mathlib.Data.List.Forall2
import Mathlib.Data.List.Infix
import Tenure.Proofs.Endless.Objects
import Tenure.Proofs.Endless.Run
import Tenure.Proofs.Semantics.Eval

/-!
# Values in the endless heap

How the values and the store of an evaluation look in the endless heap. A `World` says which nodes the frames and the
stamped values of an evaluation are; it only grows. `World.Shows` relates values to addresses, `World.Agrees` stores to
heaps. A slot of a frame holds its cell's value, or it is unassigned: the cell is empty, or the code has dropped the
slot. Only slots of frames that are no longer open have been dropped.
-/

set_option autoImplicit false

namespace Tenure

/-! ## Lists in step -/

section Forall₂

variable {α β : Type} {R : α → β → Prop} {l₁ : List α} {l₂ : List β}

theorem forall₂_getElem?_left (h : List.Forall₂ R l₁ l₂) {i : Nat} {a : α} (ha : l₁[i]? = some a) :
    ∃ b, l₂[i]? = some b ∧ R a b := by
  induction h generalizing i with
  | nil => simp at ha
  | cons hr _ ih =>
    cases i with
    | zero =>
      simp only [List.getElem?_cons_zero, Option.some.injEq] at ha
      exact ⟨_, rfl, ha ▸ hr⟩
    | succ i => simpa using ih (by simpa using ha)

theorem forall₂_getElem?_right (h : List.Forall₂ R l₁ l₂) {i : Nat} {b : β} (hb : l₂[i]? = some b) :
    ∃ a, l₁[i]? = some a ∧ R a b :=
  forall₂_getElem?_left h.flip hb

theorem getElem?_of_isPrefix {l l' : List α} (h : l <+: l') {i : Nat} {a : α} (ha : l[i]? = some a) :
    l'[i]? = some a := by
  obtain ⟨rest, rfl⟩ := h
  rw [List.getElem?_append_left (List.getElem?_eq_some_iff.mp ha).1]
  exact ha

theorem forall₂_set (h : List.Forall₂ R l₁ l₂) {a : α} {b : β} (hr : R a b) (i : Nat) :
    List.Forall₂ R (l₁.set i a) (l₂.set i b) := by
  induction h generalizing i with
  | nil => exact .nil
  | cons hr' hrest ih =>
    cases i with
    | zero => exact .cons hr hrest
    | succ i => exact .cons hr' (ih i)

end Forall₂

/-! ## Worlds -/

/-- Which nodes the frames and the stamped values of an evaluation are. -/
structure World where
  frames : List Address
  stamps : List Address

/-- The address of a builtin. -/
def Endless.builtinAt : Builtin → Address
  | .abs => 7
  | .min => 8
  | .max => 9
  | .sqrt => 10

/-- Code of a function stands at an address: its body, drops and a return. -/
def BodyAt (code : Emissions) (shape : List Nat) (arity : Nat) (body : Term 1) (entry : Nat) : Prop :=
  Opens shape arity ∧ ∃ one drops env, Segment code entry (one ++ drops ++ [⟨.plain .reset, env⟩]) ∧
    Layout body (shape ++ [arity]) entry one ∧ Drops (shape ++ [arity]) drops

/-- Code has an instruction that drops a slot. -/
def Emissions.HasDrop (code : Emissions) : Prop := ∃ e ∈ code, e.instr.op.operation? = some .drop

/-- A node is a frame with a number of slots. -/
def IsFrame (objs : List Obj) (f : Address) (slots : Nat) : Prop :=
  ∃ links, objs[f]? = some ⟨.frame, links⟩ ∧ links.length = slots

theorem IsFrame.mono {objs later : List Obj} (hg : Grows objs later) {f : Address} {slots : Nat}
    (h : IsFrame objs f slots) : IsFrame later f slots := by
  obtain ⟨links, ho, hl⟩ := h
  obtain ⟨links', ho', hl'⟩ := hg.frame ho
  exact ⟨links', ho', hl'.trans hl⟩

namespace World

/-- A world knows the frames and stamps of another one, and maybe more. -/
def Le (W W' : World) : Prop := W.frames <+: W'.frames ∧ W.stamps <+: W'.stamps

/-- A node is the environment of frames with numbers of slots. -/
def EnvAt (W : World) (objs : List Obj) (env shape : List Nat) (a : Address) : Prop :=
  ∃ fs, objs[a]? = some ⟨.environment, fs⟩ ∧ List.Forall₂ (fun id f => W.frames[id]? = some f) env fs ∧
    List.Forall₂ (IsFrame objs) fs shape

/-- A position of an environment names a cell. -/
def Locates (W : World) (objs : List Obj) (link : Address) (pos : Position) (c : Cell) : Prop :=
  ∃ (frame : Nat) (fs : List Address) (f : Address) (slots : Nat), pos = Environment.positionOf frame c.slot ∧
    objs[link]? = some ⟨.environment, fs⟩ ∧ fs[frame]? = some f ∧ W.frames[c.frame]? = some f ∧
    IsFrame objs f slots ∧ c.slot < slots

/-- A value is found at an address. -/
def Shows (W : World) (code : Emissions) (objs : List Obj) : Value → Address → Prop
  | .unit, a => a = Heap.undefined
  | .bool b, a => a = Heap.ofBool b
  | .number stamp n, a => W.stamps[stamp]? = some a ∧ objs[a]? = some ⟨.number n, []⟩
  | .char c, a => objs[a]? = some ⟨.char c, []⟩
  | .text t, a => ∃ links, objs[a]? = some ⟨.string t, links⟩
  | .builtin b, a => a = Endless.builtinAt b
  | .closure stamp arity body env, a =>
    W.stamps[stamp]? = some a ∧ ∃ (entry : Nat) (link : Address) (shape : List Nat),
      objs[a]? = some ⟨.closure arity entry, [link]⟩ ∧ W.EnvAt objs env shape link ∧ BodyAt code shape arity body entry
  | .reference stamp mutable cell pos, a =>
    W.stamps[stamp]? = some a ∧ ∃ link, objs[a]? = some ⟨.reference pos mutable, [link]⟩ ∧ W.Locates objs link pos cell

/-- What a slot holds for a cell: its value, unless the cell is empty or the slot may have been dropped. -/
def Holds (W : World) (code : Emissions) (objs : List Obj) (droppable : Prop) (cell : Option Value) (a : Address) :
    Prop :=
  (a = Heap.unassigned ∧ (cell = none ∨ droppable)) ∨ ∃ v, cell = some v ∧ W.Shows code objs v a

/-- The store of an evaluation is found in a heap while some of its frames are open. -/
structure Agrees (W : World) (code : Emissions) (opened : List Nat) (σ : Store) (objs : List Obj) : Prop where
  based : Grows Endless.prelude objs
  texts : Texts objs
  stamps_length : W.stamps.length = σ.stamps
  stamps_nodup : W.stamps.Nodup
  stamps_lt : ∀ a ∈ W.stamps, a < objs.length
  frames_length : W.frames.length = σ.frames.length
  frames_nodup : W.frames.Nodup
  frames : ∀ (id : Nat) (cells : List (Option Value)) (f : Address), σ.frames[id]? = some cells →
    W.frames[id]? = some f →
    ∃ links, objs[f]? = some ⟨.frame, links⟩ ∧
      List.Forall₂ (W.Holds code objs (code.HasDrop ∧ id ∉ opened)) cells links
  opened_lt : ∀ id ∈ opened, id < σ.frames.length

variable {W W' W'' : World} {code : Emissions} {opened inner : List Nat} {objs later : List Obj} {σ : Store}

namespace Le

theorem refl (W : World) : W.Le W := ⟨List.prefix_rfl, List.prefix_rfl⟩

theorem trans (h : W.Le W') (h' : W'.Le W'') : W.Le W'' := ⟨h.1.trans h'.1, h.2.trans h'.2⟩

theorem frame (h : W.Le W') {id : Nat} {f : Address} (hf : W.frames[id]? = some f) : W'.frames[id]? = some f :=
  getElem?_of_isPrefix h.1 hf

theorem stamp (h : W.Le W') {id : Nat} {a : Address} (ha : W.stamps[id]? = some a) : W'.stamps[id]? = some a :=
  getElem?_of_isPrefix h.2 ha

end Le

theorem EnvAt.mono {env shape : List Nat} {a : Address} (h : W.EnvAt objs env shape a) (hW : W.Le W')
    (hg : Grows objs later) : W'.EnvAt later env shape a := by
  obtain ⟨fs, ho, hframes, hshape⟩ := h
  exact ⟨fs, hg.get ho (by simp), hframes.imp fun _ _ h => hW.frame h, hshape.imp fun _ _ h => h.mono hg⟩

theorem Locates.mono {link : Address} {pos : Position} {c : Cell} (h : W.Locates objs link pos c) (hW : W.Le W')
    (hg : Grows objs later) : W'.Locates later link pos c := by
  obtain ⟨frame, fs, f, slots, hpos, he, hf, hw, hi, hlt⟩ := h
  exact ⟨frame, fs, f, slots, hpos, hg.get he (by simp), hf, hW.frame hw, hi.mono hg, hlt⟩

theorem Shows.mono {v : Value} {a : Address} (h : W.Shows code objs v a) (hW : W.Le W') (hg : Grows objs later) :
    W'.Shows code later v a := by
  cases v with
  | unit | bool | builtin => exact h
  | number stamp n => exact ⟨hW.stamp h.1, hg.get h.2 (by simp)⟩
  | char => exact hg.get h (by simp)
  | text =>
    obtain ⟨links, ho⟩ := h
    exact ⟨links, hg.get ho (by simp)⟩
  | closure stamp arity body env =>
    obtain ⟨hs, entry, link, shape, ho, he, hb⟩ := h
    exact ⟨hW.stamp hs, entry, link, shape, hg.get ho (by simp), he.mono hW hg, hb⟩
  | reference stamp mutable cell pos =>
    obtain ⟨hs, link, ho, hl⟩ := h
    exact ⟨hW.stamp hs, link, hg.get ho (by simp), hl.mono hW hg⟩

theorem Holds.mono {droppable : Prop} {cell : Option Value} {a : Address} (h : W.Holds code objs droppable cell a)
    (hW : W.Le W') (hg : Grows objs later) : W'.Holds code later droppable cell a := by
  rcases h with h | ⟨v, hv, hs⟩
  · exact .inl h
  · exact .inr ⟨v, hv, hs.mono hW hg⟩

theorem Holds.weaken {p q : Prop} {cell : Option Value} {a : Address} (h : W.Holds code objs p cell a) (hpq : p → q) :
    W.Holds code objs q cell a :=
  h.imp_left (And.imp_right (Or.imp_right hpq))

namespace Agrees

/-- Fewer frames may be open. -/
theorem close (h : W.Agrees code inner σ objs) (hsub : opened ⊆ inner) : W.Agrees code opened σ objs where
  based := h.based
  texts := h.texts
  stamps_length := h.stamps_length
  stamps_nodup := h.stamps_nodup
  stamps_lt := h.stamps_lt
  frames_length := h.frames_length
  frames_nodup := h.frames_nodup
  frames id cells f hcells hid := by
    obtain ⟨links, ho, hlinks⟩ := h.frames id cells f hcells hid
    exact ⟨links, ho, hlinks.imp fun _ _ h => h.weaken fun hd => ⟨hd.1, fun hmem => hd.2 (hsub hmem)⟩⟩
  opened_lt id hmem := h.opened_lt id (hsub hmem)

theorem frame_lt (h : W.Agrees code opened σ objs) {f : Address} (hf : f ∈ W.frames) : f < objs.length := by
  obtain ⟨id, hid⟩ := List.mem_iff_getElem?.mp hf
  have hlt : id < σ.frames.length := h.frames_length ▸ (List.getElem?_eq_some_iff.mp hid).1
  obtain ⟨links, ho, -⟩ := h.frames id _ f (List.getElem?_eq_getElem hlt) hid
  exact (List.getElem?_eq_some_iff.mp ho).1

/-- A heap may grow as long as the frames of the evaluation stay as they are. -/
theorem grow (h : W.Agrees code opened σ objs) (hg : Grows objs later) (ht : Texts later)
    (hf : ∀ f ∈ W.frames, later[f]? = objs[f]?) : W.Agrees code opened σ later where
  based := h.based.trans hg
  texts := ht
  stamps_length := h.stamps_length
  stamps_nodup := h.stamps_nodup
  stamps_lt a ha := (h.stamps_lt a ha).trans_le hg.length_le
  frames_length := h.frames_length
  frames_nodup := h.frames_nodup
  frames id cells f hcells hid := by
    obtain ⟨links, ho, hlinks⟩ := h.frames id cells f hcells hid
    refine ⟨links, ?_, hlinks.imp fun _ _ h => h.mono (.refl W) hg⟩
    rw [hf f (List.mem_of_getElem? hid), ho]
  opened_lt := h.opened_lt

/-- Nodes without texts may be added. -/
theorem append (h : W.Agrees code opened σ objs) {more : List Obj} (hm : ∀ o ∈ more, ∀ t, o.content ≠ .string t) :
    W.Agrees code opened σ (objs ++ more) :=
  h.grow (.append objs more) (h.texts.append hm) fun _ hf => List.getElem?_append_left (h.frame_lt hf)

/-- The next stamp can be given to a node that has none. -/
theorem stamp (h : W.Agrees code opened σ objs) {a : Address} (ha : a < objs.length) (hnew : a ∉ W.stamps) :
    ({ W with stamps := W.stamps ++ [a] } : World).Agrees code opened { σ with stamps := σ.stamps + 1 } objs where
  based := h.based
  texts := h.texts
  stamps_length := by simp [h.stamps_length]
  stamps_nodup := by
    rw [List.nodup_append]
    refine ⟨h.stamps_nodup, List.nodup_singleton a, fun b hb c hc => ?_⟩
    rintro rfl
    exact hnew (by simpa using (List.mem_singleton.mp hc) ▸ hb)
  stamps_lt b hb := by
    rcases List.mem_append.mp hb with hb | hb
    · exact h.stamps_lt b hb
    · rwa [List.mem_singleton.mp hb]
  frames_length := h.frames_length
  frames_nodup := h.frames_nodup
  frames id cells f hcells hid := by
    obtain ⟨links, ho, hlinks⟩ := h.frames id cells f hcells hid
    exact ⟨links, ho, hlinks.imp fun _ _ h => h.mono ⟨List.prefix_rfl, List.prefix_append _ _⟩ (.refl objs)⟩
  opened_lt := h.opened_lt

/-- The next frame of an evaluation can be a frame that is not one of it yet. It is open. -/
theorem frame (h : W.Agrees code opened σ objs) {f : Address} {links : List Address} {cells : List (Option Value)}
    (ho : objs[f]? = some ⟨.frame, links⟩) (hnew : f ∉ W.frames)
    (hcells : List.Forall₂ (W.Holds code objs False) cells links) :
    ({ W with frames := W.frames ++ [f] } : World).Agrees code (opened ++ [σ.frames.length])
      { σ with frames := σ.frames ++ [cells] } objs where
  based := h.based
  texts := h.texts
  stamps_length := h.stamps_length
  stamps_nodup := h.stamps_nodup
  stamps_lt := h.stamps_lt
  frames_length := by simp [h.frames_length]
  frames_nodup := by
    rw [List.nodup_append]
    refine ⟨h.frames_nodup, List.nodup_singleton f, fun b hb c hc => ?_⟩
    rintro rfl
    exact hnew (by simpa using (List.mem_singleton.mp hc) ▸ hb)
  frames id cells' f' hcells' hid := by
    have hle : W.Le { W with frames := W.frames ++ [f] } := ⟨List.prefix_append _ _, List.prefix_rfl⟩
    simp only at hcells' hid
    by_cases hlt : id < σ.frames.length
    · rw [List.getElem?_append_left hlt] at hcells'
      rw [List.getElem?_append_left (h.frames_length ▸ hlt)] at hid
      obtain ⟨links', ho', hlinks'⟩ := h.frames id cells' f' hcells' hid
      refine ⟨links', ho', hlinks'.imp fun _ _ h => (h.mono hle (.refl objs)).weaken fun hd => ⟨hd.1, ?_⟩⟩
      simpa [hd.2] using Nat.ne_of_lt hlt
    · have hid' : id = σ.frames.length := by
        have := (List.getElem?_eq_some_iff.mp hcells').1
        simp only [List.length_append, List.length_cons, List.length_nil] at this
        omega
      subst hid'
      rw [← h.frames_length] at hid
      simp only [List.getElem?_concat_length, Option.some.injEq] at hid hcells'
      subst hid hcells'
      exact ⟨links, ho, hcells.imp fun _ _ h => (h.mono hle (.refl objs)).weaken False.elim⟩
  opened_lt id hmem := by
    rw [List.length_append]
    rcases List.mem_append.mp hmem with hmem | hmem
    · exact Nat.lt_add_right _ (h.opened_lt id hmem)
    · rw [List.mem_singleton.mp hmem]
      exact Nat.lt_succ_self _

/-- A frame can be changed where the slots still hold the cells of the evaluation. -/
theorem set (h : W.Agrees code opened σ objs) {id : Nat} {f : Address} {links : List Address}
    {cells : List (Option Value)} (slot : Nat) {cell : Option Value} {v : Address} (hid : W.frames[id]? = some f)
    (ho : objs[f]? = some ⟨.frame, links⟩) (hcells : σ.frames[id]? = some cells)
    (hv : W.Holds code objs (code.HasDrop ∧ id ∉ opened) cell v) :
    W.Agrees code opened { σ with frames := σ.frames.set id (cells.set slot cell) }
      (objs.set f ⟨.frame, links.set slot v⟩) where
  based := h.based.trans (.set ho slot v)
  texts := h.texts.set ho (by simp) (links.set slot v)
  stamps_length := h.stamps_length
  stamps_nodup := h.stamps_nodup
  stamps_lt a ha := by simpa using h.stamps_lt a ha
  frames_length := by simp [h.frames_length]
  frames_nodup := h.frames_nodup
  frames id' cells' f' hcells' hid' := by
    have hg := Grows.set ho slot v
    have hlt : f < objs.length := (List.getElem?_eq_some_iff.mp ho).1
    by_cases hii : id = id'
    · subst hii
      obtain rfl : f = f' := Option.some.inj (hid.symm.trans hid')
      have hlt' : id < σ.frames.length := (List.getElem?_eq_some_iff.mp hcells).1
      simp only [List.getElem?_set_self hlt', Option.some.injEq] at hcells'
      subst hcells'
      obtain ⟨links', ho', hlinks⟩ := h.frames id cells f hcells hid
      obtain rfl : links = links' := by simpa using ho.symm.trans ho'
      exact ⟨links.set slot v, by simp [hlt],
        (forall₂_set hlinks hv slot).imp fun _ _ h => h.mono (.refl W) hg⟩
    · simp only [List.getElem?_set_ne hii] at hcells'
      obtain ⟨links', ho', hlinks⟩ := h.frames id' cells' f' hcells' hid'
      have hff : f ≠ f' := by
        rintro rfl
        exact hii ((List.getElem?_inj (List.getElem?_eq_some_iff.mp hid).1 h.frames_nodup).mp (hid.trans hid'.symm))
      refine ⟨links', by rw [List.getElem?_set_ne hff, ho'], hlinks.imp fun _ _ h => h.mono (.refl W) hg⟩
  opened_lt id' hmem := by simpa using h.opened_lt id' hmem

end Agrees

end World

end Tenure
