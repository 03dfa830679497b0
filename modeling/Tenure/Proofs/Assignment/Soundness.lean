import Tenure.Proofs.Assignment.Terms
import Tenure.Proofs.Semantics.Contract
import Tenure.Proofs.Typing.Soundness

/-!
# Soundness of definite assignment

The evaluation of a term in which every slot has a value when it is read comes to no cell that has none, and its loads
are from open frames: `Term.Definite.guarded_meets`. References are to cells with a value. So a dereference finds one
too, whether or not the frame of its cell is still open.
-/

set_option autoImplicit false

namespace Tenure

/-! ## Stores of which something is known -/

/-- What is known of a store: cells that are there, and cells that have a value. -/
structure Cells where
  present : Set Cell
  assigned : Set Cell
  assigned_present : assigned ⊆ present

namespace Cells

variable {κ κ' κ'' : Cells}

/-- More cells are there and have a value. -/
def Le (κ κ' : Cells) : Prop := κ.present ⊆ κ'.present ∧ κ.assigned ⊆ κ'.assigned

theorem Le.refl (κ : Cells) : κ.Le κ := ⟨Set.Subset.refl _, Set.Subset.refl _⟩

theorem Le.trans (h : κ.Le κ') (h' : κ'.Le κ'') : κ.Le κ'' := ⟨h.1.trans h'.1, h.2.trans h'.2⟩

end Cells

/-- The body of a function of a crate reads no slot without a value. -/
def Term.DefiniteBody (crate : List Nat) (arity : Nat) (body : Term 1) : Prop :=
  ∃ B, body.Definite crate (crate ++ [arity]) (slotsOf (crate ++ [arity])) B

/-- References are to cells with a value, and functions are those of a crate. -/
def Value.Certain (crate : List Nat) (κ : Cells) : Value → Prop
  | .closure _ arity body env => env = [0, 1] ∧ body.DefiniteBody crate arity
  | .reference _ _ c _ => c ∈ κ.assigned
  | _ => True

theorem Value.Certain.mono {crate : List Nat} {κ κ' : Cells} {v : Value} (hv : v.Certain crate κ) (h : κ.Le κ') :
    v.Certain crate κ' := by
  cases v with
  | reference => exact h.2 hv
  | _ => exact hv

theorem Value.Certain.of_isFlat {crate : List Nat} {κ : Cells} {v : Value} (h : v.isFlat = true) :
    v.Certain crate κ := by
  cases v with
  | closure | reference => cases h
  | _ => trivial

namespace Store

variable {σ : Store} {c c' : Cell} {v : Value} {cells : List (Option Value)}

/-- A store with one cell written. -/
def write (σ : Store) (c : Cell) (v : Value) : Store :=
  { σ with frames := σ.frames.modify c.frame fun cells => cells.set c.slot (some v) }

/-- A store with one more frame. -/
def extend (σ : Store) (cells : List (Option Value)) : Store := { σ with frames := σ.frames ++ [cells] }

theorem cell?_write_self (h : (σ.cell? c).isSome) : (σ.write c v).cell? c = some (some v) := by
  obtain ⟨content, hcontent⟩ := Option.isSome_iff_exists.mp h
  obtain ⟨cells, hcells, hslot⟩ := Option.bind_eq_some_iff.mp hcontent
  obtain ⟨hlt, -⟩ := List.getElem?_eq_some_iff.mp hslot
  simp [cell?, write, hcells, hlt]

theorem cell?_write_of_ne (h : c ≠ c') : (σ.write c v).cell? c' = σ.cell? c' := by
  simp only [cell?, write, List.getElem?_modify]
  by_cases hframe : c.frame = c'.frame
  · have hslot : c.slot ≠ c'.slot := fun hslot => h (by cases c; cases c'; simp_all)
    cases σ.frames[c'.frame]? <;> simp [hframe, hslot]
  · cases σ.frames[c'.frame]? <;> simp [hframe]

theorem cell?_extend_of_some {content : Option Value} (h : σ.cell? c = some content) :
    (σ.extend cells).cell? c = some content := by
  obtain ⟨old, hold, hslot⟩ := Option.bind_eq_some_iff.mp h
  simp only [cell?, extend]
  rw [List.getElem?_append_left (List.getElem?_eq_some_iff.mp hold).1, hold]
  exact hslot

theorem cell?_extend_last (slot : Nat) : (σ.extend cells).cell? ⟨σ.frames.length, slot⟩ = cells[slot]? := by
  simp [cell?, extend]

/-- A cell of an extended store is one of the store, or one of the last frame. -/
theorem cell?_extend_cases {content : Option Value} (h : (σ.extend cells).cell? c = some content) :
    σ.cell? c = some content ∨ c.frame = σ.frames.length ∧ cells[c.slot]? = some content := by
  by_cases hlt : c.frame < σ.frames.length
  · refine .inl ?_
    rwa [cell?, extend, List.getElem?_append_left hlt] at h
  · obtain ⟨new, hnew, hslot⟩ := Option.bind_eq_some_iff.mp h
    have hlast := (List.getElem?_eq_some_iff.mp hnew).1
    simp only [extend, List.length_append, List.length_cons, List.length_nil] at hlast
    have hframe : c.frame = σ.frames.length := by omega
    have hcell := h
    rw [show c = ⟨σ.frames.length, c.slot⟩ by cases c; simp_all, cell?_extend_last] at hcell
    exact .inr ⟨hframe, hcell⟩

end Store

/-- A store in which cells are there and have values as is known. -/
structure Store.Knows (crate : List Nat) (κ : Cells) (σ : Store) : Prop where
  present : ∀ c ∈ κ.present, ∃ content, σ.cell? c = some content
  assigned : ∀ c ∈ κ.assigned, ∃ v, σ.cell? c = some (some v)
  values : ∀ c v, σ.cell? c = some (some v) → v.Certain crate κ

namespace Store.Knows

variable {crate : List Nat} {κ : Cells} {σ : Store}

/-- Not all of infinitely many cells of one frame have a value. -/
theorem finite (h : σ.Knows crate κ) (f : Nat) : ∃ slot, (⟨f, slot⟩ : Cell) ∉ κ.assigned := by
  cases hf : σ.frames[f]? with
  | none =>
    refine ⟨0, fun hmem => ?_⟩
    obtain ⟨v, hv⟩ := h.assigned _ hmem
    simp [cell?, hf] at hv
  | some cells =>
    refine ⟨cells.length, fun hmem => ?_⟩
    obtain ⟨v, hv⟩ := h.assigned _ hmem
    simp [cell?, hf] at hv

/-- A cell that is there is given a value. -/
theorem write (h : σ.Knows crate κ) {c : Cell} {v : Value} (hc : c ∈ κ.present) (hv : v.Certain crate κ) :
    ∃ κ', κ.Le κ' ∧ (σ.write c v).Knows crate κ' ∧ c ∈ κ'.assigned := by
  let κ' : Cells := ⟨κ.present, insert c κ.assigned, Set.insert_subset hc κ.assigned_present⟩
  have hle : κ.Le κ' := ⟨Set.Subset.refl _, Set.subset_insert ..⟩
  have hself : (σ.write c v).cell? c = some (some v) := by
    obtain ⟨content, hcontent⟩ := h.present c hc
    exact cell?_write_self (by rw [hcontent]; rfl)
  refine ⟨κ', hle, ⟨fun c' hc' => ?_, fun c' hc' => ?_, fun c' v' hv' => ?_⟩, Set.mem_insert ..⟩
  all_goals
    by_cases hsame : c = c'
    · subst hsame
      first
        | exact ⟨_, hself⟩
        | exact Option.some.inj (Option.some.inj (hself.symm.trans hv')) ▸ hv.mono hle
    rw [cell?_write_of_ne hsame] at *
  · exact h.present c' hc'
  · exact h.assigned c' (hc'.resolve_left fun heq => hsame heq.symm)
  · exact (h.values c' v' hv').mono hle

/-- A frame is made of which some cells have values. -/
theorem extend (h : σ.Knows crate κ) {cells : List (Option Value)}
    (hcells : ∀ v, some v ∈ cells → v.Certain crate κ) :
    ∃ κ', κ.Le κ' ∧ (σ.extend cells).Knows crate κ' ∧
      (∀ slot < cells.length, (⟨σ.frames.length, slot⟩ : Cell) ∈ κ'.present) ∧
      ∀ slot v, cells[slot]? = some (some v) → (⟨σ.frames.length, slot⟩ : Cell) ∈ κ'.assigned := by
  have hcell : ∀ {c : Cell}, c.frame = σ.frames.length → (σ.extend cells).cell? c = cells[c.slot]? := by
    intro c hc
    rw [show c = ⟨σ.frames.length, c.slot⟩ by rw [← hc], cell?_extend_last]
  let κ' : Cells :=
    { present := κ.present ∪ {c | c.frame = σ.frames.length ∧ c.slot < cells.length}
      assigned := κ.assigned ∪ {c | c.frame = σ.frames.length ∧ ∃ v, cells[c.slot]? = some (some v)}
      assigned_present := by
        refine Set.union_subset_union κ.assigned_present fun c hc => ⟨hc.1, ?_⟩
        obtain ⟨v, hv⟩ := hc.2
        exact (List.getElem?_eq_some_iff.mp hv).1 }
  have hle : κ.Le κ' := ⟨Set.subset_union_left, Set.subset_union_left⟩
  refine ⟨κ', hle, ⟨fun c hc => ?_, fun c hc => ?_, fun c v hv => ?_⟩, fun slot hslot => .inr ⟨rfl, hslot⟩,
    fun slot v hv => .inr ⟨rfl, v, hv⟩⟩
  · rcases hc with hc | ⟨hframe, hlt⟩
    · obtain ⟨content, hcontent⟩ := h.present c hc
      exact ⟨content, cell?_extend_of_some hcontent⟩
    · exact ⟨_, by rw [hcell hframe, List.getElem?_eq_getElem hlt]⟩
  · rcases hc with hc | ⟨hframe, v, hv⟩
    · obtain ⟨v, hv⟩ := h.assigned c hc
      exact ⟨v, cell?_extend_of_some hv⟩
    · exact ⟨v, by rw [hcell hframe, hv]⟩
  · rcases cell?_extend_cases hv with hold | ⟨-, hnew⟩
    · exact (h.values c v hold).mono hle
    · exact (hcells v (List.mem_of_getElem? hnew)).mono hle

end Store.Knows

/-! ## Places of an evaluation -/

/-- Names reach cells of a set. -/
def Reaching (env : List Nat) (names : Set (Nat × Nat)) (cells : Set Cell) : Prop :=
  ∀ p ∈ names, ∃ f, env[p.1]? = some f ∧ (⟨f, p.2⟩ : Cell) ∈ cells

namespace Reaching

variable {env more : List Nat} {A B : Set (Nat × Nat)} {S T : Set Cell}

theorem mono (h : Reaching env A S) (hS : S ⊆ T) : Reaching env A T := by
  intro p hp
  obtain ⟨f, hf, hmem⟩ := h p hp
  exact ⟨f, hf, hS hmem⟩

theorem subset (h : Reaching env A S) (hB : B ⊆ A) : Reaching env B S := fun p hp => h p (hB hp)

theorem append (h : Reaching env A S) (more : List Nat) : Reaching (env ++ more) A S := by
  intro p hp
  obtain ⟨f, hf, hmem⟩ := h p hp
  exact ⟨f, by rw [List.getElem?_append_left (List.getElem?_eq_some_iff.mp hf).1, hf], hmem⟩

/-- Names that reach no further than an environment reach what they reach in it. -/
theorem of_append (h : Reaching (env ++ more) A S) (hA : ∀ p ∈ A, p.1 < env.length) : Reaching env A S := by
  intro p hp
  obtain ⟨f, hf, hmem⟩ := h p hp
  exact ⟨f, by rwa [List.getElem?_append_left (hA p hp)] at hf, hmem⟩

/-- The slots of one more frame. -/
theorem extend {shape : List Nat} {size f : Nat} (h : Reaching env (slotsOf shape) S)
    (hlength : env.length = shape.length) (hnew : ∀ slot < size, (⟨f, slot⟩ : Cell) ∈ S) :
    Reaching (env ++ [f]) (slotsOf (shape ++ [size])) S := by
  rintro ⟨i, j⟩ ⟨n, hn, hlt⟩
  simp only at hn hlt
  by_cases hi : i < shape.length
  · rw [List.getElem?_append_left hi] at hn
    exact h.append [f] (i, j) ⟨n, hn, hlt⟩
  · have hi' : i = env.length := by
      have := (List.getElem?_eq_some_iff.mp hn).1
      simp only [List.length_append, List.length_cons, List.length_nil] at this
      omega
    subst hi'
    rw [hlength, List.getElem?_concat_length] at hn
    cases hn
    exact ⟨f, List.getElem?_concat_length .., hnew j hlt⟩

end Reaching

/-- The frames of an environment are open and have slots, and the outermost ones are those of the crate. -/
structure Stands (κ : Cells) (shape env opened : List Nat) : Prop where
  outermost : [0, 1] <+: env
  length : env.length = shape.length
  slots : Reaching env (slotsOf shape) κ.present
  opened : ∀ f ∈ env, f ∈ opened

namespace Stands

variable {κ κ' : Cells} {shape env opened : List Nat}

theorem mono (h : Stands κ shape env opened) (hle : κ.Le κ') : Stands κ' shape env opened :=
  ⟨h.outermost, h.length, h.slots.mono hle.1, h.opened⟩

theorem extend (h : Stands κ shape env opened) {size f : Nat} (hnew : ∀ slot < size, (⟨f, slot⟩ : Cell) ∈ κ.present) :
    Stands κ (shape ++ [size]) (env ++ [f]) (opened ++ [f]) where
  outermost := h.outermost.trans (List.prefix_append ..)
  length := by simp [h.length]
  slots := h.slots.extend h.length hnew
  opened f' hf' := by
    rcases List.mem_append.mp hf' with hf' | hf'
    · exact List.mem_append_left _ (h.opened f' hf')
    · exact List.mem_append_right _ hf'

end Stands

/-! ## Evaluation -/

/-- Evaluation never comes to a cell without a value, and only a guarded dereference is to a frame that is not open. -/
def Contract.assignment (crate : List Nat) (references : Bool) : Contract Cells where
  Grows := Cells.Le
  Holds κ σ := σ.Knows crate κ
  Allows e := (∀ pos, e ≠ .unassigned pos) ∧ (references = false → ∀ pos, e ≠ .unboundSlot pos)
  refl := Cells.Le.refl
  trans := Cells.Le.trans
  stamps _ h := ⟨h.present, h.assigned, h.values⟩
  others e h := by
    constructor
    · rintro pos rfl
      cases h
    · rintro - pos rfl
      cases h

/-- An evaluation keeps to what is known of cells. -/
abbrev Eval.Assigns {α : Type} (crate : List Nat) (references : Bool) (κ : Cells) (x : Eval α)
    (Q : Cells → α → Prop) : Prop :=
  x.Meets (Contract.assignment crate references) κ (fun κ' v => v.Certain crate κ') Q

/-- Reading slots with values only leaves a term that has values where it ends. -/
def LowerAssigns (crate : List Nat) (references : Bool) (lower : Term 1 → List Nat → List Nat → Eval (Values 1)) :
    Prop :=
  ∀ ⦃shape : List Nat⦄ ⦃A B : Set (Nat × Nat)⦄ ⦃t : Term 1⦄, t.Definite crate shape A B →
    ∀ ⦃κ : Cells⦄ ⦃env opened : List Nat⦄, Stands κ shape env opened → Reaching env A κ.assigned →
      (lower t env opened).Assigns crate references κ fun κ' vs =>
        Reaching env B κ'.assigned ∧ vs.All (Value.Certain crate κ')

namespace Eval.Assigns

variable {α : Type} {crate : List Nat} {references : Bool} {κ : Cells}

/-- A cell that has a value is read, in an open frame or where the guard allows it. -/
theorem readOpen {guarded : Bool} {opened : List Nat} {c : Cell} (hc : c ∈ κ.assigned)
    (hopen : guarded = true → c.frame ∉ opened → references = true) (pos : Position) :
    (Eval.readOpen guarded opened c pos).Assigns crate references κ fun κ' v => v.Certain crate κ' := by
  unfold Eval.readOpen
  split
  next h =>
    refine fun _ _ => ⟨fun _ h' => (by cases h'), fun hfalse => ?_⟩
    cases (hopen h.1 h.2).symm.trans hfalse
  next =>
    intro σ hσ
    obtain ⟨v, hv⟩ := hσ.assigned c hc
    rw [Eval.read, Eval.get_bind_apply]
    rw [Store.cell?] at hv
    rw [hv]
    exact Eval.Meets.pure (hσ.values c v hv) σ hσ

theorem write {c : Cell} {v : Value} (hc : c ∈ κ.present) (hv : v.Certain crate κ) :
    (Eval.write c v).Assigns crate references κ fun κ' _ => c ∈ κ'.assigned :=
  .of_ok (g := fun σ => ((), σ.write c v)) (fun _ => rfl) fun _ hσ => hσ.write hc hv

theorem frame {cells : List (Option Value)} (hcells : ∀ v, some v ∈ cells → v.Certain crate κ) :
    (Eval.frame cells).Assigns crate references κ fun κ' f =>
      (∀ slot < cells.length, (⟨f, slot⟩ : Cell) ∈ κ'.present) ∧
        ∀ slot v, cells[slot]? = some (some v) → (⟨f, slot⟩ : Cell) ∈ κ'.assigned :=
  .of_ok (g := fun σ => (σ.frames.length, σ.extend cells)) (fun _ => rfl) fun _ hσ => hσ.extend hcells

/-- The cell of a name that reaches it. -/
theorem cell {env : List Nat} {frame slot f : Nat} (hf : env[frame]? = some f) :
    (Eval.cell env frame slot).Assigns crate references κ fun κ' c => κ' = κ ∧ c = ⟨f, slot⟩ := by
  rw [Eval.cell, hf]
  exact .pure ⟨rfl, rfl⟩

variable {lower : Term 1 → List Nat → List Nat → Eval (Values 1)}

/-- A function of the crate is called when all of them have values. -/
theorem apply (hlower : LowerAssigns crate references lower) (hlength : crate.length = 2) {shape env opened : List Nat}
    {C : Set (Nat × Nat)} (hs : Stands κ shape env opened) (hC : Reaching env C κ.assigned) (hcrate : slotsOf crate ⊆ C)
    {callee : Value} {arguments : List Value} (hcallee : callee.Certain crate κ)
    (harguments : ∀ v ∈ arguments, v.Certain crate κ) :
    (Term.apply (Term.opening lower opened) callee arguments).Assigns crate references κ fun κ' v =>
      v.Certain crate κ' := by
  refine Eval.Meets.apply (fun κ' v => .of_isFlat) harguments ?_
  rintro stamp body env' rfl
  obtain ⟨rfl, B, hbody⟩ := hcallee
  have hitems : Reaching [0, 1] (slotsOf crate) κ.assigned := by
    obtain ⟨more, rfl⟩ := hs.outermost
    refine (hC.subset hcrate).of_append fun p hp => ?_
    obtain ⟨n, hn, -⟩ := hp
    exact (List.getElem?_eq_some_iff.mp hn).1.trans_eq hlength
  have hcells : ∀ v, some v ∈ arguments.map some → v.Certain crate κ := by
    intro v hv
    obtain ⟨w, hw, hwv⟩ := List.mem_map.mp hv
    exact Option.some.inj hwv ▸ harguments w hw
  refine (frame hcells).bind fun κ₁ f hle hf => ?_
  -- the frame of the arguments is full, and it is open
  have hnew : ∀ slot < arguments.length, (⟨f, slot⟩ : Cell) ∈ κ₁.assigned := by
    intro slot hslot
    exact hf.2 slot arguments[slot] (by simp [hslot])
  have hfull := (hitems.mono hle.2).extend hlength.symm hnew
  have hstands : Stands κ₁ (crate ++ [arguments.length]) ([0, 1] ++ [f]) (opened ++ [f]) := by
    refine ⟨List.prefix_append .., by simp [hlength], hfull.mono κ₁.assigned_present, fun f' hf' => ?_⟩
    rcases List.mem_append.mp hf' with hf' | hf'
    · exact List.mem_append_left _ (hs.opened f' (hs.outermost.subset hf'))
    · exact List.mem_append_right _ hf'
  refine .catchReturn ((hlower hbody hstands hfull).imp fun κ' v _ hv => ?_) fun _ _ _ hv => hv
  exact hv.2.head

end Eval.Assigns

section Evaluation

variable {crate : List Nat} {references : Bool} {lower : Term 1 → List Nat → List Nat → Eval (Values 1)}

/-- The evaluation of a term in which every slot has a value when it is read, by induction on the reason. -/
theorem Term.Definite.guardedWith_meets (hlower : LowerAssigns crate references lower) (hlength : crate.length = 2)
    {n : Nat} {shape : List Nat} {A B : Set (Nat × Nat)} {t : Term n} (h : t.Definite crate shape A B) {κ : Cells}
    {env opened : List Nat} (hs : Stands κ shape env opened) (hA : Reaching env A κ.assigned) :
    (t.guardedWith ⟨true, references⟩ lower env opened).Assigns crate references κ fun κ' vs =>
      Reaching env B κ'.assigned ∧ vs.All (Value.Certain crate κ') := by
  induction h generalizing κ env opened with
  | unfinished h hB ih =>
    refine (ih hs hA).absurd fun κ' vs σ hσ hvs => ?_
    obtain ⟨f, hf, -⟩ := hvs.1 (0, 0) (hB 0)
    obtain ⟨slot, hslot⟩ := hσ.finite f
    obtain ⟨f', hf', hmem⟩ := hvs.1 (0, slot) (hB slot)
    cases hf.symm.trans hf'
    exact hslot hmem
  | weaken h hsub ih => exact (ih hs hA).imp fun κ' vs _ hvs => ⟨hvs.1.subset hsub, hvs.2⟩
  | nothing => exact .pure ⟨hA, .nil⟩
  | seq hfirst hrest ihfirst ihrest => exact (ihfirst hs hA).bind fun κ' _ hle hB => ihrest (hs.mono hle) hB.1
  | also hfirst hrest ihfirst ihrest =>
    refine (ihfirst hs hA).bind fun κ₁ v hle₁ hv => (ihrest (hs.mono hle₁) hv.1).bind fun κ₂ vs hle₂ hvs => ?_
    exact .pure ⟨hvs.1, .cons (hv.2.head.mono hle₂) hvs.2⟩
  | constant =>
    exact (Eval.Meets.literal _).bind fun κ' v hle hv => .pure ⟨hA.mono hle.2, .single (.of_isFlat hv)⟩
  | load hmem =>
    obtain ⟨f, hf, hc⟩ := hA _ hmem
    refine (Eval.Assigns.cell hf).bind fun κ₁ c hle₁ hc₁ => ?_
    obtain ⟨rfl, rfl⟩ := hc₁
    refine (Eval.Assigns.readOpen hc (fun _ hclosed => ?_) _).bind fun κ₂ v hle₂ hv => ?_
    · exact absurd (hs.opened f (List.mem_of_getElem? hf)) hclosed
    · exact .pure ⟨hA.mono hle₂.2, .single hv⟩
  | store hvalue hslot ihvalue =>
    refine (ihvalue hs hA).bind fun κ₁ v hle₁ hv => ?_
    obtain ⟨f, hf, hc⟩ := (hs.mono hle₁).slots (_, _) hslot
    refine (Eval.Assigns.cell hf).bind fun κ₂ c hle₂ hc₂ => ?_
    obtain ⟨rfl, rfl⟩ := hc₂
    refine (Eval.Assigns.write hc hv.2.head).bind fun κ₃ _ hle₃ hc₃ => .pure ⟨?_, .nil⟩
    rintro p (rfl | hp)
    · exact ⟨f, hf, hc₃⟩
    · exact hv.1.mono hle₃.2 p hp
  | discard hvalue ihvalue => exact (ihvalue hs hA).bind fun κ' v _ hv => .pure ⟨hv.1, .nil⟩
  | unary hoperand ihoperand =>
    refine (ihoperand hs hA).bind fun κ₁ v hle₁ hv => ?_
    refine (Eval.Meets.outcome (Computed.unary _ _)).bind fun κ₂ w hle₂ hw => ?_
    exact .pure ⟨hv.1.mono hle₂.2, .single (.of_isFlat hw)⟩
  | binary hleft hright ihleft ihright =>
    refine (ihleft hs hA).bind fun κ₁ v hle₁ hv => (ihright (hs.mono hle₁) hv.1).bind fun κ₂ w hle₂ hw => ?_
    refine (Eval.Meets.outcome (Computed.binary _ _ _ _)).bind fun κ₃ u hle₃ hu => ?_
    exact .pure ⟨hw.1.mono hle₃.2, .single (.of_isFlat hu)⟩
  | conditional hcondition hthen helse ihcondition ihthen ihelse =>
    refine (ihcondition hs hA).bind fun κ₁ c hle hc => ?_
    split
    · exact ihthen (hs.mono hle) hc.1
    · exact ihelse (hs.mono hle) hc.1
    · exact .fail rfl
  | loop hcondition hbody ihcondition ihbody =>
    refine (ihcondition hs hA).bind fun κ₁ c hle₁ hc => ?_
    split
    · refine (ihbody (hs.mono hle₁) hc.1).bind fun κ₂ _ hle₂ _ => ?_
      exact hlower (.loop hcondition hbody) ((hs.mono hle₁).mono hle₂) (hA.mono (hle₁.trans hle₂).2)
    · exact .pure ⟨hc.1, .single trivial⟩
    · exact .fail rfl
  | call hcallee harguments hcrate ihcallee iharguments =>
    refine (ihcallee hs hA).bind fun κ₁ f hle₁ hf => ?_
    refine (iharguments (hs.mono hle₁) hf.1).bind fun κ₂ vs hle₂ hvs => ?_
    have hs₂ := (hs.mono hle₁).mono hle₂
    have happly := Eval.Assigns.apply hlower hlength hs₂ hvs.1 hcrate (hf.2.head.mono hle₂) hvs.2
    refine happly.bind fun κ₃ v hle₃ hv => ?_
    exact .pure ⟨hvs.1.mono hle₃.2, .single hv⟩
  | returning hvalue ihvalue => exact (ihvalue hs hA).bind fun κ' v _ hv => .returned hv.2.head
  | borrow hmem =>
    obtain ⟨f, hf, hc⟩ := hA _ hmem
    refine (Eval.Assigns.cell hf).bind fun κ₁ c hle₁ hc₁ => ?_
    obtain ⟨rfl, rfl⟩ := hc₁
    refine Eval.Meets.stamp.bind fun κ₂ stamp hle₂ hκ => ?_
    exact .pure ⟨hA.mono hle₂.2, .single (hle₂.2 hc)⟩
  | dereference hreference ihreference =>
    refine (ihreference hs hA).bind fun κ₁ r hle₁ hr => ?_
    have hvalue := hr.2.head
    split
    next stamp mutable c pos heq =>
      rw [heq] at hvalue
      refine (Eval.Assigns.readOpen hvalue (fun hguard _ => hguard) _).bind fun κ₂ v hle₂ hv => ?_
      exact .pure ⟨hr.1.mono hle₂.2, .single hv⟩
    · exact .fail rfl
  | update hreference hvalue ihreference ihvalue =>
    refine (ihreference hs hA).bind fun κ₁ r hle₁ hr => (ihvalue (hs.mono hle₁) hr.1).bind fun κ₂ v hle₂ hv => ?_
    have hcell := hr.2.head.mono hle₂
    split
    next stamp c pos heq =>
      rw [heq] at hcell
      refine (Eval.Assigns.write (κ₂.assigned_present hcell) hv.2.head).bind fun κ₃ _ hle₃ _ => ?_
      exact .pure ⟨hv.1.mono hle₃.2, hv.2.imp fun v hv => hv.mono hle₃⟩
    · exact .fail rfl
    · exact .fail rfl
  | scope hbody ihbody =>
    refine (Eval.Assigns.frame fun v hv => ?_).bind fun κ₁ f hle₁ hf => ?_
    · simp at hv
    have hs₁ := (hs.mono hle₁).extend (f := f) fun slot hslot => hf.1 slot (by simpa using hslot)
    refine (ihbody hs₁ ((hA.mono hle₁.2).append [f])).imp fun κ₂ vs hle₂ hvs => ⟨fun p hp => ?_, hvs.2⟩
    obtain ⟨hB, hout | hbefore⟩ := hp
    · exact (hvs.1.subset (Set.singleton_subset_iff.mpr hB)).of_append
        (fun q hq => by rw [hq, hs.length]; exact hout) p rfl
    · exact (hA.mono (hle₁.trans hle₂).2) p hbefore
  | closure hbody ihbody =>
    refine Eval.Meets.stamp.bind fun κ₁ stamp hle₁ _ => .pure ⟨hA.mono hle₁.2, .single ⟨?_, _, hbody⟩⟩
    exact (hs.outermost.eq_of_length (by simp [hs.length, hlength])).symm

/-- The evaluation of a term in which every slot has a value when it is read, whatever its fuel. -/
theorem Term.Definite.guarded_meets (hlength : crate.length = 2) (fuel : Nat) :
    LowerAssigns crate references (Term.guarded ⟨true, references⟩ fuel) := by
  induction fuel with
  | zero =>
    intro shape A B t h κ env opened hs hA
    exact h.guardedWith_meets (fun _ _ _ _ _ _ _ _ _ _ => .timeout) hlength hs hA
  | succ fuel ih =>
    intro shape A B t h κ env opened hs hA
    exact h.guardedWith_meets ih hlength hs hA

end Evaluation

end Tenure
