import Mathlib.Data.List.Nodup
import Mathlib.Data.List.Range
import Tenure.Proofs.Semantics.Term

/-!
# Environments as places

Resolving names needs only a part of a compile-time environment: the names of its slots and which of them are in
scope. `Environment.places` is that part. The rules of ownership and borrowing change the other parts only, so they
leave the places alone. `Environment.outline` holds the numbers and the names of all bindings, which no rule changes
once a frame is open; with distinct numbers, an update by number changes exactly one slot.
-/

set_option autoImplicit false

namespace Tenure

/-- A binding as a slot whose name can be resolved. -/
def Variable.toSlot (v : Variable) : Slot := ⟨v.name, !v.hidden⟩

namespace Environment

/-- The slots of an environment as resolving names sees them. -/
def places (env : Environment) : Places := env.frames.map (List.map Variable.toSlot)

/-- The numbers and names of the bindings of an environment. -/
def outline (env : Environment) : List (List (Nat × Text)) := env.frames.map (List.map fun v => (v.id, v.name))

/-- The number of slots of every frame, outermost first. -/
def shape (env : Environment) : List Nat := env.frames.map List.length

/-- Environments in which no two bindings have one number. -/
def Distinct (env : Environment) : Prop :=
  (env.bindings.map Variable.id).Nodup ∧ ∀ v ∈ env.bindings, v.id < env.fresh

/-- One environment has the bindings of another, and no fewer numbers have been used. -/
def Keeps (env later : Environment) : Prop := later.outline = env.outline ∧ env.fresh ≤ later.fresh

theorem shape_eq_outline (env : Environment) : env.shape = env.outline.map List.length := by
  simp [shape, outline, Function.comp_def]

theorem shape_eq_places (env : Environment) : env.shape = env.places.map List.length := by
  simp [shape, places, Function.comp_def]

theorem ids_eq_outline (env : Environment) :
    env.bindings.map Variable.id = env.outline.flatten.map Prod.fst := by
  simp [bindings, outline, List.map_flatten, Function.comp_def]

@[simp] theorem length_places (env : Environment) : env.places.length = env.depth := by simp [places, depth]

namespace Keeps

theorem refl (env : Environment) : env.Keeps env := ⟨rfl, le_rfl⟩

theorem trans {a b c : Environment} (hab : a.Keeps b) (hbc : b.Keeps c) : a.Keeps c :=
  ⟨hbc.1.trans hab.1, hab.2.trans hbc.2⟩

theorem shape {a b : Environment} (h : a.Keeps b) : b.shape = a.shape := by
  rw [shape_eq_outline, shape_eq_outline, h.1]

/-- Distinct numbers stay distinct. -/
theorem distinct {a b : Environment} (h : a.Keeps b) (ha : a.Distinct) : b.Distinct := by
  have hids : b.bindings.map Variable.id = a.bindings.map Variable.id := by
    rw [ids_eq_outline, ids_eq_outline, h.1]
  refine ⟨hids ▸ ha.1, fun v hv => ?_⟩
  have hmem : v.id ∈ a.bindings.map Variable.id := hids ▸ List.mem_map_of_mem hv
  obtain ⟨w, hw, hwv⟩ := List.mem_map.mp hmem
  have := ha.2 w hw
  have := h.2
  omega

end Keeps

/-! ## Changes that names do not see -/

/-- A change of bindings that leaves their numbers, their names and whether they are in scope. -/
def Quiet (f : Variable → Variable) : Prop := ∀ v, (f v).id = v.id ∧ (f v).name = v.name ∧ (f v).hidden = v.hidden

theorem places_map {f : Variable → Variable} (hf : Quiet f) (env : Environment) : (env.map f).places = env.places := by
  have hslot : Variable.toSlot ∘ f = Variable.toSlot := by
    funext v
    simp [Variable.toSlot, hf v]
  simp [places, map, hslot]

theorem keeps_map {f : Variable → Variable} (hf : ∀ v, (f v).id = v.id ∧ (f v).name = v.name) (env : Environment) :
    env.Keeps (env.map f) := by
  have hpair : (fun v : Variable => (v.id, v.name)) ∘ f = fun v => (v.id, v.name) := by
    funext v
    simp [hf v]
  exact ⟨by simp [outline, map, hpair], le_rfl⟩

theorem Quiet.keeps {f : Variable → Variable} (hf : Quiet f) (env : Environment) : env.Keeps (env.map f) :=
  keeps_map (fun v => ⟨(hf v).1, (hf v).2.1⟩) env

theorem quiet_update {f : Variable → Variable} (hf : Quiet f) (id : Nat) :
    Quiet fun v => if v.id = id then f v else v := by
  intro v
  by_cases h : v.id = id
  · simpa [h] using hf v
  · simp [h]

theorem places_update {f : Variable → Variable} (hf : Quiet f) (env : Environment) (id : Nat) :
    (env.update id f).places = env.places :=
  places_map (quiet_update hf id) env

theorem keeps_update {f : Variable → Variable} (hf : ∀ v, (f v).id = v.id ∧ (f v).name = v.name) (env : Environment)
    (id : Nat) : env.Keeps (env.update id f) := by
  refine keeps_map (fun v => ?_) env
  by_cases h : v.id = id
  · simpa [h] using hf v
  · simp [h]

theorem quiet_combine {f : Variable → Variable → Variable} (hf : ∀ s, Quiet (f s)) (saved : Environment) :
    Quiet fun v => match saved.get? v.id with
      | some s => f s v
      | none => v := by
  intro v
  cases h : saved.get? v.id with
  | none => simp [h]
  | some s => simpa [h] using hf s v

theorem places_combine {f : Variable → Variable → Variable} (hf : ∀ s, Quiet (f s)) (env saved : Environment) :
    (env.combine saved f).places = env.places :=
  places_map (quiet_combine hf saved) env

theorem keeps_combine {f : Variable → Variable → Variable} (hf : ∀ s, Quiet (f s)) (env saved : Environment) :
    env.Keeps (env.combine saved f) :=
  (quiet_combine hf saved).keeps env

@[simp] theorem places_restoreBorrows (env saved : Environment) :
    (env.restoreBorrows saved).places = env.places :=
  places_combine (fun _ v => by simp) env saved

@[simp] theorem places_restoreOwnership (env saved : Environment) :
    (env.restoreOwnership saved).places = env.places :=
  places_combine (fun _ v => by simp) env saved

theorem keeps_restoreBorrows (env saved : Environment) : env.Keeps (env.restoreBorrows saved) :=
  keeps_combine (fun _ v => by simp) env saved

theorem keeps_restoreOwnership (env saved : Environment) : env.Keeps (env.restoreOwnership saved) :=
  keeps_combine (fun _ v => by simp) env saved

/-! ## Opening and closing frames -/

theorem map_toSlot_ofNames (names : List Text) (id : Nat) :
    (Frame.ofNames names id).map Variable.toSlot = names.map fun name => ⟨name, true⟩ := by
  induction names generalizing id with
  | nil => rfl
  | cons name rest ih => simp [Frame.ofNames, Variable.toSlot, ih]

theorem ids_ofNames (names : List Text) (id : Nat) :
    (Frame.ofNames names id).map Variable.id = List.range' id names.length := by
  induction names generalizing id with
  | nil => rfl
  | cons name rest ih => simp [Frame.ofNames, ih, List.range'_succ]

@[simp] theorem length_ofNames (names : List Text) (id : Nat) : (Frame.ofNames names id).length = names.length := by
  simpa using congrArg List.length (ids_ofNames names id)

@[simp] theorem places_extend (env : Environment) (names : List Text) :
    (env.extend names).places = env.places ++ [names.map fun name => ⟨name, true⟩] := by
  simp [places, extend, map_toSlot_ofNames]

@[simp] theorem shape_extend (env : Environment) (names : List Text) :
    (env.extend names).shape = env.shape ++ [names.length] := by
  simp [shape, extend]

@[simp] theorem places_shrink (env : Environment) : env.shrink.places = env.places.dropLast := by
  simp [places, shrink]

@[simp] theorem outline_shrink (env : Environment) : env.shrink.outline = env.outline.dropLast := by
  simp [outline, shrink]

@[simp] theorem fresh_shrink (env : Environment) : env.shrink.fresh = env.fresh := rfl

/-- New bindings get numbers that no other binding has. -/
theorem Distinct.extend {env : Environment} (h : env.Distinct) (names : List Text) : (env.extend names).Distinct := by
  have hids : (env.extend names).bindings.map Variable.id =
      env.bindings.map Variable.id ++ List.range' env.fresh names.length := by
    simp [Environment.extend, bindings, ids_ofNames]
  refine ⟨?_, ?_⟩
  · rw [hids, List.nodup_append]
    refine ⟨h.1, List.nodup_range', ?_⟩
    intro a ha b hb hab
    obtain ⟨v, hv, rfl⟩ := List.mem_map.mp ha
    have hlt := h.2 v hv
    have hle := (List.mem_range'_1.mp hb).1
    omega
  · intro v hv
    have hmem : v.id ∈ env.bindings.map Variable.id ++ List.range' env.fresh names.length :=
      hids ▸ List.mem_map_of_mem hv
    simp only [List.mem_append, List.mem_map, List.mem_range'_1] at hmem
    have hfresh : (env.extend names).fresh = env.fresh + names.length := rfl
    rcases hmem with ⟨w, hw, hwv⟩ | hrange
    · have := h.2 w hw
      omega
    · omega

/-- Closing a frame that was opened leaves the bindings around it. -/
theorem Keeps.shrink {env inner : Environment} {names : List Text} (h : (env.extend names).Keeps inner) :
    env.Keeps inner.shrink := by
  refine ⟨?_, ?_⟩
  · rw [outline_shrink, h.1]
    simp [outline, Environment.extend]
  · have : env.fresh + names.length ≤ inner.fresh := h.2
    simpa using by omega

theorem frames_extend_innermost (env : Environment) (names : List Text) :
    (env.extend names).innermost? = some (Frame.ofNames names env.fresh) := by
  simp [innermost?, extend]

theorem map_toSlot_hide (f : Frame) (flags : List Bool) (h : f.length = flags.length) :
    (f.hide flags).map Variable.toSlot = (f.zip flags).map fun p => ⟨p.1.name, !p.2⟩ := by
  induction f generalizing flags with
  | nil =>
    cases flags <;> simp [Frame.hide]
  | cons v rest ih =>
    cases flags with
    | nil => simp at h
    | cons flag flags =>
      simp only [List.length_cons, Nat.add_right_cancel_iff] at h
      simp [Frame.hide, Variable.toSlot, ih flags h]

theorem map_pair_hide (f : Frame) (flags : List Bool) :
    (f.hide flags).map (fun v => (v.id, v.name)) = f.map fun v => (v.id, v.name) := by
  induction f generalizing flags with
  | nil => cases flags <;> rfl
  | cons v rest ih =>
    cases flags with
    | nil => rfl
    | cons flag flags => simp [Frame.hide, ih]

theorem zip_ofNames (declared : List (Text × Bool)) (id : Nat) :
    ((Frame.ofNames (declared.map Prod.fst) id).zip (declared.map Prod.snd)).map (fun p => (⟨p.1.name, !p.2⟩ : Slot)) =
      declared.map fun d => ⟨d.1, !d.2⟩ := by
  induction declared generalizing id with
  | nil => rfl
  | cons d rest ih => simp [Frame.ofNames, ih]

/-- The places inside a block: the slots of its let statements are not declared yet. -/
theorem places_hide (env : Environment) (declared : List (Text × Bool)) :
    ((env.extend (declared.map Prod.fst)).onInnermost fun f => f.hide (declared.map Prod.snd)).places =
      env.places ++ [declared.map fun d => ⟨d.1, !d.2⟩] := by
  unfold onInnermost
  rw [frames_extend_innermost]
  simp only [places, extend, List.dropLast_concat, List.map_append, List.map_cons, List.map_nil]
  rw [map_toSlot_hide _ _ (by simp), zip_ofNames]

theorem keeps_hide (env : Environment) (names : List Text) (flags : List Bool) :
    (env.extend names).Keeps ((env.extend names).onInnermost fun f => f.hide flags) := by
  unfold onInnermost
  rw [frames_extend_innermost]
  refine ⟨?_, le_rfl⟩
  simp [outline, extend, map_pair_hide]

/-! ## Finding names -/

theorem map_fst_visible? (name : Text) (f : Frame) (start : Nat) :
    (f.visible? name start).map Prod.fst = (Places.lastDeclared? name (f.map Variable.toSlot)).map (start + ·) := by
  induction f generalizing start with
  | nil => rfl
  | cons v rest ih =>
    have hrest := ih (start + 1)
    rw [Frame.visible?, List.map_cons, Places.lastDeclared?]
    cases hv : Frame.visible? name rest (start + 1) with
    | some found =>
      rw [hv] at hrest
      cases hd : Places.lastDeclared? name (rest.map Variable.toSlot) with
      | none => simp [hd] at hrest
      | some j =>
        simp only [hd, Option.map_some, Option.some.injEq] at hrest
        simp only [Option.map_some, Option.some.injEq, hrest]
        omega
    | none =>
      rw [hv] at hrest
      cases hd : Places.lastDeclared? name (rest.map Variable.toSlot) with
      | some j => simp [hd] at hrest
      | none =>
        by_cases hw : v.name = name ∧ v.hidden = false
        · simp [Variable.toSlot, hw]
        · have hslot : ¬(v.toSlot.name = name ∧ v.toSlot.declared = true) := by
            simpa [Variable.toSlot] using hw
          simp only [if_neg hw, if_neg hslot, Option.map_none]

theorem map_fst_search? (name : Text) (frames : List Frame) (start : Nat) :
    (search? name frames start).map Prod.fst =
      (Places.find? name (frames.map (List.map Variable.toSlot))).map fun p => positionOf ↑(start + p.1) ↑p.2 := by
  induction frames generalizing start with
  | nil => rfl
  | cons f rest ih =>
    have hrest := ih (start + 1)
    rw [search?, List.map_cons, Places.find?]
    cases hv : search? name rest (start + 1) with
    | some found =>
      rw [hv] at hrest
      cases hd : Places.find? name (rest.map (List.map Variable.toSlot)) with
      | none => simp [hd] at hrest
      | some place =>
        simp only [hd, Option.map_some, Option.some.injEq] at hrest
        simp only [Option.map_some, Option.some.injEq, hrest]
        rw [show start + 1 + place.1 = start + (place.1 + 1) by omega]
    | none =>
      rw [hv] at hrest
      cases hd : Places.find? name (rest.map (List.map Variable.toSlot)) with
      | some place => simp [hd] at hrest
      | none =>
        have hf := map_fst_visible? name f 0
        cases hvis : Frame.visible? name f 0 with
        | none =>
          cases hlast : Places.lastDeclared? name (f.map Variable.toSlot) with
          | none => simp
          | some j => simp [hvis, hlast] at hf
        | some found =>
          cases hlast : Places.lastDeclared? name (f.map Variable.toSlot) with
          | none => simp [hvis, hlast] at hf
          | some j =>
            simp only [hvis, hlast, Option.map_some, Option.some.injEq, Nat.zero_add] at hf
            simp [hf]

/-- A name that has a position is resolved to the slot of that position. -/
theorem places_find? {env : Environment} {name : Text} {pos : Position} {v : Variable}
    (h : env.find? name = some (pos, v)) :
    ∃ frame slot, env.places.find? name = some (frame, slot) ∧ pos = positionOf frame slot := by
  have hsearch := map_fst_search? name env.frames 0
  rw [show search? name env.frames 0 = some (pos, v) from h] at hsearch
  cases hplace : env.places.find? name with
  | none =>
    rw [places] at hplace
    simp [hplace] at hsearch
  | some place =>
    rw [places] at hplace
    simp only [hplace, Option.map_some, Option.some.injEq, Nat.zero_add] at hsearch
    exact ⟨place.1, place.2, rfl, hsearch⟩

theorem map_fst_hidden? (name : Text) (f : Frame) (start : Nat) :
    (f.hidden? name start).map Prod.fst = (Places.firstUndeclared? name (f.map Variable.toSlot)).map (start + ·) := by
  induction f generalizing start with
  | nil => rfl
  | cons v rest ih =>
    rw [Frame.hidden?, List.map_cons, Places.firstUndeclared?]
    by_cases hw : v.name = name ∧ v.hidden = true
    · simp [Variable.toSlot, hw]
    · have hslot : ¬(v.toSlot.name = name ∧ v.toSlot.declared = false) := by
        simpa [Variable.toSlot] using hw
      simp only [if_neg hw, if_neg hslot, ih, Option.map_map]
      congr 1
      funext j
      simp only [Function.comp_apply]
      omega

theorem getElem?_of_hidden? {name : Text} {f : Frame} {start slot : Nat} {v : Variable}
    (h : f.hidden? name start = some (slot, v)) : start ≤ slot ∧ f[slot - start]? = some v := by
  induction f generalizing start with
  | nil => simp [Frame.hidden?] at h
  | cons w rest ih =>
    rw [Frame.hidden?] at h
    by_cases hw : w.name = name ∧ w.hidden = true
    · simp only [if_pos hw, Option.some.injEq, Prod.mk.injEq] at h
      obtain ⟨rfl, rfl⟩ := h
      simp
    · rw [if_neg hw] at h
      obtain ⟨hle, hget⟩ := ih h
      refine ⟨by omega, ?_⟩
      rw [show slot - start = (slot - (start + 1)) + 1 by omega]
      simpa using hget

/-- The hidden slot of a let statement is the one that its name declares. -/
theorem places_firstUndeclared? {env : Environment} {name : Text} {slot : Nat} {v : Variable}
    (h : (env.innermost?.getD []).hidden? name 0 = some (slot, v)) :
    Places.firstUndeclared? name env.places.innermost = some slot := by
  have hinner : env.places.innermost = (env.innermost?.getD []).map Variable.toSlot := by
    unfold Places.innermost places innermost?
    rw [List.getLast?_map]
    cases env.frames.getLast? <;> rfl
  have hmap := map_fst_hidden? name (env.innermost?.getD []) 0
  rw [h, ← hinner] at hmap
  cases hfirst : Places.firstUndeclared? name env.places.innermost with
  | none => simp [hfirst] at hmap
  | some j =>
    simp only [hfirst, Option.map_some, Option.some.injEq, Nat.zero_add] at hmap
    rw [hmap]

theorem innermost_of_keeps {env later : Environment} (hk : env.Keeps later) {f : Frame}
    (hf : env.innermost? = some f) :
    ∃ outer inner, later.frames = outer ++ [inner] ∧ inner.map Variable.id = f.map Variable.id := by
  have hlast : later.outline.getLast? = env.outline.getLast? := by rw [hk.1]
  unfold outline at hlast
  rw [List.getLast?_map, List.getLast?_map, show env.frames.getLast? = some f from hf] at hlast
  cases hl : later.frames.getLast? with
  | none => simp [hl] at hlast
  | some inner =>
    simp only [hl, Option.map_some, Option.some.injEq] at hlast
    obtain ⟨outer, houter⟩ := List.getLast?_eq_some_iff.mp hl
    refine ⟨outer, inner, houter, ?_⟩
    simpa [Function.comp_def] using congrArg (List.map Prod.fst) hlast

/-- A hidden binding of the innermost frame stays in that frame, and no frame further out has one of its number. -/
theorem innermost_of_hidden? {env later : Environment} {name : Text} {slot : Nat} {v : Variable} (hd : env.Distinct)
    (hk : env.Keeps later) (hslot : (env.innermost?.getD []).hidden? name 0 = some (slot, v)) :
    ∃ outer inner, later.frames = outer ++ [inner] ∧ (inner.map Variable.id)[slot]? = some v.id ∧
      (inner.map Variable.id).Nodup ∧ ∀ fr ∈ outer, ∀ w ∈ fr, w.id ≠ v.id := by
  obtain ⟨f, hf⟩ : ∃ f, env.innermost? = some f := by
    cases hi : env.innermost? with
    | none => simp [hi, Frame.hidden?] at hslot
    | some f => exact ⟨f, rfl⟩
  obtain ⟨outer, inner, hframes, hids⟩ := innermost_of_keeps hk hf
  have hget : f[slot]? = some v := by
    rw [hf] at hslot
    simpa using (getElem?_of_hidden? hslot).2
  have hnodup : ((outer.flatten ++ inner).map Variable.id).Nodup := by
    simpa [bindings, hframes] using (hk.distinct hd).1
  rw [List.map_append, List.nodup_append] at hnodup
  obtain ⟨-, hinner, hapart⟩ := hnodup
  have hid : (inner.map Variable.id)[slot]? = some v.id := by
    rw [hids, List.getElem?_map, hget]
    rfl
  refine ⟨outer, inner, hframes, hid, hinner, fun fr hfr w hw => ?_⟩
  exact hapart w.id (List.mem_map_of_mem (List.mem_flatten.mpr ⟨fr, hfr, hw⟩)) v.id (List.mem_of_getElem? hid)

/-- Bringing the binding of a let statement into scope declares its slot and changes no other one. -/
theorem places_declare {env later : Environment} {name : Text} {slot : Nat} {v : Variable} {g : Variable → Variable}
    (hd : env.Distinct) (hk : env.Keeps later)
    (hslot : (env.innermost?.getD []).hidden? name 0 = some (slot, v))
    (hg : ∀ w, (g w).name = w.name ∧ (g w).hidden = false) :
    (later.update v.id g).places = later.places.declare slot := by
  obtain ⟨outer, inner, hframes, hid, hinner, hapart⟩ := innermost_of_hidden? hd hk hslot
  -- frames further out have no binding of this number
  have houter : outer.map (List.map fun w => if w.id = v.id then g w else w) = outer := by
    refine List.map_congr_left (fun fr hfr => ?_) |>.trans (List.map_id outer)
    refine (List.map_congr_left fun w hw => ?_).trans (List.map_id fr)
    simp [hapart fr hfr w hw]
  -- and in the innermost frame only the slot of the let statement has it
  have hin : (inner.map fun w => if w.id = v.id then g w else w).map Variable.toSlot =
      (inner.map Variable.toSlot).modify slot fun s => { s with declared := true } := by
    refine List.ext_getElem? fun j => ?_
    rw [List.getElem?_map, List.getElem?_map, List.getElem?_modify, List.getElem?_map]
    cases hj : inner[j]? with
    | none => simp
    | some w =>
      have hwid : (inner.map Variable.id)[j]? = some w.id := by simp [hj]
      by_cases hjs : slot = j
      · subst hjs
        have hw : w.id = v.id := Option.some.inj (hwid.symm.trans hid)
        simp [hw, Variable.toSlot, hg w]
      · have hne : w.id ≠ v.id := by
          intro heq
          have hlt : j < (inner.map Variable.id).length := (List.getElem?_eq_some_iff.mp hwid).1
          have := (List.getElem?_inj hlt hinner).mp (hwid.trans (heq ▸ hid.symm))
          exact hjs this.symm
        simp [hne, hjs]
  simp only [update, map, places, hframes, List.map_append, List.map_cons, List.map_nil, houter, hin, Places.declare,
    Places.innermost, List.dropLast_concat, List.getLast?_concat, Option.getD_some]

end Environment

namespace Places

theorem lastDeclared?_lt {name : Text} {f : List Slot} {slot : Nat} (h : lastDeclared? name f = some slot) :
    slot < f.length := by
  induction f generalizing slot with
  | nil => simp [lastDeclared?] at h
  | cons s rest ih =>
    rw [lastDeclared?] at h
    cases hrest : lastDeclared? name rest with
    | some j =>
      simp only [hrest, Option.some.injEq] at h
      have := ih hrest
      simp only [List.length_cons]
      omega
    | none =>
      simp only [hrest] at h
      split at h
      · cases h
        simp
      · cases h

/-- The slot that a name stands for is there. -/
theorem find?_within {name : Text} {p : Places} {frame slot : Nat} (h : p.find? name = some (frame, slot)) :
    ∃ n, (p.map List.length)[frame]? = some n ∧ slot < n := by
  induction p generalizing frame with
  | nil => simp [find?] at h
  | cons f rest ih =>
    rw [find?] at h
    cases hrest : find? name rest with
    | some place =>
      obtain ⟨i, j⟩ := place
      simp only [hrest, Option.some.injEq, Prod.mk.injEq] at h
      obtain ⟨rfl, rfl⟩ := h
      simpa using ih hrest
    | none =>
      simp only [hrest, Option.map_eq_some_iff, Prod.mk.injEq] at h
      obtain ⟨j, hj, rfl, rfl⟩ := h
      exact ⟨f.length, by simp, lastDeclared?_lt hj⟩

theorem firstUndeclared?_lt {name : Text} {f : List Slot} {slot : Nat} (h : firstUndeclared? name f = some slot) :
    slot < f.length := by
  induction f generalizing slot with
  | nil => simp [firstUndeclared?] at h
  | cons s rest ih =>
    rw [firstUndeclared?] at h
    split at h
    · cases h
      simp
    · obtain ⟨j, hj, rfl⟩ := Option.map_eq_some_iff.mp h
      have := ih hj
      simp only [List.length_cons]
      omega

/-- The slot that a let statement declares is one of the innermost frame. -/
theorem firstUndeclared?_within {name : Text} {p : Places} {slot : Nat}
    (h : firstUndeclared? name p.innermost = some slot) :
    ∃ n, (p.map List.length)[p.length - 1]? = some n ∧ slot < n := by
  have hlt := firstUndeclared?_lt h
  cases hp : p.getLast? with
  | none => simp [innermost, hp] at hlt
  | some f =>
    refine ⟨f.length, ?_, by simpa [innermost, hp] using hlt⟩
    rw [List.getElem?_map, ← List.getLast?_eq_getElem?, hp]
    rfl

end Places

end Tenure
