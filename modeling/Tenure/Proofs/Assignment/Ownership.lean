import Tenure.Proofs.Assignment.Terms
import Tenure.Proofs.Assignment.Trees

/-!
# Ownership along code generation

A binding that owns a value has been given one. Where the names of some variables are set apart, because let statements
declare them without a value, every other binding in scope has a value too: `Environment.Held` says so of a set of
slots. From one place to a later one the bindings stay as visible as they were, and they own a value that they did not
own only if an assignment names them (`Environment.Gains`).
-/

set_option autoImplicit false

namespace Tenure

namespace Environment

variable {env later last : Environment} {i j : Nat} {names deferred : List Text} {v w : Variable}
  {A B : Set (Nat × Nat)}

/-! ## Slots -/

/-- The binding of a slot. -/
def at? (env : Environment) (frame slot : Nat) : Option Variable := env.frames[frame]?.bind fun f => f[slot]?

theorem at?_map (f : Variable → Variable) (env : Environment) (i j : Nat) :
    (env.map f).at? i j = (env.at? i j).map f := by
  simp only [at?, map, List.getElem?_map]
  cases env.frames[i]? <;> simp

theorem mem_of_at? (h : env.at? i j = some v) : v ∈ env.bindings := by
  obtain ⟨f, hf, hv⟩ := Option.bind_eq_some_iff.mp h
  exact List.mem_flatten.mpr ⟨f, List.mem_of_getElem? hf, List.mem_of_getElem? hv⟩

theorem lt_of_at? (h : env.at? i j = some v) : i < env.depth := by
  obtain ⟨f, hf, -⟩ := Option.bind_eq_some_iff.mp h
  exact (List.getElem?_eq_some_iff.mp hf).1

theorem within_of_at? (h : env.at? i j = some v) : Within env.shape i j := by
  obtain ⟨f, hf, hv⟩ := Option.bind_eq_some_iff.mp h
  exact ⟨f.length, by simp [shape, hf], (List.getElem?_eq_some_iff.mp hv).1⟩

theorem at?_outline (env : Environment) (i j : Nat) :
    (env.outline[i]?.bind fun f => f[j]?) = (env.at? i j).map fun v => (v.id, v.name) := by
  simp only [at?, outline, List.getElem?_map]
  cases env.frames[i]? <;> simp

/-- A slot that is kept has a binding of the same number and the same name before. -/
theorem Keeps.at? (hk : env.Keeps later) (h : later.at? i j = some w) :
    ∃ v, env.at? i j = some v ∧ w.id = v.id ∧ w.name = v.name := by
  have hpair := at?_outline later i j
  rw [hk.1, at?_outline env, h] at hpair
  obtain ⟨v, hv, hvw⟩ := Option.map_eq_some_iff.mp hpair
  exact ⟨v, hv, (congrArg Prod.fst hvw).symm, (congrArg Prod.snd hvw).symm⟩

/-- A slot that is kept has a binding of the same number and the same name later. -/
theorem Keeps.at?_later (hk : env.Keeps later) (h : env.at? i j = some v) :
    ∃ w, later.at? i j = some w ∧ w.id = v.id ∧ w.name = v.name := by
  have hpair := at?_outline env i j
  rw [← hk.1, at?_outline later, h] at hpair
  obtain ⟨w, hw, hvw⟩ := Option.map_eq_some_iff.mp hpair
  exact ⟨w, hw, congrArg Prod.fst hvw, congrArg Prod.snd hvw⟩

theorem Keeps.depth (hk : env.Keeps later) : later.depth = env.depth := by
  simpa [outline, Environment.depth] using congrArg List.length hk.1

/-- Lists in which nothing occurs twice have no element in common. -/
theorem index_eq_of_nodup {α : Type} {fs : List (List α)} (h : fs.flatten.Nodup) {i i' : Nat} {f f' : List α} {a : α}
    (hf : fs[i]? = some f) (hf' : fs[i']? = some f') (ha : a ∈ f) (ha' : a ∈ f') : i = i' := by
  by_contra hne
  wlog hlt : i < i' generalizing i i' f f'
  · exact this hf' hf ha' ha (Ne.symm hne) (by omega)
  obtain ⟨hi, rfl⟩ := List.getElem?_eq_some_iff.mp hf
  obtain ⟨hi', rfl⟩ := List.getElem?_eq_some_iff.mp hf'
  exact List.pairwise_iff_getElem.mp (List.nodup_flatten.mp h).2 i i' hi hi' hlt ha ha'

/-- Bindings of one number are in one slot. -/
theorem Distinct.slot_eq (hd : env.Distinct) {i' j' : Nat} (hv : env.at? i j = some v) (hw : env.at? i' j' = some w)
    (hid : w.id = v.id) : i' = i ∧ j' = j := by
  obtain ⟨f, hf, hj⟩ := Option.bind_eq_some_iff.mp hv
  obtain ⟨f', hf', hj'⟩ := Option.bind_eq_some_iff.mp hw
  have hnodup : (env.frames.map (List.map Variable.id)).flatten.Nodup := by
    simpa [bindings, List.map_flatten] using hd.1
  have hframe : (env.frames.map (List.map Variable.id))[i]? = some (f.map Variable.id) := by simp [hf]
  have hframe' : (env.frames.map (List.map Variable.id))[i']? = some (f'.map Variable.id) := by simp [hf']
  have hmem := List.mem_map_of_mem (f := Variable.id) (List.mem_of_getElem? hj)
  have hmem' := List.mem_map_of_mem (f := Variable.id) (List.mem_of_getElem? hj')
  obtain rfl := index_eq_of_nodup hnodup hframe' hframe hmem' (hid ▸ hmem)
  cases hf.symm.trans hf'
  have hone := (List.nodup_flatten.mp hnodup).1 _ (List.mem_of_getElem? hframe)
  have hget : (f.map Variable.id)[j']? = (f.map Variable.id)[j]? := by
    rw [List.getElem?_map, List.getElem?_map, hj, hj']
    exact congrArg some hid
  exact ⟨rfl, (List.getElem?_inj (by simpa using (List.getElem?_eq_some_iff.mp hj').1) hone).mp hget⟩

theorem at?_of_visible? {name : Text} {f : Frame} {start slot : Nat} (h : f.visible? name start = some (slot, v)) :
    ∃ j, slot = start + j ∧ f[j]? = some v ∧ v.hidden = false := by
  induction f generalizing start with
  | nil => cases h
  | cons w rest ih =>
    rw [Frame.visible?] at h
    split at h
    next hrest =>
      cases h
      obtain ⟨j, rfl, hj, hv⟩ := ih hrest
      exact ⟨j + 1, by omega, hj, hv⟩
    · split at h
      next hw =>
        cases h
        exact ⟨0, rfl, rfl, hw.2⟩
      · cases h

/-- A name that is found is that of a visible binding in the slot to which it is resolved. -/
theorem at?_of_find? {name : Text} {pos : Position} (h : env.find? name = some (pos, v)) :
    ∃ i j, pos = positionOf i j ∧ env.at? i j = some v ∧ v.name = name ∧ v.hidden = false := by
  have hsearch : ∀ (fs : List Frame) (start : Nat), search? name fs start = some (pos, v) →
      ∃ i j, pos = positionOf (start + i : Nat) (j : Nat) ∧ (fs[i]?.bind fun f => f[j]?) = some v ∧
        v.hidden = false := by
    intro fs
    induction fs with
    | nil => intro start h; cases h
    | cons f rest ih =>
      intro start h
      rw [search?] at h
      split at h
      next hrest =>
        cases h
        obtain ⟨i, j, hpos, hv, hhidden⟩ := ih (start + 1) hrest
        exact ⟨i + 1, j, by rw [hpos, Nat.add_right_comm, Nat.add_assoc], hv, hhidden⟩
      · obtain ⟨⟨slot, w⟩, hw, heq⟩ := Option.map_eq_some_iff.mp h
        cases heq
        obtain ⟨j, rfl, hj, hhidden⟩ := at?_of_visible? hw
        exact ⟨0, j, by simp, hj, hhidden⟩
  obtain ⟨i, j, hpos, hv, hhidden⟩ := hsearch env.frames 0 h
  exact ⟨i, j, by simpa using hpos, hv, (mem_of_search? h).2, hhidden⟩

/-- The binding of a let statement is a hidden one of the innermost frame. -/
theorem at?_of_hidden? {name : Text} {slot : Nat} (h : (env.innermost?.getD []).hidden? name 0 = some (slot, v)) :
    env.at? (env.depth - 1) slot = some v ∧ v.name = name := by
  cases hf : env.innermost? with
  | none => simp [hf, Frame.hidden?] at h
  | some f =>
    rw [hf, Option.getD_some] at h
    refine ⟨?_, ?_⟩
    · rw [innermost?, List.getLast?_eq_getElem?] at hf
      rw [at?, Environment.depth, hf]
      simpa using (getElem?_of_hidden? h).2
    · clear hf
      generalize 0 = start at h
      induction f generalizing start with
      | nil => cases h
      | cons w rest ih =>
        rw [Frame.hidden?] at h
        split at h
        next hw =>
          cases h
          exact hw.1
        · exact ih _ h

theorem at?_extend (h : i < env.depth) (slots : List Text) : (env.extend slots).at? i j = env.at? i j := by
  simp only [at?, extend]
  rw [List.getElem?_append_left h]

theorem at?_shrink (h : i < env.depth - 1) : env.shrink.at? i j = env.at? i j := by
  simp only [at?, shrink]
  rw [List.getElem?_dropLast, if_pos (show i < env.frames.length - 1 from h)]

theorem at?_of_shrink (h : env.shrink.at? i j = some v) : env.at? i j = some v ∧ i < env.depth - 1 := by
  have hlt := lt_of_at? h
  simp only [Environment.depth, shrink, List.length_dropLast] at hlt
  exact ⟨at?_shrink hlt ▸ h, hlt⟩

theorem at?_places (env : Environment) (i j : Nat) :
    (env.places[i]?.bind fun f => f[j]?) = (env.at? i j).map Variable.toSlot := by
  simp only [at?, places, List.getElem?_map]
  cases env.frames[i]? <;> simp

theorem frames_hide (env : Environment) (slots : List Text) (flags : List Bool) :
    ((env.extend slots).onInnermost fun f => f.hide flags).frames =
      env.frames ++ [(Frame.ofNames slots env.fresh).hide flags] := by
  unfold onInnermost
  rw [frames_extend_innermost]
  simp [extend]

/-! ## Gained ownership -/

/-- Later the bindings outside some depth are as visible as they were, and own a value that they did not own only if
their names are among some. -/
structure Gains (depth : Nat) (names : List Text) (env later : Environment) : Prop where
  keeps : env.Keeps later
  outer : ∀ i < depth, ∀ j v w, env.at? i j = some v → later.at? i j = some w →
    w.hidden = v.hidden ∧ (w.owns = true → v.owns = true ∨ v.name ∈ names)

namespace Gains

variable {depth : Nat}

theorem refl (env : Environment) : env.Gains depth names env where
  keeps := .refl env
  outer i _ j v w hv hw := by
    cases hv.symm.trans hw
    exact ⟨rfl, .inl⟩

theorem trans (h : env.Gains depth names later) (h' : later.Gains depth names last) :
    env.Gains depth names last where
  keeps := h.keeps.trans h'.keeps
  outer i hi j v u hv hu := by
    obtain ⟨w, hw, -, hname⟩ := h.keeps.at?_later hv
    obtain ⟨hhidden, howns⟩ := h.outer i hi j v w hv hw
    obtain ⟨hhidden', howns'⟩ := h'.outer i hi j w u hw hu
    refine ⟨hhidden'.trans hhidden, fun hown => (howns' hown).elim howns fun hmem => .inr (hname ▸ hmem)⟩

theorem mono {more : List Text} (h : env.Gains depth names later) (hsub : names ⊆ more) :
    env.Gains depth more later :=
  ⟨h.keeps, fun i hi j v w hv hw => (h.outer i hi j v w hv hw).imp_right fun howns hown =>
    (howns hown).imp_right (hsub ·)⟩

theorem of_nil (h : env.Gains depth [] later) : env.Gains depth names later := h.mono (List.nil_subset _)

/-- A change of every binding that names do not see. -/
theorem map {f : Variable → Variable} (hf : Quiet f)
    (howns : ∀ v ∈ env.bindings, (f v).owns = true → v.owns = true ∨ v.name ∈ names) :
    env.Gains depth names (env.map f) where
  keeps := hf.keeps env
  outer i _ j v w hv hw := by
    rw [at?_map, hv] at hw
    cases hw
    exact ⟨(hf v).2.2, howns v (mem_of_at? hv)⟩

theorem update {f : Variable → Variable} (hf : Quiet f) (id : Nat)
    (howns : ∀ v ∈ env.bindings, v.id = id → (f v).owns = true → v.owns = true ∨ v.name ∈ names) :
    env.Gains depth names (env.update id f) :=
  map (quiet_update hf id) fun v hv hown => by
    split at hown
    next hid => exact howns v hv hid hown
    · exact .inl hown

/-- A change of a binding of the innermost frame. -/
theorem innermost {slot : Nat} (hd : env.Distinct) (hv : env.at? (env.depth - 1) slot = some v)
    {f : Variable → Variable} (hf : ∀ w, (f w).id = w.id ∧ (f w).name = w.name) :
    env.Gains (env.depth - 1) names (env.update v.id f) where
  keeps := keeps_update hf env v.id
  outer i hi j u w hu hw := by
    rw [Environment.update, at?_map, hu, Option.map_some] at hw
    split at hw
    next hid => exact absurd (hd.slot_eq hv hu hid).1 (Nat.ne_of_lt hi)
    · cases hw
      exact ⟨rfl, .inl⟩

/-- A frame is opened of which some bindings are hidden. -/
theorem hide (env : Environment) (slots : List Text) (flags : List Bool) :
    (env.extend slots).Gains env.depth names ((env.extend slots).onInnermost fun f => f.hide flags) where
  keeps := keeps_hide env slots flags
  outer i hi j v w hv hw := by
    rw [at?_extend hi] at hv
    rw [at?, frames_hide, List.getElem?_append_left hi] at hw
    cases hv.symm.trans hw
    exact ⟨rfl, .inl⟩

theorem restoreBorrows (env saved : Environment) : env.Gains depth names (env.restoreBorrows saved) :=
  map (quiet_combine (fun _ v => by simp) saved) fun v _ hown => by
    split at hown <;> exact .inl hown

/-- When a frame is closed, what lay outside of it is all that there is. -/
theorem shrink {slots : List Text} (h : (env.extend slots).Gains env.depth names later) :
    env.Gains depth names later.shrink where
  keeps := h.keeps.shrink
  outer i _ j v w hv hw := by
    have hi := lt_of_at? hv
    exact h.outer i hi j v w (at?_extend hi slots ▸ hv) (at?_of_shrink hw).1

/-- Where all bindings are as visible as they were, names stand for what they stood for. -/
theorem places (h : env.Gains env.depth names later) : later.places = env.places := by
  have hslot : ∀ i j : Nat, (later.places[i]?.bind fun f => f[j]?) = env.places[i]?.bind fun f => f[j]? := by
    intro i j
    rw [at?_places, at?_places]
    cases hw : later.at? i j with
    | none =>
      cases hv : env.at? i j with
      | none => rfl
      | some v =>
        obtain ⟨w, hw', -⟩ := h.keeps.at?_later hv
        cases hw.symm.trans hw'
    | some w =>
      obtain ⟨v, hv, -, hname⟩ := h.keeps.at? hw
      have hhidden := (h.outer i (lt_of_at? hv) j v w hv hw).1
      rw [hv]
      simp [Variable.toSlot, hname, hhidden]
  refine List.ext_getElem (by simpa using h.keeps.depth) fun i hi hi' => List.ext_getElem? fun j => ?_
  have hij := hslot i j
  rwa [List.getElem?_eq_getElem hi, List.getElem?_eq_getElem hi'] at hij

end Gains

theorem at?_combine {saved : Environment} (hd : saved.Distinct) (f : Variable → Variable → Variable)
    (hv : env.at? i j = some v) (hw : saved.at? i j = some w) (hid : w.id = v.id) :
    (env.combine saved f).at? i j = some (f w v) := by
  have hget := hd.get? (mem_of_at? hw)
  rw [hid] at hget
  rw [combine, at?_map, hv, Option.map_some, hget]

/-- With ownership and borrows put back, every binding owns what it owned before. -/
theorem Gains.restored {depth : Nat} (h : env.Gains depth names later) (hd : env.Distinct) :
    env.Gains depth [] ((later.restoreOwnership env).restoreBorrows env) where
  keeps := h.keeps.trans ((keeps_restoreOwnership later env).trans (keeps_restoreBorrows _ env))
  outer i hi j v w hv hw := by
    obtain ⟨u, hu, hid, -⟩ := h.keeps.at?_later hv
    have hown := at?_combine hd (fun s v => { v with owns := s.owns }) hu hv hid.symm
    have hborrow := at?_combine hd (fun s v => { v with borrow := s.borrow, shares := s.shares }) hown hv hid.symm
    cases hborrow.symm.trans hw
    exact ⟨(h.outer i hi j v u hv hu).1, .inl⟩

/-! ## Slots with values -/

/-- The visible bindings that own a value, or have a name that is not set apart, are in some slots. -/
def Held (deferred : List Text) (env : Environment) (A : Set (Nat × Nat)) : Prop :=
  ∀ i j v, env.at? i j = some v → v.hidden = false → v.owns = true ∨ v.name ∉ deferred → (i, j) ∈ A

namespace Held

theorem mono (h : env.Held deferred A) (hsub : A ⊆ B) : env.Held deferred B :=
  fun i j v hv hvisible hown => hsub (h i j v hv hvisible hown)

/-- All slots are enough. -/
theorem slots (env : Environment) : env.Held deferred (slotsOf env.shape) := fun _ _ _ hv _ _ => within_of_at? hv

/-- What is gained by names that are not set apart had a value. -/
theorem gains (h : env.Held deferred A) (hg : env.Gains env.depth names later)
    (hnames : ∀ name ∈ names, name ∉ deferred) : later.Held deferred A := by
  intro i j w hw hvisible hown
  obtain ⟨v, hv, -, hname⟩ := hg.keeps.at? hw
  obtain ⟨hhidden, howns⟩ := hg.outer i (lt_of_at? hv) j v w hv hw
  refine h i j v hv (hhidden ▸ hvisible) ?_
  rcases hown with hown | hfree
  · exact (howns hown).imp_right (hnames _)
  · exact .inr (hname ▸ hfree)

/-- A frame of hidden bindings is opened, and more names are set apart. -/
theorem hide (h : env.Held deferred A) {declared : List (Text × Bool)} (hhidden : ∀ d ∈ declared, d.2 = true)
    {more : List Text} (hmore : deferred ⊆ more) :
    ((env.extend (declared.map Prod.fst)).onInnermost fun f => f.hide (declared.map Prod.snd)).Held more A := by
  intro i j v hv hvisible hown
  by_cases hi : i < env.depth
  · rw [at?, frames_hide, List.getElem?_append_left hi] at hv
    exact h i j v hv hvisible (hown.imp_right fun hfree hmem => hfree (hmore hmem))
  · have hslot := at?_places ((env.extend (declared.map Prod.fst)).onInnermost fun f => f.hide (declared.map Prod.snd)) i j
    rw [places_hide, hv, List.getElem?_append_right (by simpa using hi)] at hslot
    obtain ⟨f, hf, hj⟩ := Option.bind_eq_some_iff.mp hslot
    obtain ⟨-, rfl⟩ := (by simpa [List.getElem?_singleton] using hf)
    obtain ⟨d, hd, hdv⟩ := List.mem_map.mp (List.mem_of_getElem? hj)
    have hvd := congrArg Slot.declared hdv
    rw [hhidden d hd, Variable.toSlot, hvisible] at hvd
    cases hvd

/-- A binding is changed, and its slot is one of those with values if it has to be. -/
theorem update (h : env.Held deferred A) (hd : env.Distinct) (hv : env.at? i j = some v) {f : Variable → Variable}
    (hsub : A ⊆ B) (hslot : (f v).owns = true ∨ (f v).name ∉ deferred → (i, j) ∈ B) :
    (env.update v.id f).Held deferred B := by
  intro i' j' w hw hvisible hown
  rw [Environment.update, at?_map] at hw
  obtain ⟨u, hu, rfl⟩ := Option.map_eq_some_iff.mp hw
  split at hvisible
  next hid =>
    obtain ⟨rfl, rfl⟩ := hd.slot_eq hv hu hid
    cases hv.symm.trans hu
    rw [if_pos rfl] at hown
    exact hslot hown
  next hid =>
    rw [if_neg hid] at hown
    exact hsub (h i' j' u hu hvisible hown)

end Held

end Environment

end Tenure
