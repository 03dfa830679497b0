import Tenure.Proofs.Lending.Trees
import Tenure.Proofs.Typing.Programs

/-!
# References along name resolution

Resolving names leaves the names of slots as they are. So the roles of slots are the same all along, and the term of a
tree that hands references inward does the same: `Resolve.Hands`, with one lemma for each rule.
-/

set_option autoImplicit false

namespace Tenure

/-- The names of the slots of frames. -/
def Places.names (p : Places) : List (List Text) := p.map (List.map Slot.name)

namespace Places

variable {p : Places} {name : Text} {slot : Nat}

theorem name_of_firstUndeclared? {f : List Slot} (h : firstUndeclared? name f = some slot) :
    (f.map Slot.name)[slot]? = some name := by
  induction f generalizing slot with
  | nil => cases h
  | cons s rest ih =>
    rw [firstUndeclared?] at h
    split at h
    next hname =>
      cases h
      rw [← hname.1]
      rfl
    · obtain ⟨i, hi, rfl⟩ := Option.map_eq_some_iff.mp h
      exact ih hi

/-- The slot that a let statement declares is one of the innermost frame and has its name. -/
theorem name_of_innermost (h : p ≠ []) (hslot : firstUndeclared? name p.innermost = some slot) :
    (p.names[p.length - 1]?.bind fun f => f[slot]?) = some name := by
  obtain ⟨outer, f, rfl⟩ := (List.eq_nil_or_concat' p).resolve_left h
  rw [innermost, List.getLast?_concat, Option.getD_some] at hslot
  have hname := name_of_firstUndeclared? hslot
  simpa [names] using hname

/-- The slot that a name stands for has this name. -/
theorem name_of_place {frame : Nat} (h : p.find? name = some (frame, slot)) :
    (p.names[frame]?.bind fun f => f[slot]?) = some name := by
  obtain ⟨slots, s, hslots, hs, hname⟩ := name_of_find? h
  simp [names, hslots, hs, hname]

/-- Declaring a slot changes no name. -/
theorem names_declare (h : p ≠ []) (slot : Nat) : (p.declare slot).names = p.names := by
  obtain ⟨outer, f, rfl⟩ := (List.eq_nil_or_concat' p).resolve_left h
  have hframe : (f.modify slot fun s => { s with declared := true }).map Slot.name = f.map Slot.name := by
    refine List.ext_getElem? fun i => ?_
    simp only [List.getElem?_map, List.getElem?_modify]
    cases f[i]? with
    | none => rfl
    | some s => by_cases hi : slot = i <;> simp [hi]
  simp [names, declare, innermost, hframe]

end Places

theorem Naming.at?_roles {ν : Naming} {names : List (List Text)} {frame slot : Nat} {name : Text}
    (h : (names[frame]?.bind fun f => f[slot]?) = some name) : (ν.roles names).at? frame slot = some (ν.role name) := by
  obtain ⟨f, hf, hname⟩ := Option.bind_eq_some_iff.mp h
  simp [roles, Roles.at?, hf, hname]

namespace Resolve

/-- A step leaves the names of slots as they are, and its outcome has a property, given these names. -/
def Named {α : Type} (r : Resolve α) (P : List (List Text) → α → Prop) : Prop :=
  ∀ ⦃p p' a⦄, r p = some (a, p') → p'.names = p.names ∧ P p.names a

namespace Named

variable {α β : Type} {r : Resolve α} {P : List (List Text) → α → Prop} {Q : List (List Text) → β → Prop}

theorem pure {a : α} (h : ∀ names, P names a) : Named (pure a) P := by
  intro p p' b hb
  obtain ⟨rfl, rfl⟩ := Resolve.pure_some.mp hb
  exact ⟨rfl, h _⟩

theorem failure : Named failure P := by
  intro p p' a h
  cases h

theorem bind {f : α → Resolve β} (hr : Named r P) (hf : ∀ a, Named (f a) fun names b => P names a → Q names b) :
    Named (r >>= f) Q := by
  intro p p' b h
  obtain ⟨a, p₁, ha, hb⟩ := Resolve.bind_some.mp h
  obtain ⟨hp₁, hP⟩ := hr ha
  obtain ⟨hp', hQ⟩ := hf a hb
  rw [hp₁] at hp' hQ
  exact ⟨hp', hQ hP⟩

theorem lift_bind {x : Inspect α} {f : α → Resolve β} (hf : ∀ a, x = .ok a → Named (f a) Q) :
    Named (liftM x >>= f) Q := by
  intro p p' b h
  obtain ⟨a, ha, hb⟩ := Resolve.lift_bind_some.mp h
  exact hf a ha hb

/-- A name stands for a slot of its role. -/
theorem position (ν : Naming) (name : Text) :
    Named (Resolve.position name) fun names place => (ν.roles names).at? place.1 place.2 = some (ν.role name) := by
  intro p p' place h
  obtain ⟨hfind, rfl⟩ := Resolve.position_some.mp h
  exact ⟨rfl, Naming.at?_roles (Places.name_of_place hfind)⟩

end Named

/-- The terms that name resolution gives hand references inward, and their values have given roles. -/
abbrev Hands (ν : Naming) (crate : Roles) {n : Nat} (r : Resolve (Term n)) (rs : List Role) : Prop :=
  Named r fun names x => x.Inward crate (ν.roles names) rs

/-- Trees that hand references inward have terms that do. -/
def Handing (ν : Naming) (crate : Roles) (visit : Visit) : Prop :=
  ∀ t, t.everywhere (Tree.handsInward ν) = true → Hands ν crate (visit t) [t.role ν]

variable {ν : Naming} {crate : Roles} {visit : Visit} {t : Tree}

/-! ## Expressions -/

section Expressions

theorem unit_hands : Hands ν crate (pure unit) [.plain] := .pure fun _ => .constant

theorem literal_hands : Hands ν crate (literal t) [.plain] := by
  refine .lift_bind fun source _ => ?_
  split
  · exact .pure fun _ => .constant
  · exact .failure

theorem path_hands (name : Text) : Hands ν crate (path name) [ν.role name] :=
  (Named.position ν name).bind fun _ => .pure fun _ hslot => .load hslot

theorem borrow_hands (ht : t.handsInward ν = true) (hform : Form.ofTag t.tag = .borrow) :
    Hands ν crate (borrow t) [.reference] := by
  unfold borrow
  dsimp only
  split
  case h_3 => exact .failure
  all_goals
    refine .lift_bind fun name hname => ?_
    have hrole : ν.role name = .plain := by
      rw [Tree.handsInward, hform] at ht
      dsimp only at ht
      rw [hname] at ht
      exact of_decide_eq_true ht
    refine (Named.position ν name).bind fun place => .lift_bind fun mutable _ => .pure fun names hslot => ?_
    exact .borrow (hrole ▸ hslot)

variable (hv : Handing ν crate visit) (ht : t.everywhere (Tree.handsInward ν) = true)

include hv ht

theorem binary_hands : Hands ν crate (binary visit t) [.plain] := by
  refine .lift_bind fun operands hops => ?_
  have hoperands := Tree.everywhere_operands ht hops
  split
  · refine (hv _ (hoperands _ (by simp))).bind fun x => (hv _ (hoperands _ (by simp))).bind fun y => ?_
    exact .lift_bind fun op _ => .pure fun _ hy hx => .binary hx hy
  · exact .failure

theorem unary_hands : Hands ν crate (unary visit t) [.plain] := by
  refine .lift_bind fun operands hops => ?_
  have hoperands := Tree.everywhere_operands ht hops
  split
  · exact (hv _ (hoperands _ (by simp))).bind fun x => .lift_bind fun op _ => .pure fun _ hx => .unary hx
  · exact .failure

theorem loop_hands : Hands ν crate (loop visit t) [.plain] := by
  refine .lift_bind fun operands hops => ?_
  have hoperands := Tree.everywhere_operands ht hops
  split
  · refine (hv _ (hoperands _ (by simp))).bind fun x => (hv _ (hoperands _ (by simp))).bind fun y => ?_
    exact .pure fun _ hy hx => .loop hx hy
  · exact .failure

/-- A child whose value is that of the whole, which is a reference if that of any child may be. -/
theorem child_hands {e : Tree} (he : e ∈ t.children) :
    Hands ν crate (visit e) [.ofFlag (Tree.anyReference ν t.children)] := by
  intro p p' x hx
  obtain ⟨hnames, hx⟩ := hv e (Tree.everywhere_of_mem ht he) hx
  exact ⟨hnames, .widen hx (Tree.fits_of_mem he)⟩

theorem conditional_hands : Hands ν crate (conditional visit t) [.ofFlag (Tree.anyReference ν t.children)] := by
  refine .lift_bind fun operands hops => ?_
  have hmem : ∀ e ∈ operands, e ∈ t.children := fun e he => Tree.mem_of_select hops he
  split
  next condition thenBranch rest =>
    refine (hv _ (Tree.everywhere_of_mem ht (hmem _ (by simp)))).bind fun c => ?_
    refine (child_hands hv ht (hmem thenBranch (by simp))).bind fun x => ?_
    split
    · have helse : Hands ν crate (pure unit) [.ofFlag (Tree.anyReference ν t.children)] :=
        .pure fun _ => .widen .constant (Role.fits_ofFlag _)
      exact helse.bind fun y => .pure fun _ hy hx hc => .conditional hc hx hy
    · refine (child_hands hv ht (hmem _ (by simp))).bind fun y => ?_
      exact .pure fun _ hy hx hc => .conditional hc hx hy
  · exact .failure

theorem last_hands : Hands ν crate (visit t.last) [t.last.role ν] := hv _ (Tree.everywhere_last ht)

theorem group_hands : Hands ν crate (group visit t) [.ofFlag (Tree.anyReference ν t.children)] := by
  unfold group
  split
  · exact .pure fun _ => .widen .constant (Role.fits_ofFlag _)
  next hempty =>
    have hne : t.children ≠ [] := by simpa using hempty
    refine child_hands hv ht ?_
    rw [Tree.last, List.getLast?_eq_some_getLast hne]
    exact List.getLast_mem hne

theorem wrapper_hands : Hands ν crate (wrapper visit t) [.ofFlag (Tree.anyReference ν t.children)] := by
  unfold wrapper
  split
  next e hchildren => exact child_hands hv ht (by simp [hchildren])
  · exact .failure

theorem dereference_hands : Hands ν crate (dereference visit t) [.plain] :=
  (last_hands hv ht).bind fun _ => .pure fun _ hx => .dereference (.widen hx (Role.fits_reference _))

theorem returning_hands (hform : Form.ofTag t.tag = .returning) (hself : t.handsInward ν = true) {r : Role} :
    Hands ν crate (returning visit t) [r] := by
  rw [Tree.handsInward, hform] at hself
  unfold returning
  split
  · exact (last_hands hv ht).bind fun x => .pure fun _ hx => .returning (.widen hx hself)
  · exact unit_hands.bind fun x => .pure fun _ hx => .returning hx

omit ht in
/-- Arguments fit the roles of parameters. -/
theorem arguments_hands {ts : List Tree} {rs : List Role} (hts : ∀ e ∈ ts, e.everywhere (Tree.handsInward ν) = true)
    (hfits : List.Forall₂ (fun e r => (e.role ν).fits r = true) ts rs) : Hands ν crate (arguments visit ts) rs := by
  induction hfits with
  | nil => exact .pure fun _ => .nothing
  | @cons e r rest rs he _ ih =>
    refine (hv e (hts e (List.mem_cons_self ..))).bind fun x => ?_
    refine (ih fun e he => hts e (List.mem_cons_of_mem _ he)).bind fun y => .pure fun _ hy hx => ?_
    exact .also (.widen hx he) hy

theorem call_hands (hform : Form.ofTag t.tag = .call) (hself : t.handsInward ν = true) :
    Hands ν crate (call visit t) [.plain] := by
  refine .lift_bind fun operands hops => ?_
  have hoperands := Tree.everywhere_operands ht hops
  rw [Tree.handsInward, hform] at hself
  dsimp only at hself
  rw [hops] at hself
  split
  · exact .failure
  next callee rest =>
    dsimp only at hself
    have hrest : ∀ e ∈ rest, e.everywhere (Tree.handsInward ν) = true :=
      fun e he => hoperands e (List.mem_cons_of_mem _ he)
    have hcallee := hv callee (hoperands _ (List.mem_cons_self ..))
    cases hrole : callee.role ν with
    | reference =>
      rw [hrole] at hself
      cases hself
    | plain =>
      rw [hrole] at hself hcallee
      have hall : ∀ e ∈ rest, (e.role ν).fits .plain = true := by simpa [Role.accepts] using hself
      have hfits : List.Forall₂ (fun e r => (e.role ν).fits r = true) rest (rest.map fun _ => .plain) :=
        List.forall₂_map_right_iff.mpr (List.forall₂_same.mpr hall)
      refine hcallee.bind fun f => (arguments_hands hv hrest hfits).bind fun xs => .pure fun _ hxs hf => ?_
      exact .callPlain hf hxs (by simp)
    | function lent =>
      rw [hrole] at hself hcallee
      by_cases hlength : rest.length = lent.length
      · have hall : ∀ a ∈ (rest.map (Tree.role ν)).zip lent, a.1.fits (.ofFlag a.2) = true := by
          simpa [Role.accepts, hlength] using hself
        have hzip : List.Forall₂ (fun r b => Role.fits r (.ofFlag b) = true) (rest.map (Tree.role ν)) lent :=
          List.forall₂_iff_zip.mpr ⟨by simpa using hlength, fun {r b} hmem => hall (r, b) hmem⟩
        have hfits : List.Forall₂ (fun e r => (e.role ν).fits r = true) rest (lent.map .ofFlag) :=
          List.forall₂_map_right_iff.mpr (List.forall₂_map_left_iff.mp hzip)
        refine hcallee.bind fun f => (arguments_hands hv hrest hfits).bind fun xs => .pure fun _ hxs hf => ?_
        exact .call hf hxs fun _ => rfl
      · -- the call fails, whatever the arguments are
        have hfits : List.Forall₂ (fun e r => (e.role ν).fits r = true) rest (rest.map (Tree.role ν)) :=
          List.forall₂_map_right_iff.mpr (List.forall₂_same.mpr fun e _ => Role.fits_refl _)
        refine hcallee.bind fun f => (arguments_hands hv hrest hfits).bind fun xs => .pure fun _ hxs hf => ?_
        exact .call hf hxs fun heq => absurd (by simpa using heq) hlength

theorem assignment_hands (hform : Form.ofTag t.tag = .assignment) (hself : t.handsInward ν = true) :
    Hands ν crate (assignment visit t) [.plain] := by
  refine .lift_bind fun operands hops => ?_
  have hoperands := Tree.everywhere_operands ht hops
  rw [Tree.handsInward, hform] at hself
  dsimp only at hself
  rw [hops] at hself
  split
  next target value =>
    obtain ⟨hspares, hplain⟩ := Bool.and_eq_true_iff.mp hself
    have hvalue := hv value (hoperands _ (by simp))
    have htarget := Tree.everywhere_unwrapped (hoperands target (by simp))
    refine .lift_bind fun form _ => ?_
    split
    case h_3 =>
      refine (last_hands hv htarget).bind fun x => hvalue.bind fun y => .pure fun _ hy hx => ?_
      exact .seq (.discard (.update (.widen hx (Role.fits_reference _)) (.widen hy hplain))) .constant
    case h_4 => exact .failure
    all_goals
      refine .lift_bind fun name hname => (Named.position ν name).bind fun place => ?_
      rw [Tree.sparesFunctions, hname] at hspares
      have hrole := Naming.role_of_not_isFunction (by simpa using hspares)
      refine hvalue.bind fun y => .pure fun _ hy hplace => .seq (.store hplace hy ?_ fun href => ?_) .constant
      · exact hrole ▸ Role.fits_of_plain hplain _
      · exact absurd href (Role.ne_reference_of_plain hplain)
  · exact .failure

theorem compoundAssignment_hands (hform : Form.ofTag t.tag = .compoundAssignment) (hself : t.handsInward ν = true) :
    Hands ν crate (compoundAssignment visit t) [.plain] := by
  refine .lift_bind fun op _ => .lift_bind fun operands hops => ?_
  have hoperands := Tree.everywhere_operands ht hops
  rw [Tree.handsInward, hform] at hself
  dsimp only at hself
  rw [hops] at hself
  split
  next target value =>
    have hvalue := hv value (hoperands _ (by simp))
    have htarget := Tree.everywhere_unwrapped (hoperands target (by simp))
    refine .lift_bind fun form _ => ?_
    split
    case h_3 =>
      refine (last_hands hv htarget).bind fun x => (last_hands hv htarget).bind fun x' => ?_
      refine hvalue.bind fun y => .pure fun _ hy hx' hx => ?_
      have hold := Term.Inward.dereference (.widen hx' (Role.fits_reference _))
      exact .seq (.discard (.update (.widen hx (Role.fits_reference _)) (.binary hold hy))) .constant
    case h_4 => exact .failure
    all_goals
      refine .lift_bind fun name hname => (Named.position ν name).bind fun place => ?_
      dsimp only at hself
      rw [Tree.sparesFunctions, hname] at hself
      have hrole := Naming.role_of_not_isFunction (by simpa using hself)
      refine hvalue.bind fun y => .pure fun _ hy hplace => .seq (.store hplace (.binary (.load hplace) hy) ?_ ?_) .constant
      · exact hrole ▸ Role.fits_ofFlag _
      · exact fun href => Role.noConfusion href
  · exact .failure

end Expressions

/-! ## Statements and blocks -/

section Blocks

theorem letStatement_hands (hv : Handing ν crate visit) (ht : t.everywhere (Tree.handsInward ν) = true)
    (hform : Form.ofTag t.tag = .letStatement) (hself : t.handsInward ν = true) :
    Hands ν crate (letStatement visit t) [] := by
  intro p p' x hx
  obtain ⟨name, hname, hx⟩ := lift_bind_some.mp hx
  rw [bind_apply, get_apply, Option.bind_some] at hx
  cases hslot : Places.firstUndeclared? name p.innermost with
  | none =>
    rw [hslot] at hx
    cases hx
  | some slot =>
    have hne : p ≠ [] := by
      rintro rfl
      cases hslot
    rw [hslot] at hx
    obtain ⟨initial, hinitial, hx⟩ := lift_bind_some.mp hx
    cases initial with
    | none =>
      cases hx
      exact ⟨Places.names_declare hne slot, .nothing⟩
    | some e =>
      obtain ⟨value, p₁, hvalue, hx⟩ := bind_some.mp hx
      obtain ⟨hnames, hvalue⟩ := hv e (Tree.everywhere_of_mem ht (Tree.mem_of_firstWith hinitial)) hvalue
      have hne₁ : p₁ ≠ [] := by
        rintro rfl
        exact hne (List.map_eq_nil_iff.mp hnames.symm)
      cases hx
      have hrole := Naming.at?_roles (ν := ν) (Places.name_of_innermost hne hslot)
      refine ⟨(Places.names_declare hne₁ slot).trans hnames, .store hrole hvalue ?_ fun _ => ?_⟩
      · rw [Tree.handsInward, hform] at hself
        dsimp only at hself
        rw [hname, hinitial] at hself
        exact (Bool.and_eq_true_iff.mp hself).2
      · simpa [Naming.roles, Places.names] using Nat.sub_add_cancel (List.length_pos_iff.mpr hne)

theorem statement_hands (hv : Handing ν crate visit) (ht : t.everywhere (Tree.handsInward ν) = true) :
    Hands ν crate (statement visit t) [] := by
  have heffect : ∀ e : Tree, e.everywhere (Tree.handsInward ν) = true →
      Hands ν crate (do return .discard (← visit e)) [] := fun e he =>
    (hv e he).bind fun x => .pure fun _ hx => .discard hx
  refine .lift_bind fun form hform => ?_
  have hself := Tree.self_of_everywhere ht ⟨form, hform⟩
  split
  · exact letStatement_hands hv ht (Tree.ofTag_of_form hform) hself
  · split
    · exact heffect _ (Tree.everywhere_last ht)
    · exact .pure fun _ => .nothing
  · exact heffect t ht

theorem statements_hands (hv : Handing ν crate visit) {ts : List Tree}
    (hts : ∀ e ∈ ts, e.everywhere (Tree.handsInward ν) = true) : Hands ν crate (statements visit ts) [] := by
  induction ts with
  | nil => exact .pure fun _ => .nothing
  | cons e rest ih =>
    refine (statement_hands hv (hts e (List.mem_cons_self ..))).bind fun x => ?_
    exact (ih fun e he => hts e (List.mem_cons_of_mem _ he)).bind fun y => .pure fun _ hy hx => .seq hx hy

/-- The parts of a resolved block in which no function stands. -/
theorem block_some {p p' : Places} {x : Term 1} (hitems : ∀ e ∈ t.children, Form.ofTag e.tag ≠ .function)
    (h : block visit t p = some (x, p')) :
    ∃ (declared : List (Text × Bool)) (others : List Tree) (body : Term 0) (value : Term 1) (p₁ p₂ : Places),
      (∀ e ∈ others, e ∈ t.children) ∧
      statements visit others (p ++ [declared.map fun d => ⟨d.1, !d.2⟩]) = some (body, p₁) ∧
      ((value = unit ∧ p₂ = p₁) ∨ ∃ e, Compile.tail? t = some e ∧ visit e p₁ = some (value, p₂)) ∧
      p' = p₂.dropLast ∧ x = .scope declared.length (.seq .nothing (.seq body value)) := by
  obtain ⟨declared, -, h⟩ := lift_bind_some.mp h
  obtain ⟨_, _, hopen, h⟩ := bind_some.mp h
  cases hopen
  obtain ⟨items, hselect, h⟩ := lift_bind_some.mp h
  have hempty : items = [] := by
    refine List.eq_nil_iff_forall_not_mem.mpr fun e he => hitems e (Tree.mem_of_select hselect he) ?_
    exact of_decide_eq_true (Tree.passes_of_select hselect he)
  subst hempty
  obtain ⟨_, _, hnothing, h⟩ := bind_some.mp h
  cases hnothing
  obtain ⟨others, hothers, h⟩ := lift_bind_some.mp h
  obtain ⟨body, p₁, hbody, h⟩ := bind_some.mp h
  refine ⟨declared, others, body, ?_⟩
  have hinside : ∀ e ∈ others, e ∈ t.children := fun e he => by
    have hmem := Tree.mem_of_select hothers he
    split at hmem
    · exact (List.dropLast_sublist _).subset hmem
    · exact hmem
  cases htail : Compile.tail? t with
  | none =>
    rw [htail] at h
    cases h
    exact ⟨unit, p₁, p₁, hinside, hbody, .inl ⟨rfl, rfl⟩, rfl, rfl⟩
  | some e =>
    rw [htail] at h
    obtain ⟨value, p₂, hvalue, h⟩ := bind_some.mp h
    cases h
    exact ⟨value, p₁, p₂, hinside, hbody, .inr ⟨e, rfl, hvalue⟩, rfl, rfl⟩

theorem block_hands (hv : Handing ν crate visit) (ht : t.everywhere (Tree.handsInward ν) = true)
    (hform : Form.ofTag t.tag = .block) (hself : t.handsInward ν = true) : Hands ν crate (block visit t) [.plain] := by
  rw [Tree.handsInward, hform] at hself
  obtain ⟨hitems, htail⟩ := Bool.and_eq_true_iff.mp hself
  clear hself
  intro p p' x hx
  obtain ⟨declared, others, body, value, p₁, p₂, hothers, hbody, hvalue, rfl, rfl⟩ :=
    block_some (by simpa using hitems) hx
  obtain ⟨hp₁, hbody⟩ := statements_hands hv (fun e he => Tree.everywhere_of_mem ht (hothers e he)) hbody
  have hend : p₂.names = p₁.names ∧ value.Inward crate (ν.roles p₁.names) [.plain] := by
    rcases hvalue with ⟨rfl, rfl⟩ | ⟨e, he, hvalue⟩
    · exact ⟨rfl, .constant⟩
    · obtain ⟨hp₂, hvalue⟩ := hv e (Tree.everywhere_of_mem ht (Compile.mem_of_tail? he)) hvalue
      rw [he] at htail
      exact ⟨hp₂, .widen hvalue htail⟩
  obtain ⟨hp₂, hvalue⟩ := hend
  have hopen : Places.names (p ++ [declared.map fun d => ⟨d.1, !d.2⟩]) = p.names ++ [declared.map Prod.fst] := by
    simp [Places.names, Function.comp_def]
  have hroles : ν.roles (p.names ++ [declared.map Prod.fst]) =
      ν.roles p.names ++ [(declared.map Prod.fst).map ν.role] := by
    simp [Naming.roles]
  rw [hopen] at hp₁ hbody
  rw [hp₁] at hp₂ hvalue
  rw [hroles] at hbody hvalue
  refine ⟨?_, .scope (by simp) (.seq .nothing (.seq hbody hvalue))⟩
  have hclose : Places.names p₂.dropLast = p₂.names.dropLast := by simp [Places.names]
  rw [hclose, hp₂, List.dropLast_concat]

end Blocks

/-! ## Rules -/

/-- The term of a node of any form. -/
theorem rule_hands (hv : Handing ν crate visit) {tag : Text} {children : List Tree} {val : Payload} {type : Text}
    (ht : (Tree.node tag children val type).everywhere (Tree.handsInward ν) = true) :
    Hands ν crate (rule visit (Form.ofTag tag) (.node tag children val type))
      [(Tree.node tag children val type).role ν] := by
  have hself := Tree.self_of_everywhere ht ⟨Form.ofTag tag, rfl⟩
  rw [Tree.role]
  generalize hform : Form.ofTag tag = form
  replace hform : Form.ofTag (Tree.node tag children val type).tag = form := hform
  cases form with
  | literal => exact literal_hands
  | path | identifier =>
    refine .lift_bind fun name hname => ?_
    dsimp only
    rw [hname]
    exact path_hands name
  | block => exact block_hands hv ht hform hself
  | grouped => exact group_hands hv ht
  | arithmetic | comparison | lazyBoolean => exact binary_hands hv ht
  | negation => exact unary_hands hv ht
  | conditional => exact conditional_hands hv ht
  | loop => exact loop_hands hv ht
  | call => exact call_hands hv ht hform hself
  | returning => exact returning_hands hv ht hform hself
  | assignment => exact assignment_hands hv ht hform hself
  | compoundAssignment => exact compoundAssignment_hands hv ht hform hself
  | borrow => exact borrow_hands hself hform
  | dereference => exact dereference_hands hv ht
  | letStatement | expressionStatement =>
    exact (statement_hands hv ht).bind fun x => .pure fun _ hx => .seq hx .constant
  | crate | function | parameters | parameter | ascription | terminal | other => exact wrapper_hands hv ht

/-- Trees that hand references inward have terms that do, by induction on the depth. -/
theorem toDepth_hands (depth : Nat) : Handing ν crate (toDepth depth) := by
  induction depth with
  | zero => exact fun t _ => .failure
  | succ depth ih =>
    intro t ht
    cases t with
    | absent => exact .failure
    | node tag children val type => exact rule_hands ih ht

end Resolve

end Tenure
