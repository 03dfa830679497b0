import Tenure.Proofs.Assignment.Soundness
import Tenure.Proofs.Lending.Terms

/-!
# Soundness of handing references inward

Where a term hands references inward only, its evaluation accesses cells of open frames only, whichever accesses are
guarded: `Term.Inward.guarded_meets`. New frames have the greatest numbers. So it is enough that the cells of an open
frame hold references to open frames with no greater number: what is left when the innermost frame is closed has no
reference to it.
-/

set_option autoImplicit false

namespace Tenure

/-! ## Values -/

/-- A value has a role, given the roles of all slots. References are to frames of a set, and functions are those of a
crate. -/
def Value.Inward (crate Δ : Roles) (F : Set Nat) : Value → Role → Prop
  | .reference _ _ c _, r => r = .reference ∧ Δ.at? c.frame c.slot = some .plain ∧ c.frame ∈ F
  | .closure _ arity body env, r =>
    env = [0, 1] ∧ ∃ lent : List Bool, lent.length = arity ∧
      body.Inward crate (crate ++ [lent.map .ofFlag]) [.plain] ∧ ∀ lent', r = .function lent' → lent' = lent
  | _, r => ∀ lent, r ≠ .function lent

namespace Value.Inward

variable {crate Δ Δ' : Roles} {F F' : Set Nat} {v : Value} {r r' : Role}

theorem mono (h : v.Inward crate Δ F r) (hΔ : Δ <+: Δ') (hF : F ⊆ F') : v.Inward crate Δ' F' r := by
  cases v with
  | reference => exact ⟨h.1, Roles.at?_mono hΔ h.2.1, hF h.2.2⟩
  | _ => exact h

theorem later (h : v.Inward crate Δ F r) (hΔ : Δ <+: Δ') : v.Inward crate Δ' F r := h.mono hΔ (Set.Subset.refl F)

/-- What is no reference is in no frame. -/
theorem of_ne (h : v.Inward crate Δ F r) (hr : r ≠ .reference) (F' : Set Nat) : v.Inward crate Δ F' r := by
  cases v with
  | reference => exact absurd h.1 hr
  | _ => exact h

theorem plain (h : v.Inward crate Δ F .plain) (F' : Set Nat) : v.Inward crate Δ F' .plain :=
  h.of_ne (fun hr => Role.noConfusion hr) F'

theorem widen (h : v.Inward crate Δ F r) (hfits : r.fits r' = true) : v.Inward crate Δ F r' := by
  cases v with
  | reference =>
    obtain ⟨rfl, hcell, hF⟩ := h
    cases r' with
    | reference => exact ⟨rfl, hcell, hF⟩
    | plain => cases hfits
    | function lent => cases Role.eq_of_fits_function hfits
  | closure =>
    obtain ⟨henv, lent, hlength, hbody, hlent⟩ := h
    refine ⟨henv, lent, hlength, hbody, fun lent' hr' => hlent lent' ?_⟩
    subst hr'
    exact Role.eq_of_fits_function hfits
  | _ =>
    rintro lent rfl
    exact h lent (Role.eq_of_fits_function hfits)

theorem of_isFlat (h : v.isFlat = true) : v.Inward crate Δ F .plain := by
  cases v with
  | closure | reference => cases h
  | _ => exact fun lent hr => Role.noConfusion hr

end Value.Inward

/-- The values that a term leaves have given roles. -/
def Values.Inward (crate Δ : Roles) (F : Set Nat) {n : Nat} (vs : Values n) (rs : List Role) : Prop :=
  List.Forall₂ (Value.Inward crate Δ F) vs.toList rs

namespace Values.Inward

variable {crate Δ Δ' : Roles} {F F' : Set Nat} {n : Nat} {v : Value} {vs : Values n} {r : Role} {rs : List Role}

theorem mono (h : vs.Inward crate Δ F rs) (hΔ : Δ <+: Δ') (hF : F ⊆ F') : vs.Inward crate Δ' F' rs :=
  List.Forall₂.imp (fun _ _ hv => hv.mono hΔ hF) h

theorem cons (hv : v.Inward crate Δ F r) (hvs : vs.Inward crate Δ F rs) :
    Values.Inward crate Δ F (.cons v vs) (r :: rs) := by
  rw [Values.Inward, List.Vector.toList_cons]
  exact .cons hv hvs

theorem single (hv : v.Inward crate Δ F r) : Values.Inward crate Δ F (.cons v .nil) [r] := cons hv .nil

theorem head {vs : Values 1} (h : vs.Inward crate Δ F [r]) : vs.head.Inward crate Δ F r := by
  obtain ⟨vs, hlength⟩ := vs
  cases h with
  | cons hv _ => exact hv

theorem all_plain (h : vs.Inward crate Δ F rs) (hrs : ∀ r ∈ rs, r = .plain) :
    ∀ v ∈ vs.toList, v.Inward crate Δ F .plain := by
  intro v hv
  obtain ⟨i, hi, rfl⟩ := List.getElem_of_mem hv
  obtain ⟨hlength, hall⟩ := List.forall₂_iff_get.mp h
  have hi' : i < rs.length := hlength ▸ hi
  exact hrs _ (List.getElem_mem hi') ▸ hall i hi hi'

/-- One value of another role. -/
theorem map {vs : Values 1} {r' : Role} (h : vs.Inward crate Δ F [r])
    (hv : ∀ v : Value, v.Inward crate Δ F r → v.Inward crate Δ' F' r') : vs.Inward crate Δ' F' [r'] := by
  have hhead := hv _ h.head
  obtain ⟨vs, hlength⟩ := vs
  cases h with
  | cons _ hnil =>
    cases hnil
    exact List.Forall₂.cons hhead .nil

end Values.Inward

/-! ## Stores -/

/-- The cells of a store that belong to open frames hold values of their roles, and a reference in such a cell is to an
open frame that is no newer. -/
structure Store.Inward (crate : Roles) (opened : List Nat) (Δ : Roles) (σ : Store) : Prop where
  shape : σ.frames.map List.length = Δ.map List.length
  values : ∀ c v r, c.frame ∈ opened → σ.cell? c = some (some v) → Δ.at? c.frame c.slot = some r →
    v.Inward crate Δ {f | f ∈ opened ∧ f ≤ c.frame} r

namespace Store.Inward

variable {crate Δ : Roles} {opened : List Nat} {σ : Store} {c : Cell} {v : Value} {r : Role} {g : Nat}

theorem length (h : σ.Inward crate opened Δ) : σ.frames.length = Δ.length := by
  simpa using congrArg List.length h.shape

/-- A slot that has a role is there. -/
theorem present (h : σ.Inward crate opened Δ) (hc : Δ.at? c.frame c.slot = some r) :
    ∃ content, σ.cell? c = some content := by
  obtain ⟨rs, hrs, hr⟩ := Option.bind_eq_some_iff.mp hc
  have hcells : (σ.frames.map List.length)[c.frame]? = some rs.length := by
    rw [h.shape, List.getElem?_map, hrs, Option.map_some]
  rw [List.getElem?_map, Option.map_eq_some_iff] at hcells
  obtain ⟨cells, hcells, hlength⟩ := hcells
  have hlt : c.slot < cells.length := hlength ▸ (List.getElem?_eq_some_iff.mp hr).1
  exact ⟨cells[c.slot], by simp [cell?, hcells, hlt]⟩

theorem stamp (h : σ.Inward crate opened Δ) (n : Nat) : Store.Inward crate opened Δ { σ with stamps := n } :=
  ⟨h.shape, h.values⟩

/-- A cell is given a value of its role, and no reference to a newer frame. -/
theorem write (h : σ.Inward crate opened Δ) (hc : Δ.at? c.frame c.slot = some r)
    (hv : v.Inward crate Δ {f | f ∈ opened ∧ f ≤ c.frame} r) : (σ.write c v).Inward crate opened Δ where
  shape := by
    rw [← h.shape]
    refine List.ext_getElem? fun i => ?_
    simp only [Store.write, List.getElem?_map, List.getElem?_modify]
    by_cases hi : c.frame = i
    · cases σ.frames[i]? <;> simp [hi]
    · cases σ.frames[i]? <;> simp [hi]
  values c' v' r' hopen hv' hr' := by
    by_cases hsame : c = c'
    · subst hsame
      obtain ⟨content, hcontent⟩ := h.present hc
      have hself : (σ.write c v).cell? c = some (some v) := cell?_write_self (by rw [hcontent]; rfl)
      cases hself.symm.trans hv'
      cases hc.symm.trans hr'
      exact hv
    · rw [cell?_write_of_ne hsame] at hv'
      exact h.values c' v' r' hopen hv' hr'

/-- A frame is opened whose cells hold values of their roles. -/
theorem extend (h : σ.Inward crate opened Δ) (hbound : ∀ f ∈ opened, f < Δ.length) {cells : List (Option Value)}
    {rs : List Role} (hlength : cells.length = rs.length)
    (hcells : ∀ (slot : Nat) (v : Value) r, cells[slot]? = some (some v) → rs[slot]? = some r →
      v.Inward crate Δ {f | f ∈ opened} r) :
    (σ.extend cells).Inward crate (opened ++ [Δ.length]) (Δ ++ [rs]) where
  shape := by simp [Store.extend, h.shape, hlength]
  values c v r hopen hv hr := by
    rcases cell?_extend_cases hv with hold | ⟨hframe, hnew⟩
    · have hlt : c.frame < Δ.length := by
        obtain ⟨cells', hcells', -⟩ := Option.bind_eq_some_iff.mp hold
        exact h.length ▸ (List.getElem?_eq_some_iff.mp hcells').1
      have hopen' : c.frame ∈ opened := by
        rcases List.mem_append.mp hopen with hopen | hopen
        · exact hopen
        · rw [List.mem_singleton] at hopen
          omega
      have hr' : Δ.at? c.frame c.slot = some r := by rwa [Roles.at?, List.getElem?_append_left hlt] at hr
      refine (h.values c v r hopen' hold hr').mono (List.prefix_append ..) fun f hf => ?_
      exact ⟨List.mem_append_left _ hf.1, hf.2⟩
    · rw [h.length] at hframe
      rw [hframe, Roles.at?_append_last] at hr
      refine (hcells c.slot v r hnew hr).mono (List.prefix_append ..) fun f hf => ⟨List.mem_append_left _ hf, ?_⟩
      exact hframe ▸ (hbound f hf).le

/-- The newest open frame is closed. -/
theorem close (h : σ.Inward crate (opened ++ [g]) Δ) (hbound : ∀ f ∈ opened, f < g) : σ.Inward crate opened Δ where
  shape := h.shape
  values c v r hopen hv hr := by
    refine (h.values c v r (List.mem_append_left _ hopen) hv hr).mono List.prefix_rfl fun f hf => ⟨?_, hf.2⟩
    rcases List.mem_append.mp hf.1 with hmem | hmem
    · exact hmem
    · have hle : f ≤ c.frame := hf.2
      have hlt := hbound c.frame hopen
      rw [List.mem_singleton] at hmem
      omega

end Store.Inward

/-! ## Places of an evaluation -/

/-- The frames of an environment are open and have roles, the outermost ones are those of the crate, and no open frame is
newer than the innermost one. -/
structure Situated (crate Δ Γ : Roles) (env opened : List Nat) : Prop where
  base : crate <+: Δ
  outermost : [0, 1] <+: env
  roles : List.Forall₂ (fun f rs => Δ[f]? = some rs) env Γ
  opens : ∀ f ∈ env, f ∈ opened
  innermost : ∀ f ∈ opened, ∀ g, env.getLast? = some g → f ≤ g

namespace Situated

variable {crate Δ Δ' Γ : Roles} {env opened : List Nat} {frame slot : Nat} {r : Role}

theorem mono (h : Situated crate Δ Γ env opened) (hΔ : Δ <+: Δ') : Situated crate Δ' Γ env opened where
  base := h.base.trans hΔ
  outermost := h.outermost
  roles := List.Forall₂.imp (fun f rs hrs => by
    obtain ⟨more, rfl⟩ := hΔ
    rw [List.getElem?_append_left (List.getElem?_eq_some_iff.mp hrs).1, hrs]) h.roles
  opens := h.opens
  innermost := h.innermost

/-- A slot of the environment is one of an open frame. -/
theorem at? (h : Situated crate Δ Γ env opened) (hslot : Γ.at? frame slot = some r) :
    ∃ f, env[frame]? = some f ∧ f ∈ opened ∧ Δ.at? f slot = some r := by
  obtain ⟨rs, hrs, hr⟩ := Option.bind_eq_some_iff.mp hslot
  obtain ⟨hlt, rfl⟩ := List.getElem?_eq_some_iff.mp hrs
  have hlt' : frame < env.length := h.roles.length_eq.symm ▸ hlt
  have hrole := (List.forall₂_iff_get.mp h.roles).2 frame hlt' hlt
  refine ⟨env[frame], List.getElem?_eq_getElem hlt', h.opens _ (List.getElem_mem hlt'), ?_⟩
  simp only [List.get_eq_getElem] at hrole
  rw [Roles.at?, hrole]
  exact hr

/-- All open frames are there. -/
theorem bound (h : Situated crate Δ Γ env opened) : ∀ f ∈ opened, f < Δ.length := by
  intro f hf
  have hne : env ≠ [] := by
    rintro rfl
    cases h.outermost.length_le
  have hle := h.innermost f hf _ (List.getLast?_eq_some_getLast hne)
  obtain ⟨i, hi, heq⟩ := List.getElem_of_mem (List.getLast_mem hne)
  have hrole := (List.forall₂_iff_get.mp h.roles).2 i hi (h.roles.length_eq ▸ hi)
  simp only [List.get_eq_getElem, heq] at hrole
  exact lt_of_le_of_lt hle (List.getElem?_eq_some_iff.mp hrole).1

/-- A frame is opened inside an environment of open frames. -/
theorem enter (h : Situated crate Δ Γ env opened) {inner : List Nat} {Γ' : Roles} (houtermost : [0, 1] <+: inner)
    (hopens : ∀ f ∈ inner, f ∈ opened) (hroles : List.Forall₂ (fun f rs => Δ[f]? = some rs) inner Γ') (rs : List Role) :
    Situated crate (Δ ++ [rs]) (Γ' ++ [rs]) (inner ++ [Δ.length]) (opened ++ [Δ.length]) where
  base := h.base.trans (List.prefix_append ..)
  outermost := houtermost.trans (List.prefix_append ..)
  roles := by
    refine List.rel_append (List.Forall₂.imp (fun f rs hrs => ?_) hroles) (.cons (by simp) .nil)
    rw [List.getElem?_append_left (List.getElem?_eq_some_iff.mp hrs).1, hrs]
  opens f hf := by
    rcases List.mem_append.mp hf with hf | hf
    · exact List.mem_append_left _ (hopens f hf)
    · exact List.mem_append_right _ hf
  innermost f hf g hg := by
    rw [List.getLast?_concat] at hg
    cases hg
    rcases List.mem_append.mp hf with hf | hf
    · exact (h.bound f hf).le
    · exact (List.mem_singleton.mp hf).le

theorem extend (h : Situated crate Δ Γ env opened) (rs : List Role) :
    Situated crate (Δ ++ [rs]) (Γ ++ [rs]) (env ++ [Δ.length]) (opened ++ [Δ.length]) :=
  h.enter h.outermost h.opens h.roles rs

/-- A function of the crate is entered from anywhere. -/
theorem called (h : Situated crate Δ Γ env opened) (hcrate : crate.length = 2) (rs : List Role) :
    Situated crate (Δ ++ [rs]) (crate ++ [rs]) ([0, 1] ++ [Δ.length]) (opened ++ [Δ.length]) := by
  refine h.enter List.prefix_rfl (fun f hf => h.opens f (h.outermost.subset hf)) ?_ rs
  obtain ⟨builtins, items, rfl⟩ := List.length_eq_two.mp hcrate
  obtain ⟨more, rfl⟩ := h.base
  exact .cons rfl (.cons rfl .nil)

/-- What is stored in a slot is no reference to a newer frame, where references are stored in the innermost frame only. -/
theorem settled (h : Situated crate Δ Γ env opened) {f : Nat} (hf : env[frame]? = some f)
    {v : Value} (hv : v.Inward crate Δ {f | f ∈ opened} r) (hinner : r = .reference → frame + 1 = Γ.length) :
    v.Inward crate Δ {g | g ∈ opened ∧ g ≤ f} r := by
  by_cases hr : r = .reference
  · refine hv.mono List.prefix_rfl fun g hg => ⟨hg, h.innermost g hg f ?_⟩
    rw [List.getLast?_eq_getElem?, h.roles.length_eq, ← hinner hr, Nat.add_sub_cancel, hf]
  · exact hv.of_ne hr _

end Situated

/-! ## Evaluation -/

/-- Evaluation accesses cells of open frames only. -/
def Contract.inward (crate : Roles) (opened : List Nat) : Contract Roles where
  Grows Δ Δ' := Δ <+: Δ'
  Holds Δ σ := σ.Inward crate opened Δ
  Allows e := ∀ pos, e ≠ .unboundSlot pos
  refl _ := List.prefix_rfl
  trans := List.IsPrefix.trans
  stamps n h := h.stamp n
  others e h := by
    rintro pos rfl
    cases h

/-- An evaluation accesses cells of open frames only, and what it returns is no reference. -/
abbrev Eval.StaysInward {α : Type} (crate : Roles) (opened : List Nat) (Δ : Roles) (x : Eval α)
    (Q : Roles → α → Prop) : Prop :=
  x.Meets (Contract.inward crate opened) Δ (fun Δ' v => v.Inward crate Δ' ∅ .plain) Q

/-- Handing references inward is enough for the bodies of calls and the further rounds of loops. -/
def LowerInward (crate : Roles) (lower : Term 1 → List Nat → List Nat → Eval (Values 1)) : Prop :=
  ∀ ⦃Γ : Roles⦄ ⦃t : Term 1⦄ ⦃r : Role⦄, t.Inward crate Γ [r] →
    ∀ ⦃Δ : Roles⦄ ⦃env opened : List Nat⦄, Situated crate Δ Γ env opened →
      (lower t env opened).StaysInward crate opened Δ fun Δ' vs => vs.Inward crate Δ' {f | f ∈ opened} [r]

namespace Eval.StaysInward

variable {α : Type} {crate Δ Γ : Roles} {env opened : List Nat}

/-- A cell of an open frame is read, guarded or not. -/
theorem readOpen {guarded : Bool} {c : Cell} {r : Role} (hopen : c.frame ∈ opened)
    (hc : Δ.at? c.frame c.slot = some r) (pos : Position) :
    (Eval.readOpen guarded opened c pos).StaysInward crate opened Δ fun Δ' v =>
      v.Inward crate Δ' {f | f ∈ opened} r := by
  rw [Eval.readOpen, if_neg fun hguard => hguard.2 hopen]
  intro σ hσ
  obtain ⟨content, hcontent⟩ := hσ.present hc
  rw [Eval.read, Eval.get_bind_apply]
  have hvalues := fun v hv => hσ.values c v r hopen hv hc
  rw [Store.cell?] at hcontent hvalues
  rw [hcontent] at hvalues ⊢
  cases content with
  | none => exact fun pos' heq => by cases heq
  | some v => exact ⟨Δ, List.prefix_rfl, hσ, (hvalues v rfl).mono List.prefix_rfl fun f hf => hf.1⟩

theorem write {c : Cell} {v : Value} {r : Role} (hc : Δ.at? c.frame c.slot = some r)
    (hv : v.Inward crate Δ {f | f ∈ opened ∧ f ≤ c.frame} r) :
    (Eval.write c v).StaysInward crate opened Δ fun _ _ => True :=
  .of_ok (g := fun σ => ((), σ.write c v)) (fun _ => rfl)
    fun _ hσ => ⟨Δ, List.prefix_rfl, hσ.write hc hv, trivial⟩

/-- The cell of a slot. -/
theorem cell {frame slot f : Nat} (hf : env[frame]? = some f) :
    (Eval.cell env frame slot).StaysInward crate opened Δ fun Δ' c => Δ' = Δ ∧ c = ⟨f, slot⟩ := by
  rw [Eval.cell, hf]
  exact .pure ⟨rfl, rfl⟩

/-- An evaluation in a frame of its own. No reference to a slot of the frame is left when it is closed. -/
theorem inFrame {k : Nat → Eval α} {Q R : Roles → α → Prop} {cells : List (Option Value)} {rs : List Role}
    (hbound : ∀ f ∈ opened, f < Δ.length) (hlength : cells.length = rs.length)
    (hcells : ∀ (slot : Nat) (v : Value) r, cells[slot]? = some (some v) → rs[slot]? = some r →
      v.Inward crate Δ {f | f ∈ opened} r)
    (hk : (k Δ.length).StaysInward crate (opened ++ [Δ.length]) (Δ ++ [rs]) Q)
    (hR : ∀ Δ' a, (Δ ++ [rs]) <+: Δ' → Q Δ' a → R Δ' a) :
    (Eval.frame cells >>= k).StaysInward crate opened Δ R := by
  intro σ hσ
  have hk' := hk _ (hσ.extend hbound hlength hcells)
  have hgrows : Δ <+: Δ ++ [rs] := List.prefix_append ..
  show Eval.Settles _ Δ _ R (k σ.frames.length (σ.extend cells))
  rw [hσ.length]
  cases hres : k Δ.length (σ.extend cells) with
  | ok a σ₁ =>
    rw [hres] at hk'
    obtain ⟨Δ', hle, hσ₁, ha⟩ := hk'
    exact ⟨Δ', hgrows.trans hle, hσ₁.close hbound, hR Δ' a hle ha⟩
  | error b σ₁ =>
    rw [hres] at hk'
    cases b with
    | returned v =>
      obtain ⟨Δ', hle, hσ₁, hv⟩ := hk'
      exact ⟨Δ', hgrows.trans hle, hσ₁.close hbound, hv⟩
    | failed e => exact hk'
    | timeout => trivial

variable {lower : Term 1 → List Nat → List Nat → Eval (Values 1)}

/-- The body of a function of the crate, in a frame of its arguments. -/
theorem body (hlower : LowerInward crate lower) (hcrate : crate.length = 2) (hs : Situated crate Δ Γ env opened)
    {lent : List Bool} {body : Term 1} (hbody : body.Inward crate (crate ++ [lent.map .ofFlag]) [.plain])
    {arguments : List Value}
    (harguments : List.Forall₂ (Value.Inward crate Δ {f | f ∈ opened}) arguments (lent.map .ofFlag)) :
    Eval.StaysInward crate opened Δ (do
      let f ← Eval.frame (arguments.map some)
      Eval.catchReturn (Term.opening lower opened body ([0, 1] ++ [f]))) fun Δ' v => v.Inward crate Δ' ∅ .plain := by
  have hlength : (arguments.map some).length = (lent.map Role.ofFlag).length := by simpa using harguments.length_eq
  refine inFrame hs.bound hlength (fun slot v r hv hr => ?_) (.catchReturn ?_ fun _ _ _ hv => hv) fun Δ' v _ hv => hv
  · rw [List.getElem?_map, Option.map_eq_some_iff] at hv
    obtain ⟨w, hw, heq⟩ := hv
    cases heq
    obtain ⟨hlt, rfl⟩ := List.getElem?_eq_some_iff.mp hw
    obtain ⟨hlt', rfl⟩ := List.getElem?_eq_some_iff.mp hr
    exact (List.forall₂_iff_get.mp harguments).2 slot hlt hlt'
  · have hopening : Term.opening lower opened body ([0, 1] ++ [Δ.length]) =
        lower body ([0, 1] ++ [Δ.length]) (opened ++ [Δ.length]) := rfl
    rw [hopening]
    exact (hlower hbody (hs.called hcrate _)).imp fun Δ' vs _ hvs => hvs.head.plain ∅

/-- A function is called with references where it takes them. -/
theorem applyFunction (hlower : LowerInward crate lower) (hcrate : crate.length = 2)
    (hs : Situated crate Δ Γ env opened) {callee : Value} {lent : List Bool}
    (hcallee : callee.Inward crate Δ {f | f ∈ opened} (.function lent)) {arguments : List Value} {rs : List Role}
    (harguments : List.Forall₂ (Value.Inward crate Δ {f | f ∈ opened}) arguments rs)
    (hrs : rs.length = lent.length → rs = lent.map .ofFlag) :
    (Term.apply (Term.opening lower opened) callee arguments).StaysInward crate opened Δ fun Δ' v =>
      v.Inward crate Δ' ∅ .plain := by
  cases callee with
  | closure stamp arity body env' =>
    obtain ⟨rfl, lent', rfl, hbody, hlent⟩ := hcallee
    obtain rfl := hlent _ rfl
    rw [Term.apply]
    split
    · exact .fail rfl
    next harity =>
      rw [hrs (harguments.length_eq ▸ (not_not.mp harity).symm)] at harguments
      exact StaysInward.body hlower hcrate hs hbody harguments
  | reference => cases hcallee.1
  | _ => exact absurd rfl (hcallee lent)

/-- Anything is called without references. -/
theorem applyPlain (hlower : LowerInward crate lower) (hcrate : crate.length = 2)
    (hs : Situated crate Δ Γ env opened) {callee : Value} (hcallee : callee.Inward crate Δ {f | f ∈ opened} .plain)
    {arguments : List Value} (harguments : ∀ v ∈ arguments, v.Inward crate Δ {f | f ∈ opened} .plain) :
    (Term.apply (Term.opening lower opened) callee arguments).StaysInward crate opened Δ fun Δ' v =>
      v.Inward crate Δ' ∅ .plain := by
  refine Eval.Meets.apply (fun Δ' v => .of_isFlat) (fun v hv => (harguments v hv).plain ∅) ?_
  rintro stamp body env' rfl
  obtain ⟨rfl, lent, hlent, hbody, -⟩ := hcallee
  refine StaysInward.body hlower hcrate hs hbody (List.forall₂_iff_get.mpr ⟨by simp [hlent], fun i hi hi' => ?_⟩)
  simp only [List.get_eq_getElem, List.getElem_map]
  exact (harguments _ (List.getElem_mem _)).widen (Role.fits_ofFlag _)

end Eval.StaysInward

section Evaluation

variable {g : Guard} {crate : Roles} {lower : Term 1 → List Nat → List Nat → Eval (Values 1)}

/-- The evaluation of a term that hands references inward only, by induction on the roles of its parts. -/
theorem Term.Inward.guardedWith_meets (hlower : LowerInward crate lower) (hcrate : crate.length = 2) {n : Nat}
    {Γ : Roles} {t : Term n} {rs : List Role} (h : t.Inward crate Γ rs) {Δ : Roles} {env opened : List Nat}
    (hs : Situated crate Δ Γ env opened) :
    (t.guardedWith g lower env opened).StaysInward crate opened Δ fun Δ' vs =>
      vs.Inward crate Δ' {f | f ∈ opened} rs := by
  induction h generalizing Δ env opened with
  | widen h hfits ih => exact (ih hs).imp fun Δ' vs _ hvs => hvs.map fun v hv => hv.widen hfits
  | nothing => exact .pure .nil
  | seq hfirst hrest ihfirst ihrest => exact (ihfirst hs).bind fun Δ' _ hle _ => ihrest (hs.mono hle)
  | also hfirst hrest ihfirst ihrest =>
    refine (ihfirst hs).bind fun Δ₁ v hle₁ hv => (ihrest (hs.mono hle₁)).bind fun Δ₂ vs hle₂ hvs => ?_
    exact .pure (.cons (hv.head.later hle₂) hvs)
  | constant => exact (Eval.Meets.literal _).bind fun Δ' v _ hv => .pure (.single (.of_isFlat hv))
  | load hslot =>
    obtain ⟨f, hf, hopen, hrole⟩ := hs.at? hslot
    refine (Eval.StaysInward.cell hf).bind fun Δ₁ c hle₁ hc => ?_
    obtain ⟨rfl, rfl⟩ := hc
    exact (Eval.StaysInward.readOpen hopen hrole _).bind fun Δ₂ v _ hv => .pure (.single hv)
  | store hslot hvalue hfits hinner ihvalue =>
    refine (ihvalue hs).bind fun Δ₁ v hle₁ hv => ?_
    have hs₁ := hs.mono hle₁
    obtain ⟨f, hf, -, hrole⟩ := hs₁.at? hslot
    refine (Eval.StaysInward.cell hf).bind fun Δ₂ c hle₂ hc => ?_
    obtain ⟨rfl, rfl⟩ := hc
    refine (Eval.StaysInward.write hrole ?_).bind fun Δ₃ _ _ _ => .pure .nil
    exact (hs₁.settled hf hv.head hinner).widen hfits
  | discard hvalue ihvalue => exact (ihvalue hs).bind fun Δ' v _ _ => .pure .nil
  | unary hoperand ihoperand =>
    refine (ihoperand hs).bind fun Δ₁ v _ _ => ?_
    exact (Eval.Meets.outcome (Computed.unary _ _)).bind fun Δ₂ w _ hw => .pure (.single (.of_isFlat hw))
  | binary hleft hright ihleft ihright =>
    refine (ihleft hs).bind fun Δ₁ v hle₁ _ => (ihright (hs.mono hle₁)).bind fun Δ₂ w _ _ => ?_
    exact (Eval.Meets.outcome (Computed.binary _ _ _ _)).bind fun Δ₃ u _ hu => .pure (.single (.of_isFlat hu))
  | conditional hcondition hthen helse ihcondition ihthen ihelse =>
    refine (ihcondition hs).bind fun Δ₁ c hle _ => ?_
    split
    · exact ihthen (hs.mono hle)
    · exact ihelse (hs.mono hle)
    · exact .fail rfl
  | loop hcondition hbody ihcondition ihbody =>
    refine (ihcondition hs).bind fun Δ₁ c hle₁ _ => ?_
    split
    · refine (ihbody (hs.mono hle₁)).bind fun Δ₂ _ hle₂ _ => ?_
      exact hlower (.loop hcondition hbody) ((hs.mono hle₁).mono hle₂)
    · exact .pure (.single (.of_isFlat rfl))
    · exact .fail rfl
  | call hcallee harguments hrs ihcallee iharguments =>
    refine (ihcallee hs).bind fun Δ₁ f hle₁ hf => (iharguments (hs.mono hle₁)).bind fun Δ₂ vs hle₂ hvs => ?_
    have hs₂ := (hs.mono hle₁).mono hle₂
    refine (Eval.StaysInward.applyFunction hlower hcrate hs₂ (hf.head.later hle₂) hvs hrs).bind fun Δ₃ v _ hv => ?_
    exact .pure (.single (hv.plain _))
  | callPlain hcallee harguments hrs ihcallee iharguments =>
    refine (ihcallee hs).bind fun Δ₁ f hle₁ hf => (iharguments (hs.mono hle₁)).bind fun Δ₂ vs hle₂ hvs => ?_
    have hs₂ := (hs.mono hle₁).mono hle₂
    have hplain := hvs.all_plain hrs
    refine (Eval.StaysInward.applyPlain hlower hcrate hs₂ (hf.head.later hle₂) hplain).bind fun Δ₃ v _ hv => ?_
    exact .pure (.single (hv.plain _))
  | returning hvalue ihvalue => exact (ihvalue hs).bind fun Δ' v _ hv => .returned (hv.head.plain ∅)
  | borrow hslot =>
    obtain ⟨f, hf, hopen, hrole⟩ := hs.at? hslot
    refine (Eval.StaysInward.cell hf).bind fun Δ₁ c hle₁ hc => ?_
    obtain ⟨rfl, rfl⟩ := hc
    refine Eval.Meets.stamp.bind fun Δ₂ stamp hle₂ _ => ?_
    exact .pure (.single ⟨rfl, Roles.at?_mono hle₂ hrole, hopen⟩)
  | dereference hreference ihreference =>
    refine (ihreference hs).bind fun Δ₁ r hle₁ hr => ?_
    have hvalue := hr.head
    split
    next stamp mutable c pos heq =>
      rw [heq] at hvalue
      exact (Eval.StaysInward.readOpen hvalue.2.2 hvalue.2.1 _).bind fun Δ₂ v _ hv => .pure (.single hv)
    · exact .fail rfl
  | update hreference hvalue ihreference ihvalue =>
    refine (ihreference hs).bind fun Δ₁ r hle₁ hr => (ihvalue (hs.mono hle₁)).bind fun Δ₂ v hle₂ hv => ?_
    have hcell := hr.head.later hle₂
    split
    next stamp c pos heq =>
      rw [heq] at hcell
      refine (Eval.StaysInward.write hcell.2.1 (hv.head.plain _)).bind fun Δ₃ _ hle₃ _ => ?_
      exact .pure (hv.mono hle₃ (Set.Subset.refl _))
    · exact .fail rfl
    · exact .fail rfl
  | scope hslots hbody ihbody =>
    refine Eval.StaysInward.inFrame hs.bound (by simp [hslots]) (fun slot v r hv => ?_) (ihbody (hs.extend _))
      fun Δ' vs _ hvs => hvs.map fun v hv => hv.plain _
    simp [List.getElem?_replicate] at hv
  | closure harity hbody ihbody =>
    refine Eval.Meets.stamp.bind fun Δ₁ stamp _ _ => .pure (.single ⟨?_, _, harity, hbody, fun lent' hlent => ?_⟩)
    · exact (hs.outermost.eq_of_length (by rw [hs.roles.length_eq, hcrate]; rfl)).symm
    · cases hlent
      rfl

/-- The evaluation of a term that hands references inward only, whatever its fuel. -/
theorem Term.Inward.guarded_meets (hcrate : crate.length = 2) (fuel : Nat) :
    LowerInward crate (Term.guarded g fuel) := by
  induction fuel with
  | zero =>
    intro Γ t r h Δ env opened hs
    exact h.guardedWith_meets (fun _ _ _ _ _ _ _ _ => .timeout) hcrate hs
  | succ fuel ih =>
    intro Γ t r h Δ env opened hs
    exact h.guardedWith_meets ih hcrate hs

end Evaluation

end Tenure
