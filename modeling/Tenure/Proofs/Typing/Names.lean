import Tenure.Proofs.Typing.Checks

/-!
# Names and their types

The checker finds the type of a name in its scopes, name resolution finds its slot in the places around it. The two agree
with a context when the slot that a name stands for has the type that the checker knows (`Agrees`). Declaring a name keeps
this, provided that its slot is the last one declared in its frame.
-/

set_option autoImplicit false

namespace Tenure

/-! ## Slots -/

namespace Places

variable {name other : Text}

/-- The places with a frame more inside. -/
theorem find?_append (q : Places) (frame : List Slot) :
    Places.find? name (q ++ [frame]) =
      ((lastDeclared? name frame).map fun slot => (q.length, slot)).or (Places.find? name q) := by
  induction q with
  | nil =>
    cases h : lastDeclared? name frame <;> simp [Places.find?, h]
  | cons f rest ih =>
    rw [List.cons_append, Places.find?, ih, Places.find?]
    cases lastDeclared? name frame <;> simp

/-- Slots that are not declared do not count. -/
theorem lastDeclared?_append_undeclared (declared : List Slot) {others : List Slot}
    (h : ∀ s ∈ others, s.declared = false) : lastDeclared? name (declared ++ others) = lastDeclared? name declared := by
  have hothers : lastDeclared? name others = none := by
    induction others with
    | nil => rfl
    | cons s rest ih =>
      simp [lastDeclared?, ih fun s hs => h s (List.mem_cons_of_mem _ hs), h s (List.mem_cons_self ..)]
  induction declared with
  | nil => exact hothers
  | cons s rest ih => rw [List.cons_append, lastDeclared?, ih, lastDeclared?]

/-- The slot declared last is the one that its name stands for. -/
theorem lastDeclared?_append_declared (declared : List Slot) :
    lastDeclared? other (declared ++ [⟨name, true⟩]) =
      if other = name then some declared.length else lastDeclared? other declared := by
  induction declared with
  | nil =>
    by_cases h : other = name
    · simp [lastDeclared?, h]
    · simp [lastDeclared?, h, Ne.symm h]
  | cons s rest ih =>
    rw [List.cons_append, lastDeclared?, ih, lastDeclared?]
    by_cases h : other = name
    · simp [h]
    · simp [h]

theorem find?_append_declared (q : Places) (declared : List Slot) :
    Places.find? other (q ++ [declared ++ [⟨name, true⟩]]) =
      if other = name then some (q.length, declared.length) else Places.find? other (q ++ [declared]) := by
  rw [find?_append, lastDeclared?_append_declared, find?_append]
  split <;> rfl

theorem find?_append_undeclared (q : Places) (declared : List Slot) {others : List Slot}
    (h : ∀ s ∈ others, s.declared = false) :
    Places.find? name (q ++ [declared ++ others]) = Places.find? name (q ++ [declared]) := by
  rw [find?_append, lastDeclared?_append_undeclared declared h, find?_append]

theorem find?_append_nil (q : Places) : Places.find? name (q ++ [[]]) = Places.find? name q := by
  rw [find?_append]
  rfl

end Places

/-! ## Scopes -/

namespace Scopes

variable {name other : Text} {s : Scopes}

theorem lookup?_bind (b : Binding) :
    (s.bind name b).lookup? other = if other = name then some b.type else s.lookup? other := by
  have hfind : ∀ scope : Scope, Scope.find? ((name, b) :: scope) other =
      if other = name then some b else Scope.find? scope other := by
    intro scope
    by_cases h : other = name
    · simp [Scope.find?, h]
    · simp [Scope.find?, h, Ne.symm h]
  cases hinner : s.inner with
  | nil =>
    simp only [bind, lookup?, find?, all, hinner, List.nil_append, List.findSome?_cons, hfind]
    by_cases h : other = name
    · simp only [h, if_true, Option.map_some]
    · simp only [h, if_false]
  | cons scope rest =>
    simp only [bind, lookup?, find?, all, hinner, List.cons_append, List.findSome?_cons, hfind]
    by_cases h : other = name
    · simp only [h, if_true, Option.map_some]
    · simp only [h, if_false]

/-- Outside of all inner scopes a global declaration is one in the innermost scope. -/
theorem defineGlobal_eq (h : s.inner = []) (name : Text) (type : Ty) :
    s.defineGlobal name type = s.bind name { type, mutable := false, serial := s.declared } := by
  simp [defineGlobal, bind, h]

theorem lookup?_enter : s.enter.lookup? name = s.lookup? name := rfl

end Scopes

/-! ## Agreement -/

/-- The slots that names stand for have the types that the checker knows. -/
structure Agrees (s : Scopes) (p : Places) (Γ : Context) : Prop where
  length : Γ.length = p.length
  slot : ∀ {name τ frame slot}, s.lookup? name = some τ → p.find? name = some (frame, slot) →
    Γ.at? frame slot = some (some τ)

namespace Agrees

variable {s s' : Scopes} {p q : Places} {Γ Γ₀ : Context}

theorem congr (h : Agrees s p Γ) (hlookup : ∀ name, s'.lookup? name = s.lookup? name) : Agrees s' p Γ :=
  ⟨h.length, fun hname => h.slot ((hlookup _).symm.trans hname)⟩

/-- The context may know more of the innermost frame. -/
theorem mono {types : List Ty} (h : Agrees s p (Γ₀ ++ [types.map some])) (more : List Ty) :
    Agrees s p (Γ₀ ++ [(types ++ more).map some]) where
  length := by simpa using h.length
  slot hname hfind := by
    obtain ⟨frameTypes, hframe, hslot⟩ := Option.bind_eq_some_iff.mp (h.slot hname hfind)
    rw [Context.at?]
    rw [List.getElem?_append] at hframe ⊢
    split at hframe
    next hlt => rw [if_pos hlt, hframe]; exact hslot
    next hge =>
      rw [if_neg hge]
      simp only [List.getElem?_singleton, Option.ite_none_right_eq_some, Option.some.injEq] at hframe ⊢
      obtain ⟨hzero, rfl⟩ := hframe
      rw [if_pos hzero, Option.bind_some, List.map_append, List.getElem?_append_left, hslot]
      exact (List.getElem?_eq_some_iff.mp hslot).1

/-- A frame without slots. -/
theorem enter (h : Agrees s p Γ) : Agrees s.enter (p ++ [[]]) (Γ ++ [[]]) where
  length := by simp [h.length]
  slot hname hfind := by
    rw [Scopes.lookup?_enter] at hname
    rw [Places.find?_append_nil] at hfind
    exact Context.at?_append (h.slot hname hfind) _

/-- Slots that are not declared. -/
theorem undeclared {declared others : List Slot} (hothers : ∀ s ∈ others, s.declared = false)
    (h : Agrees s (q ++ [declared]) Γ) : Agrees s (q ++ [declared ++ others]) Γ where
  length := by simpa using h.length
  slot hname hfind := h.slot hname (Places.find?_append_undeclared q declared hothers ▸ hfind)

/-- A name is declared together with its slot. -/
theorem declare {declared : List Slot} {types : List Ty} (h : Agrees s (q ++ [declared]) (Γ₀ ++ [types.map some]))
    (hlength : types.length = declared.length) (name : Text) (b : Binding) :
    Agrees (s.bind name b) (q ++ [declared ++ [⟨name, true⟩]]) (Γ₀ ++ [(types ++ [b.type]).map some]) where
  length := by simpa using h.length
  slot {other τ frame slot} hname hfind := by
    rw [Scopes.lookup?_bind] at hname
    rw [Places.find?_append_declared] at hfind
    by_cases hother : other = name
    · simp only [hother, if_true, Option.some.injEq, Prod.mk.injEq] at hname hfind
      obtain ⟨rfl, rfl⟩ := hfind
      have hframes : Γ₀.length = q.length := by simpa using h.length
      simp [Context.at?, hframes.symm, hlength.symm, hname]
    · simp only [hother, if_false] at hname hfind
      exact (h.mono _).slot hname hfind

end Agrees

end Tenure
