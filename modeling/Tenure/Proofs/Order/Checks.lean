import Mathlib.Data.List.Forall2
import Tenure.Proofs.Typing.Checks
import Tenure.Proofs.Typing.Normal

/-!
# Checks of one item in two places

An item of a crate is checked after other items, and what those leave behind differs with the order of the items: how
many bindings there were, which of them never got a value, and what was complained about. None of it matters to the item.
`Check.Twins` relates the states of two checks of an item that were started in different places, and `Check.Alike` says
that a step of a check gives the same result in related states and leaves related states behind. Every rule does
(`Check.toDepth_alike`), as long as there is no crate inside the item.
-/

set_option autoImplicit false

namespace Tenure

namespace Tree

mutual

/-- Whether all nodes of a tree have a property. -/
def everyNode (p : Tree → Bool) : Tree → Bool
  | .absent => true
  | .node tag children val type => p (.node tag children val type) && everyNodeOf p children

/-- Whether all nodes of some trees have a property. -/
def everyNodeOf (p : Tree → Bool) : List Tree → Bool
  | [] => true
  | t :: rest => t.everyNode p && everyNodeOf p rest

end

variable {p : Tree → Bool} {t e : Tree} {ts : List Tree} {f : Form}

theorem everyNodeOf_iff : everyNodeOf p ts = true ↔ ∀ t ∈ ts, t.everyNode p = true := by
  induction ts with
  | nil => simp [everyNodeOf]
  | cons t rest ih => simp [everyNodeOf, ih]

theorem everyNode_of_mem (h : t.everyNode p = true) (he : e ∈ t.children) : e.everyNode p = true := by
  cases t with
  | absent => cases he
  | node tag children val type =>
    rw [everyNode, Bool.and_eq_true] at h
    exact everyNodeOf_iff.mp h.2 e he

theorem everyNode_last (h : t.everyNode p = true) : t.last.everyNode p = true := by
  cases hlast : t.last with
  | absent => rfl
  | node => exact hlast ▸ everyNode_of_mem h (last_mem (by rw [hlast]; rfl))

theorem everyNode_unwrapped (h : t.everyNode p = true) : t.unwrapped.everyNode p = true := by
  rw [unwrapped]
  generalize t.height = fuel
  induction fuel generalizing t with
  | zero => exact h
  | succ fuel ih =>
    cases t with
    | absent => exact h
    | node tag children val type =>
      rw [ungroup]
      split
      · exact ih (everyNode_last h)
      · exact h

theorem mem_of_select {q : Form → Bool} {kept : List Tree} (h : select q ts = .ok kept) (he : e ∈ kept) : e ∈ ts := by
  induction ts generalizing kept with
  | nil =>
    cases h
    exact he
  | cons t rest ih =>
    cases hform : t.form with
    | error m =>
      rw [select, hform] at h
      cases h
    | ok f =>
      cases hrest : select q rest with
      | error m => simp [select, hform, hrest, bind, Except.bind] at h
      | ok others =>
        simp only [select, hform, hrest, bind, Except.bind, pure, Except.pure, Except.ok.injEq] at h
        subst h
        split at he
        · exact List.mem_cons.mpr ((List.mem_cons.mp he).imp_right (ih hrest))
        · exact List.mem_cons_of_mem _ (ih hrest he)

/-- No node of a tree is a crate. -/
def crateless (t : Tree) : Bool := t.everyNode fun e => Form.ofTag e.tag ≠ .crate

end Tree

theorem rel_cases {α β : Type} {r : α → β → Prop} {o : Option α} {o' : Option β} (h : Option.Rel r o o') :
    o = none ∧ o' = none ∨ ∃ x y, o = some x ∧ o' = some y ∧ r x y := by
  cases h with
  | none => exact .inl ⟨rfl, rfl⟩
  | some h => exact .inr ⟨_, _, rfl, rfl, h⟩

theorem Scopes.declared_bind (s : Scopes) (name : Text) (b : Binding) :
    (s.bind name b).declared = s.declared + 1 := by
  unfold Scopes.bind
  split <;> rfl

namespace Check

variable {α β : Type}

/-- A step that only complains: its result and its complaints depend on no state. -/
structure Writes (x : Check α) : Prop where
  same : ∃ r es, ∀ c : Checker, x c = (r, { c with errors := c.errors ++ es })

namespace Writes

variable {x : Check α} {f : α → Check β}

theorem pure (a : α) : Writes (Pure.pure a : Check α) := ⟨.ok a, [], fun c => by rw [List.append_nil]; rfl⟩

theorem report (e : CheckError) : Writes (Check.report e) := ⟨.ok (), [e], fun _ => rfl⟩

theorem bind (hx : Writes x) (hf : ∀ a, Writes (f a)) : Writes (x >>= f) := by
  obtain ⟨r, es, hx⟩ := hx.same
  cases r with
  | error e => exact ⟨.error e, es, fun c => bind_error (hx c) f⟩
  | ok a =>
    obtain ⟨r, es', hf⟩ := (hf a).same
    exact ⟨r, es ++ es', fun c => by rw [bind_ok (hx c), hf, List.append_assoc]⟩

theorem inspect {i : Inspect α} (hf : ∀ a, Writes (f a)) : Writes ((liftM i : Check α) >>= f) := by
  cases i with
  | error e => exact ⟨.error e, [], fun c => by rw [List.append_nil]; rfl⟩
  | ok a => exact hf a

theorem ite {p : Prop} [Decidable p] {y : Check α} (hx : Writes x) (hy : Writes y) : Writes (if p then x else y) := by
  split
  · exact hx
  · exact hy

theorem require (ok : Bool) (e : CheckError) : Writes (Check.require ok e) := ite (pure _) (report e)

theorem malformed (t : Tree) : Writes (Check.malformed t) := bind (report _) fun _ => pure _

theorem ascription (owner : Text) (written : Option Tree) : Writes (Check.ascription owner written) := by
  unfold Check.ascription
  split
  · exact bind (report _) fun _ => pure _
  · split
    · exact pure _
    · exact bind (report _) fun _ => pure _

theorem parameterTypes (ps : List Tree) : Writes (Check.parameterTypes ps) := by
  induction ps with
  | nil => exact pure _
  | cons p rest ih => exact inspect fun _ => inspect fun _ => bind (ascription ..) fun _ => bind ih fun _ => pure _

theorem signature (t : Tree) : Writes (Check.signature t) := by
  refine inspect fun _ => bind (parameterTypes _) fun _ => inspect fun written => ?_
  cases written with
  | none => exact pure _
  | some written => exact inspect fun _ => bind (ascription ..) fun _ => pure _

theorem binary (left right : Ty) (op : Text) : Writes (Check.binary left right op) := by
  refine ite (bind (require ..) fun _ => bind (require ..) fun _ => pure _) (ite ?_ (ite ?_ (ite ?_ ?_)))
  · exact bind (require ..) fun _ => bind (require ..) fun _ => pure _
  · exact ite (pure _) (ite (pure _) (bind (report _) fun _ => pure _))
  · exact bind (require ..) fun _ => pure _
  · exact bind (report _) fun _ => pure _

theorem compareArguments (ps as : List Ty) (number : Nat) : Writes (Check.compareArguments ps as number) := by
  induction ps generalizing as number with
  | nil => exact pure _
  | cons p ps ih =>
    cases as with
    | nil => exact pure _
    | cons a as => exact bind (require ..) fun _ => ih as _

theorem literal (t : Tree) : Writes (Check.literal t) := by
  refine inspect fun source => ?_
  dsimp only
  split
  · exact bind (report _) fun _ => pure _
  · split
    · exact pure _
    · exact bind (report _) fun _ => pure _

/-- A clean step that only complains is clean everywhere. -/
theorem clean (hx : Writes x) {c c' d : Checker} {a : α} (h : Clean x c a c') : c' = c ∧ Clean x d a d := by
  obtain ⟨r, es, hx⟩ := hx.same
  obtain ⟨h, herrors⟩ := h
  rw [hx] at h
  cases h
  obtain rfl : es = [] := by simpa using herrors
  exact ⟨by simp, by rw [hx]; simp, rfl⟩

end Writes

/-! ## States of two checks -/

/-- What is known of a place in two checks: the depth of scopes, the functions and the number of loops around it, and
how many bindings have been declared at least. -/
structure Level where
  depth : Nat
  functions : List Enclosing := []
  loops : Int := 0
  seen : Nat := 0
  seen' : Nat := 0

/-- The global scopes of two checks give the same types, and none of their bindings awaits a value. -/
structure Starts (c₀ c₀' : Checker) : Prop where
  lookups : ∀ name, Option.Rel (fun x y : Binding => y.type = x.type ∧ y.mutable = x.mutable)
    (c₀.scopes.global.find? name) (c₀'.scopes.global.find? name)
  earlier : ∀ entry ∈ c₀.scopes.global, entry.2.serial < c₀.scopes.declared
  earlier' : ∀ entry ∈ c₀'.scopes.global, entry.2.serial < c₀'.scopes.declared

/-- Two bindings that were declared as the same one after other numbers of bindings. -/
structure Counterparts (c₀ c₀' : Checker) (x y : Binding) : Prop where
  type : y.type = x.type
  mutable : y.mutable = x.mutable
  loops : y.loops = x.loops
  serial : ∃ k, x.serial = c₀.scopes.declared + k ∧ y.serial = c₀'.scopes.declared + k

/-- The numbers of the bindings that await a value in two checks: no globals, and of the others the same. -/
structure Awaited (c₀ c₀' : Checker) (now now' : List Nat) : Prop where
  same : ∀ k, c₀.scopes.declared + k ∈ now ↔ c₀'.scopes.declared + k ∈ now'
  settled : ∀ entry ∈ c₀.scopes.global, entry.2.serial ∉ now
  settled' : ∀ entry ∈ c₀'.scopes.global, entry.2.serial ∉ now'

/-- The states of two checks of one item, started in `c₀` and `c₀'`, that have come to the same place of it. -/
structure Twins (c₀ c₀' : Checker) (l : Level) (c c' : Checker) : Prop where
  inner : List.Forall₂ (List.Forall₂ fun e e' => e'.1 = e.1 ∧ Counterparts c₀ c₀' e.2 e'.2) c.scopes.inner c'.scopes.inner
  depth : c.scopes.inner.length = l.depth
  global : c.scopes.global = c₀.scopes.global
  global' : c'.scopes.global = c₀'.scopes.global
  awaiting : Awaited c₀ c₀' c.scopes.awaiting c'.scopes.awaiting
  below : ∀ n ∈ c.scopes.awaiting, n < c.scopes.declared
  below' : ∀ n ∈ c'.scopes.awaiting, n < c'.scopes.declared
  seen : l.seen ≤ c.scopes.declared
  seen' : l.seen' ≤ c'.scopes.declared
  declared : ∃ k, c.scopes.declared = c₀.scopes.declared + k ∧ c'.scopes.declared = c₀'.scopes.declared + k
  functions : c.functions = l.functions
  functions' : c'.functions = l.functions
  loops : c.loops = l.loops
  loops' : c'.loops = l.loops
  errors : ∃ es, c.errors = c₀.errors ++ es ∧ c'.errors = c₀'.errors ++ es

/-- Two steps, each in the check of its own, give the same result and come to the same place. -/
structure Alike (c₀ c₀' : Checker) (l l' : Level) (x y : Check α) : Prop where
  runs : ∀ c c', Twins c₀ c₀' l c c' → (x c).1 = (y c').1 ∧ ∀ a, (x c).1 = .ok a → Twins c₀ c₀' l' (x c).2 (y c').2

section Places

variable {c₀ c₀' c c' : Checker} {l l' m : Level}

/-- What a name is bound to in both states: nothing, counterparts, or the globals of that name. -/
theorem Twins.find? (h : Twins c₀ c₀' l c c') (hstart : Starts c₀ c₀') (name : Text) :
    Option.Rel (fun x y => y.type = x.type ∧ y.mutable = x.mutable ∧ (Counterparts c₀ c₀' x y ∨
      x.serial ∉ c.scopes.awaiting ∧ y.serial ∉ c'.scopes.awaiting)) (c.scopes.find? name) (c'.scopes.find? name) := by
  have hglobal : Option.Rel (fun x y => y.type = x.type ∧ y.mutable = x.mutable ∧ (Counterparts c₀ c₀' x y ∨
      x.serial ∉ c.scopes.awaiting ∧ y.serial ∉ c'.scopes.awaiting)) (c.scopes.global.find? name)
      (c'.scopes.global.find? name) := by
    rw [h.global, h.global']
    rcases rel_cases (hstart.lookups name) with ⟨hx, hy⟩ | ⟨x, y, hx, hy, hxy⟩
    · rw [hx, hy]
      exact .none
    · rw [hx, hy]
      obtain ⟨e, he, rfl⟩ := Option.map_eq_some_iff.mp hx
      obtain ⟨e', he', rfl⟩ := Option.map_eq_some_iff.mp hy
      exact .some ⟨hxy.1, hxy.2, .inr ⟨h.awaiting.settled e (List.mem_of_find?_eq_some he),
        h.awaiting.settled' e' (List.mem_of_find?_eq_some he')⟩⟩
  simp only [Scopes.find?, Scopes.all]
  have hinner := h.inner
  revert hinner
  generalize c.scopes.inner = inner
  generalize c'.scopes.inner = inner'
  intro hinner
  induction hinner with
  | nil => simpa using hglobal
  | @cons scope scope' _ _ hscope hrest ih =>
    simp only [List.cons_append, List.findSome?_cons]
    have hfind : Option.Rel (Counterparts c₀ c₀') (scope.find? name) (scope'.find? name) := by
      induction hscope with
      | nil => exact .none
      | @cons e e' _ _ he _ ih =>
        simp only [Scope.find?, List.find?_cons, he.1]
        cases decide (e.1 = name) with
        | true => exact .some he.2
        | false => exact ih
    rcases rel_cases hfind with ⟨hx, hy⟩ | ⟨x, y, hx, hy, hxy⟩
    · rw [hx, hy]
      exact ih
    · rw [hx, hy]
      exact .some ⟨hxy.type, hxy.mutable, .inl hxy⟩

/-- A name has the same type in both states. -/
theorem Twins.lookup? (h : Twins c₀ c₀' l c c') (hstart : Starts c₀ c₀') (name : Text) :
    c'.scopes.lookup? name = c.scopes.lookup? name := by
  rw [Scopes.lookup?, Scopes.lookup?]
  rcases rel_cases (h.find? hstart name) with ⟨hx, hy⟩ | ⟨x, y, hx, hy, hxy⟩
  · rw [hx, hy]
  · rw [hx, hy]
    exact congrArg some hxy.1

theorem Twins.isMutable (h : Twins c₀ c₀' l c c') (hstart : Starts c₀ c₀') (name : Text) :
    c'.scopes.isMutable name = c.scopes.isMutable name := by
  rw [Scopes.isMutable, Scopes.isMutable]
  rcases rel_cases (h.find? hstart name) with ⟨hx, hy⟩ | ⟨x, y, hx, hy, hxy⟩
  · rw [hx, hy]
  · rw [hx, hy]
    exact hxy.2.1

theorem Twins.awaits (h : Twins c₀ c₀' l c c') {x y : Binding} (hxy : Counterparts c₀ c₀' x y) :
    c'.scopes.awaits y = c.scopes.awaits x := by
  obtain ⟨k, hx, hy⟩ := hxy.serial
  rw [Scopes.awaits, Scopes.awaits, hx, hy, Bool.eq_iff_iff, List.contains_iff_mem, List.contains_iff_mem]
  exact (h.awaiting.same k).symm

/-- A name awaits its first value in both states or in neither, and if it does, it is no global. -/
theorem Twins.canSettle (h : Twins c₀ c₀' l c c') (hstart : Starts c₀ c₀') (name : Text) :
    c'.scopes.canSettle name l.loops = c.scopes.canSettle name l.loops ∧
      (c.scopes.canSettle name l.loops = true → ∃ x y, c.scopes.find? name = some x ∧ c'.scopes.find? name = some y ∧
        Counterparts c₀ c₀' x y) := by
  rw [Scopes.canSettle, Scopes.canSettle]
  rcases rel_cases (h.find? hstart name) with ⟨hx, hy⟩ | ⟨x, y, hx, hy, -, -, hxy | ⟨hxa, hya⟩⟩
  · rw [hx, hy]
    exact ⟨rfl, nofun⟩
  · simp only [hx, hy, h.awaits hxy, hxy.loops]
    exact ⟨trivial, fun _ => ⟨x, y, rfl, rfl, hxy⟩⟩
  · have hx' : c.scopes.awaits x = false := by simpa [Scopes.awaits] using hxa
    have hy' : c'.scopes.awaits y = false := by simpa [Scopes.awaits] using hya
    simp [hx, hy, hx', hy']

/-! ## Changes of both states -/

namespace Awaited

variable {now now' other other' : List Nat}

theorem append (h : Awaited c₀ c₀' now now') (h' : Awaited c₀ c₀' other other') :
    Awaited c₀ c₀' (now ++ other) (now' ++ other') where
  same k := by rw [List.mem_append, List.mem_append, h.same, h'.same]
  settled entry hentry hmem := (List.mem_append.mp hmem).elim (h.settled entry hentry) (h'.settled entry hentry)
  settled' entry hentry hmem := (List.mem_append.mp hmem).elim (h.settled' entry hentry) (h'.settled' entry hentry)

theorem without (h : Awaited c₀ c₀' now now') (h' : Awaited c₀ c₀' other other') :
    Awaited c₀ c₀' (now.filter fun n => !other.contains n) (now'.filter fun n => !other'.contains n) where
  same k := by simp only [List.mem_filter, h.same, Bool.not_eq_true', ← Bool.not_eq_true, List.contains_iff_mem, h'.same]
  settled entry hentry hmem := h.settled entry hentry (List.mem_of_mem_filter hmem)
  settled' entry hentry hmem := h.settled' entry hentry (List.mem_of_mem_filter hmem)

/-- A binding that is being declared. -/
theorem cons (hstart : Starts c₀ c₀') (h : Awaited c₀ c₀' now now') (k : Nat) :
    Awaited c₀ c₀' ((c₀.scopes.declared + k) :: now) ((c₀'.scopes.declared + k) :: now') where
  same j := by simp only [List.mem_cons, Nat.add_left_cancel_iff, h.same]
  settled entry hentry hmem := by
    have hlt := hstart.earlier entry hentry
    rcases List.mem_cons.mp hmem with heq | hmem
    · omega
    · exact h.settled entry hentry hmem
  settled' entry hentry hmem := by
    have hlt := hstart.earlier' entry hentry
    rcases List.mem_cons.mp hmem with heq | hmem
    · omega
    · exact h.settled' entry hentry hmem

end Awaited

theorem Twins.enter (h : Twins c₀ c₀' l c c') :
    Twins c₀ c₀' { l with depth := l.depth + 1 } { c with scopes := c.scopes.enter } { c' with scopes := c'.scopes.enter } :=
  { h with
    inner := .cons .nil h.inner
    depth := congrArg (· + 1) h.depth }

theorem Twins.exit {n : Nat} (h : Twins c₀ c₀' { l with depth := n + 1 } c c') :
    Twins c₀ c₀' { l with depth := n } { c with scopes := c.scopes.exit } { c' with scopes := c'.scopes.exit } :=
  { h with
    inner := List.forall₂_drop 1 h.inner
    depth := by simp [Scopes.exit, h.depth] }

/-- A binding that is declared in both states goes into the innermost scopes, unless these are the global ones. -/
theorem Twins.bind (h : Twins c₀ c₀' l c c') (hinside : 0 < l.depth) (name : Text) {x y : Binding}
    (hxy : Counterparts c₀ c₀' x y) :
    Twins c₀ c₀' l { c with scopes := c.scopes.bind name x } { c' with scopes := c'.scopes.bind name y } := by
  obtain ⟨k, hk, hk'⟩ := h.declared
  have hinner := h.inner
  have hdepth := h.depth
  cases hc : c.scopes.inner with
  | nil =>
    rw [hc] at hdepth
    exact absurd hdepth (Nat.ne_of_lt hinside)
  | cons scope rest =>
    rw [hc] at hinner hdepth
    cases hc' : c'.scopes.inner with
    | nil =>
      rw [hc'] at hinner
      cases hinner
    | cons scope' rest' =>
      rw [hc'] at hinner
      obtain ⟨hscope, hrest⟩ := List.forall₂_cons.mp hinner
      simp only [Scopes.bind, hc, hc']
      exact
        { h with
          inner := .cons (.cons ⟨rfl, hxy⟩ hscope) hrest
          depth := hdepth
          below := fun n hn => Nat.lt_succ_of_lt (h.below n hn)
          below' := fun n hn => Nat.lt_succ_of_lt (h.below' n hn)
          seen := Nat.le_succ_of_le h.seen
          seen' := Nat.le_succ_of_le h.seen'
          declared := ⟨k + 1, congrArg (· + 1) hk, congrArg (· + 1) hk'⟩ }

/-- The first value of a name that awaits one in both states. -/
theorem Twins.settle (h : Twins c₀ c₀' l c c') (hstart : Starts c₀ c₀') {name : Text}
    (hname : c.scopes.canSettle name l.loops = true) :
    Twins c₀ c₀' l { c with scopes := c.scopes.settle name } { c' with scopes := c'.scopes.settle name } := by
  obtain ⟨x, y, hx, hy, hxy⟩ := (h.canSettle hstart name).2 hname
  obtain ⟨k, hk, hk'⟩ := hxy.serial
  simp only [Scopes.settle, hx, hy]
  exact
    { h with
      awaiting :=
        { same := fun j => by
            simp only [List.mem_filter, h.awaiting.same j, hk, hk', ne_eq, decide_not, Bool.not_eq_true',
              decide_eq_false_iff_not, Nat.add_left_cancel_iff]
          settled := fun entry hentry hmem => h.awaiting.settled entry hentry (List.mem_of_mem_filter hmem)
          settled' := fun entry hentry hmem => h.awaiting.settled' entry hentry (List.mem_of_mem_filter hmem) }
      below := fun n hn => h.below n (List.mem_of_mem_filter hn)
      below' := fun n hn => h.below' n (List.mem_of_mem_filter hn) }

end Places

/-! ## Steps in both states -/

namespace Alike

variable {c₀ c₀' : Checker} {l l' m : Level} {x y : Check α} {f g : α → Check β}

theorem pure (a : α) : Alike c₀ c₀' l l (Pure.pure a) (Pure.pure a) := ⟨fun _ _ h => ⟨rfl, fun _ _ => h⟩⟩

theorem bind (hx : Alike c₀ c₀' l m x y) (hf : ∀ a, Alike c₀ c₀' m l' (f a) (g a)) :
    Alike c₀ c₀' l l' (x >>= f) (y >>= g) := by
  refine ⟨fun c c' h => ?_⟩
  obtain ⟨hsame, hnext⟩ := hx.runs c c' h
  rcases hxc : x c with ⟨e | a, c₁⟩ <;> rcases hyc : y c' with ⟨e' | a', c₁'⟩ <;> rw [hxc, hyc] at hsame <;> cases hsame
  · rw [bind_error hxc, bind_error hyc]
    exact ⟨rfl, nofun⟩
  · rw [bind_ok hxc, bind_ok hyc]
    rw [hxc, hyc] at hnext
    exact (hf a).runs c₁ c₁' (hnext a rfl)

theorem inspect {i : Inspect α} (hf : ∀ a, i = .ok a → Alike c₀ c₀' l l' (f a) (g a)) :
    Alike c₀ c₀' l l' ((liftM i : Check α) >>= f) ((liftM i : Check α) >>= g) := by
  cases i with
  | error e => exact ⟨fun _ _ _ => ⟨rfl, nofun⟩⟩
  | ok a => exact hf a rfl

/-- A step that looks at the state. -/
theorem look {f g : Checker → Check β} (hf : ∀ c c', Twins c₀ c₀' l c c' → Alike c₀ c₀' l l' (f c) (g c')) :
    Alike c₀ c₀' l l' (get >>= f) (get >>= g) := ⟨fun c c' h => (hf c c' h).runs c c' h⟩

/-- A step that looks at the state, after which no fewer bindings have been declared. -/
theorem lookFrom {f g : Checker → Check β} (hf : ∀ c c', Twins c₀ c₀' l c c' →
    Alike c₀ c₀' { l with seen := c.scopes.declared, seen' := c'.scopes.declared }
      { l with seen := c.scopes.declared, seen' := c'.scopes.declared } (f c) (g c')) :
    Alike c₀ c₀' l l (get >>= f) (get >>= g) := by
  refine ⟨fun c c' h => ?_⟩
  obtain ⟨hsame, hnext⟩ := (hf c c' h).runs c c' { h with seen := Nat.le_refl _, seen' := Nat.le_refl _ }
  refine ⟨hsame, fun b hb => ?_⟩
  have hb := hnext b hb
  exact { hb with seen := Nat.le_trans h.seen hb.seen, seen' := Nat.le_trans h.seen' hb.seen' }

/-- A step that changes the state it looks at. -/
theorem lookAt {f g : Checker → Check β} (hf : ∀ c c', Twins c₀ c₀' l c c' → (f c c).1 = (g c' c').1 ∧
    ∀ b, (f c c).1 = .ok b → Twins c₀ c₀' l' (f c c).2 (g c' c').2) :
    Alike c₀ c₀' l l' (get >>= f) (get >>= g) := ⟨hf⟩

theorem modify {p q : Checker → Checker} (h : ∀ c c', Twins c₀ c₀' l c c' → Twins c₀ c₀' l' (p c) (q c')) :
    Alike c₀ c₀' l l' (modify p : Check PUnit) (modify q) := ⟨fun c c' hc => ⟨rfl, fun _ _ => h c c' hc⟩⟩

theorem ite {p : Prop} [Decidable p] {x' y' : Check α} (hx : Alike c₀ c₀' l l' x y) (hx' : Alike c₀ c₀' l l' x' y') :
    Alike c₀ c₀' l l' (if p then x else x') (if p then y else y') := by
  split
  · exact hx
  · exact hx'

theorem of_writes (hx : Writes x) : Alike c₀ c₀' l l x x := by
  obtain ⟨r, es, hx⟩ := hx.same
  refine ⟨fun c c' h => ?_⟩
  obtain ⟨es', he, he'⟩ := h.errors
  rw [hx, hx]
  exact ⟨rfl, fun _ _ => { h with errors := ⟨es' ++ es, by simp [he], by simp [he']⟩ }⟩

theorem report (e : CheckError) : Alike c₀ c₀' l l (Check.report e) (Check.report e) := of_writes (.report e)

theorem require (ok : Bool) (e : CheckError) : Alike c₀ c₀' l l (Check.require ok e) (Check.require ok e) :=
  of_writes (.require ok e)

theorem malformed (t : Tree) : Alike c₀ c₀' l l (Check.malformed t) (Check.malformed t) := of_writes (.malformed t)

theorem onScopes {p q : Scopes → Scopes} (h : ∀ c c', Twins c₀ c₀' l c c' →
    Twins c₀ c₀' l' { c with scopes := p c.scopes } { c' with scopes := q c'.scopes }) :
    Alike c₀ c₀' l l' (Check.onScopes p) (Check.onScopes q) := modify h

theorem enter : Alike c₀ c₀' l { l with depth := l.depth + 1 } (Check.onScopes Scopes.enter) (Check.onScopes Scopes.enter) :=
  onScopes fun _ _ h => h.enter

theorem define (hinside : 0 < l.depth) (name : Text) (type : Ty) (mutable : Bool) :
    Alike c₀ c₀' l l (Check.define name type mutable) (Check.define name type mutable) :=
  onScopes fun _ _ h => h.bind hinside name ⟨rfl, rfl, rfl, h.declared⟩

/-- A binding without a value. -/
theorem defer (hstart : Starts c₀ c₀') (hinside : 0 < l.depth) (name : Text) (type : Ty) (mutable : Bool) (loops : Int) :
    Alike c₀ c₀' l l (Check.onScopes fun s => s.defineDeferred name type mutable loops)
      (Check.onScopes fun s => s.defineDeferred name type mutable loops) := by
  refine onScopes fun c c' h => ?_
  obtain ⟨k, hk, hk'⟩ := h.declared
  have hbound := h.bind hinside name (x := { type, mutable, loops, serial := c.scopes.declared })
    (y := { type, mutable, loops, serial := c'.scopes.declared }) ⟨rfl, rfl, rfl, k, hk, hk'⟩
  have hawaiting : Awaited c₀ c₀' (c.scopes.declared :: c.scopes.awaiting) (c'.scopes.declared :: c'.scopes.awaiting) := by
    rw [hk, hk']
    exact h.awaiting.cons hstart k
  have hbelow : ∀ (s : Scopes) (b : Binding), (∀ n ∈ s.awaiting, n < s.declared) →
      ∀ n ∈ s.declared :: s.awaiting, n < (s.bind name b).declared := by
    intro s b hs n hn
    rw [Scopes.declared_bind]
    rcases List.mem_cons.mp hn with rfl | hn
    · exact Nat.lt_succ_self _
    · exact Nat.lt_succ_of_lt (hs n hn)
  exact { hbound with awaiting := hawaiting, below := hbelow _ _ h.below, below' := hbelow _ _ h.below' }

theorem inScope (hx : Alike c₀ c₀' { l with depth := l.depth + 1 } { l with depth := l.depth + 1 } x y) :
    Alike c₀ c₀' l l (Check.inScope x) (Check.inScope y) := by
  refine ⟨fun c c' h => ?_⟩
  obtain ⟨hsame, hnext⟩ := hx.runs _ _ h.enter
  exact ⟨hsame, fun a ha => (hnext a ha).exit⟩

end Alike

/-! ## Rules -/

section Rules

variable {c₀ c₀' : Checker} {l : Level} {visit : Tree → Check Ty} {t : Tree} (hstart : Starts c₀ c₀')
  (hvisit : ∀ e : Tree, e.crateless = true → ∀ l, 0 < l.depth → Alike c₀ c₀' l l (visit e) (visit e))

theorem declareParameters_alike (hinside : 0 < l.depth) (ps : List (Tree × Ty)) :
    Alike c₀ c₀' l l (declareParameters ps) (declareParameters ps) := by
  induction ps with
  | nil => exact .pure _
  | cons p rest ih =>
    exact .inspect fun name _ => .inspect fun mutable _ => .bind (.define hinside ..) fun _ => ih

theorem declareFunctions_alike (hinside : 0 < l.depth) (ts : List Tree) :
    Alike c₀ c₀' l l (declareFunctions ts) (declareFunctions ts) := by
  induction ts with
  | nil => exact .pure _
  | cons t rest ih =>
    refine .bind (.of_writes (.signature t)) fun s => .inspect fun name _ => .bind (.define hinside ..) fun _ => ?_
    exact .bind ih fun _ => .pure _

include hvisit in
theorem inOrder_alike (hinside : 0 < l.depth) {ts : List Tree} (h : ∀ e ∈ ts, e.crateless = true) (last : Ty) :
    Alike c₀ c₀' l l (inOrder visit ts last) (inOrder visit ts last) := by
  induction ts generalizing last with
  | nil => exact .pure _
  | cons t rest ih =>
    refine .bind (hvisit t (h t (List.mem_cons_self ..)) l hinside) fun _ => ?_
    exact ih (fun e he => h e (List.mem_cons_of_mem _ he)) _

include hvisit in
theorem all_alike (hinside : 0 < l.depth) {ts : List Tree} (h : ∀ e ∈ ts, e.crateless = true) :
    Alike c₀ c₀' l l (all visit ts) (all visit ts) := by
  induction ts with
  | nil => exact .pure _
  | cons t rest ih =>
    refine .bind (hvisit t (h t (List.mem_cons_self ..)) l hinside) fun _ => ?_
    exact .bind (ih fun e he => h e (List.mem_cons_of_mem _ he)) fun _ => .pure _

include hvisit in
/-- A function, in whatever scope its item stands. -/
theorem function_alike (h : t.crateless = true) (s : Signature) :
    Alike c₀ c₀' l l (function visit t s) (function visit t s) := by
  refine .inspect fun name _ => .inspect fun found hfound => ?_
  cases found with
  | none => exact .report _
  | some body =>
    refine .bind .enter fun _ => .inspect fun ps _ => ?_
    refine .bind (declareParameters_alike (Nat.succ_pos _) _) fun _ => ?_
    refine .bind (m := { l with depth := l.depth + 1, functions := ⟨name, s.result⟩ :: l.functions })
      (.modify fun c c' hc => { hc with functions := congrArg _ hc.functions, functions' := congrArg _ hc.functions' })
      fun _ => ?_
    refine .bind (hvisit body (Tree.everyNode_of_mem h (Tree.mem_of_firstWith hfound)) _ (Nat.succ_pos _)) fun got => ?_
    refine .bind (m := l) (.modify fun c c' hc => ?_) fun _ => .require ..
    have hexit := Twins.exit (l := { l with functions := ⟨name, s.result⟩ :: l.functions }) hc
    exact { hexit with functions := by simp [hc.functions], functions' := by simp [hc.functions'] }

include hvisit in
theorem blockItems_alike (hinside : 0 < l.depth) {ts : List Tree} (h : ∀ e ∈ ts, e.crateless = true)
    (signatures : List Signature) (last : Ty) :
    Alike c₀ c₀' l l (blockItems visit ts signatures last) (blockItems visit ts signatures last) := by
  induction ts generalizing signatures last with
  | nil => exact .pure _
  | cons t rest ih =>
    have ht := h t (List.mem_cons_self ..)
    have hrest := fun signatures last => ih (fun e he => h e (List.mem_cons_of_mem _ he)) signatures last
    refine .inspect fun f _ => .ite ?_ ?_
    · exact .bind (function_alike hvisit ht _) fun _ => hrest _ _
    · exact .bind (hvisit t ht l hinside) fun _ => hrest _ _

include hvisit in
theorem block_alike (h : t.crateless = true) : Alike c₀ c₀' l l (block visit t) (block visit t) := by
  refine .inScope (.inspect fun items hitems => .bind (declareFunctions_alike (Nat.succ_pos _) items) fun signatures => ?_)
  exact blockItems_alike hvisit (Nat.succ_pos _) (fun e he => Tree.everyNode_of_mem h he) _ _

include hvisit in
theorem functionItem_alike (hinside : 0 < l.depth) (h : t.crateless = true) :
    Alike c₀ c₀' l l (functionItem visit t) (functionItem visit t) := by
  refine .bind (.of_writes (.signature t)) fun s => .inspect fun name _ => .bind (.define hinside ..) fun _ => ?_
  exact .bind (function_alike hvisit h s) fun _ => .pure _

include hstart hvisit in
theorem letStatement_alike (hinside : 0 < l.depth) (h : t.crateless = true) :
    Alike c₀ c₀' l l (letStatement visit t) (letStatement visit t) := by
  refine .inspect fun name _ => .inspect fun mutable _ => .inspect fun written _ => ?_
  dsimp only
  split
  case' h_2 => refine .bind (.of_writes (.ascription ..)) fun _ => ?_
  all_goals
    refine .bind (.pure _) fun declared => .inspect fun initial hinitial => ?_
    split
    next e =>
      refine .bind (hvisit e (Tree.everyNode_of_mem h (Tree.mem_of_firstWith hinitial)) l hinside) fun got => ?_
      split
      · exact .bind (.define hinside ..) fun _ => .pure _
      · exact .bind (.require ..) fun _ => .bind (.define hinside ..) fun _ => .pure _
    · refine .bind (.require ..) fun _ => .look fun c c' hc => ?_
      rw [hc.loops, hc.loops']
      exact .bind (.defer hstart hinside ..) fun _ => .pure _

include hvisit in
theorem expressionStatement_alike (hinside : 0 < l.depth) (h : t.crateless = true) :
    Alike c₀ c₀' l l (expressionStatement visit t) (expressionStatement visit t) :=
  .bind (hvisit _ (Tree.everyNode_last h) l hinside) fun _ => .pure _

include hvisit in
theorem returning_alike (hinside : 0 < l.depth) (h : t.crateless = true) :
    Alike c₀ c₀' l l (returning visit t) (returning visit t) := by
  refine .bind (hvisit _ (Tree.everyNode_last h) l hinside) fun type => .look fun c c' hc => ?_
  rw [hc.functions, hc.functions']
  split
  · exact .bind (.report _) fun _ => .pure _
  · exact .bind (.require ..) fun _ => .pure _

include hstart in
theorem path_alike : Alike c₀ c₀' l l (path t) (path t) := by
  refine .inspect fun name _ => .look fun c c' hc => ?_
  rw [hc.lookup? hstart]
  split
  · exact .pure _
  · exact .bind (.report _) fun _ => .pure _

theorem crateless_operands (h : t.crateless = true) {kept : List Tree} (hkept : t.operands = .ok kept) :
    ∀ e ∈ kept, e.crateless = true := fun _ he => Tree.everyNode_of_mem h (Tree.mem_of_select hkept he)

include hvisit in
theorem operation_alike (hinside : 0 < l.depth) (h : t.crateless = true) :
    Alike c₀ c₀' l l (operation visit t) (operation visit t) := by
  refine .inspect fun kept hkept => ?_
  have hcrateless := crateless_operands h hkept
  split
  next a b =>
    refine .bind (hvisit a (hcrateless a (by simp)) l hinside) fun left => ?_
    refine .bind (hvisit b (hcrateless b (by simp)) l hinside) fun right => ?_
    exact .inspect fun op _ => .of_writes (.binary ..)
  · exact .malformed t

include hvisit in
theorem comparison_alike (hinside : 0 < l.depth) (h : t.crateless = true) :
    Alike c₀ c₀' l l (comparison visit t) (comparison visit t) := by
  refine .inspect fun kept hkept => ?_
  have hcrateless := crateless_operands h hkept
  split
  next a b =>
    refine .bind (hvisit a (hcrateless a (by simp)) l hinside) fun left => ?_
    refine .bind (hvisit b (hcrateless b (by simp)) l hinside) fun right => .inspect fun op _ => ?_
    dsimp only
    split
    · exact .bind (.require ..) fun _ => .pure _
    · split
      · split
        · exact .pure _
        · exact .bind (.report _) fun _ => .pure _
      · exact .bind (.report _) fun _ => .pure _
  · exact .malformed t

include hvisit in
theorem negation_alike (hinside : 0 < l.depth) (h : t.crateless = true) :
    Alike c₀ c₀' l l (negation visit t) (negation visit t) := by
  refine .bind (hvisit _ (Tree.everyNode_last h) l hinside) fun type => .inspect fun op _ => ?_
  refine .ite ?_ (.ite ?_ ?_)
  · exact .bind (.require ..) fun _ => .pure _
  · exact .bind (.require ..) fun _ => .pure _
  · exact .bind (.report _) fun _ => .pure _

include hvisit in
theorem branches_alike (hinside : 0 < l.depth) {a : Tree} {rest : Option Tree} (ha : a.crateless = true)
    (hrest : ∀ e, rest = some e → e.crateless = true) :
    Alike c₀ c₀' l l (branches visit a rest) (branches visit a rest) := by
  refine .lookFrom fun c c' hc => ?_
  generalize hfrom : ({ l with seen := c.scopes.declared, seen' := c'.scopes.declared } : Level) = from'
  have hvisit := fun e he => hvisit e he from' (by rw [← hfrom]; exact hinside)
  refine .bind (hvisit a ha) fun thenType => .look fun c₁ c₁' hc₁ => ?_
  have hsettled := hc.awaiting.without hc₁.awaiting
  have hbelow : ∀ {now now' : List Nat} {seen later : Nat}, (∀ n ∈ now, n < seen) → seen ≤ later →
      ∀ n ∈ now.filter fun n => !now'.contains n, n < later :=
    fun h hle n hn => Nat.lt_of_lt_of_le (h n (List.mem_of_mem_filter hn)) hle
  refine .bind (.onScopes fun c₂ c₂' hc₂ =>
    { hc₂ with
      awaiting := hsettled.append hc₂.awaiting
      below := fun n hn => (List.mem_append.mp hn).elim (hbelow hc.below (by rw [← hfrom] at hc₂; exact hc₂.seen) n) (hc₂.below n)
      below' := fun n hn => (List.mem_append.mp hn).elim (hbelow hc.below' (by rw [← hfrom] at hc₂; exact hc₂.seen') n) (hc₂.below' n) })
    fun _ => ?_
  have hend : Alike c₀ c₀' from' from' (do
        onScopes fun s => { s with awaiting := s.awaiting.filter fun n =>
          !(c.scopes.awaiting.filter fun n => !c₁.scopes.awaiting.contains n).contains n }
        return thenType : Check Ty) (do
        onScopes fun s => { s with awaiting := s.awaiting.filter fun n =>
          !(c'.scopes.awaiting.filter fun n => !c₁'.scopes.awaiting.contains n).contains n }
        return thenType) :=
    .bind (.onScopes fun c₂ c₂' hc₂ =>
      { hc₂ with
        awaiting := hc₂.awaiting.without hsettled
        below := hbelow hc₂.below (Nat.le_refl _)
        below' := hbelow hc₂.below' (Nat.le_refl _) }) fun _ => .pure _
  cases rest with
  | none => exact hend
  | some e => exact .bind (hvisit e (hrest e rfl)) fun _ => .bind (.require ..) fun _ => hend

include hvisit in
theorem conditional_alike (hinside : 0 < l.depth) (h : t.crateless = true) :
    Alike c₀ c₀' l l (conditional visit t) (conditional visit t) := by
  refine .inspect fun kept hkept => ?_
  have hcrateless := crateless_operands h hkept
  split
  next condition a rest =>
    refine .bind (hvisit _ (hcrateless condition (by simp)) l hinside) fun type => .bind (.require ..) fun _ => ?_
    refine branches_alike hvisit hinside (hcrateless a (by simp)) fun e he => hcrateless e ?_
    exact List.mem_cons_of_mem _ (List.mem_cons_of_mem _ (List.mem_of_mem_head? he))
  · exact .malformed t

include hvisit in
theorem loop_alike (hinside : 0 < l.depth) (h : t.crateless = true) :
    Alike c₀ c₀' l l (loop visit t) (loop visit t) := by
  refine .inspect fun kept hkept => ?_
  have hcrateless := crateless_operands h hkept
  split
  next condition body =>
    refine .bind (hvisit _ (hcrateless condition (by simp)) l hinside) fun type => .bind (.require ..) fun _ => ?_
    refine .bind (m := { l with loops := l.loops + 1 }) (.modify fun c c' hc =>
      { hc with loops := congrArg (· + 1) hc.loops, loops' := congrArg (· + 1) hc.loops' }) fun _ => ?_
    refine .bind (hvisit _ (hcrateless body (by simp)) _ hinside) fun _ => .bind (m := l) (.modify fun c c' hc => ?_)
      fun _ => .pure _
    exact { hc with loops := by simp [hc.loops], loops' := by simp [hc.loops'] }
  · exact .malformed t

include hvisit in
theorem call_alike (hinside : 0 < l.depth) (h : t.crateless = true) :
    Alike c₀ c₀' l l (call visit t) (call visit t) := by
  refine .inspect fun kept hkept => ?_
  have hcrateless := crateless_operands h hkept
  split
  · exact .malformed t
  next callee arguments =>
    refine .bind (hvisit _ (hcrateless callee (by simp)) l hinside) fun type => ?_
    refine .bind (all_alike hvisit hinside fun e he => hcrateless e (List.mem_cons_of_mem _ he)) fun got => ?_
    split
    · exact .ite (.bind (.of_writes (.compareArguments ..)) fun _ => .pure _) (.bind (.report _) fun _ => .pure _)
    · exact .bind (.report _) fun _ => .pure _

include hstart hvisit in
theorem store_alike (hinside : 0 < l.depth) {target : Tree} (h : target.crateless = true) (value : Ty) (plain : Bool) :
    Alike c₀ c₀' l l (store visit target value plain) (store visit target value plain) := by
  refine .inspect fun form _ => ?_
  split
  case h_1 | h_2 =>
    refine .inspect fun name _ => .look fun c c' hc => ?_
    rw [hc.lookup? hstart]
    split
    · exact .report _
    next type htype =>
      refine .lookAt fun c c' hc => ?_
      obtain ⟨hsame, -⟩ := hc.canSettle hstart name
      rw [hc.loops, hc.loops', hsame, hc.isMutable hstart]
      split
      next hsettles =>
        rw [Bool.and_eq_true] at hsettles
        exact (Alike.require (decide (type = value)) _).runs _ _ (hc.settle hstart hsettles.2)
      · exact (Alike.bind (.require ..) fun _ => .require (decide (type = value)) _).runs _ _ hc
  · refine .bind (hvisit _ (Tree.everyNode_last h) l hinside) fun type => ?_
    split
    · exact .bind (.require ..) fun _ => .require ..
    · exact .report _
  · exact .report _

include hstart hvisit in
theorem assignment_alike (hinside : 0 < l.depth) (h : t.crateless = true) :
    Alike c₀ c₀' l l (assignment visit t) (assignment visit t) := by
  refine .inspect fun kept hkept => ?_
  have hcrateless := crateless_operands h hkept
  split
  next target value =>
    refine .bind (hvisit _ (hcrateless value (by simp)) l hinside) fun type => ?_
    have htarget := Tree.everyNode_unwrapped (hcrateless target (by simp))
    exact .bind (store_alike hstart hvisit hinside htarget _ _) fun _ => .pure _
  · exact .malformed t

include hstart hvisit in
theorem compoundAssignment_alike (hinside : 0 < l.depth) (h : t.crateless = true) :
    Alike c₀ c₀' l l (compoundAssignment visit t) (compoundAssignment visit t) := by
  refine .inspect fun kept hkept => .inspect fun op _ => ?_
  have hcrateless := crateless_operands h hkept
  split
  next target value op _ =>
    have htarget := Tree.everyNode_unwrapped (hcrateless target (by simp))
    refine .bind (hvisit _ htarget l hinside) fun left => ?_
    refine .bind (hvisit _ (hcrateless value (by simp)) l hinside) fun right => .bind (.of_writes (.binary ..)) fun type => ?_
    exact .bind (store_alike hstart hvisit hinside htarget _ _) fun _ => .pure _
  · exact .malformed t

include hstart hvisit in
theorem borrow_alike (hinside : 0 < l.depth) (h : t.crateless = true) :
    Alike c₀ c₀' l l (borrow visit t) (borrow visit t) := by
  refine .ite ?_ (.malformed t)
  refine .inspect fun mutable _ => .bind (hvisit _ (Tree.everyNode_last h) l hinside) fun type => ?_
  refine .ite (.inspect fun form _ => .ite (.inspect fun name _ => .look fun c c' hc => ?_) (.pure _)) (.pure _)
  dsimp only
  rw [hc.lookup? hstart, hc.isMutable hstart]
  exact .bind (.require ..) fun _ => .pure _

include hvisit in
theorem dereference_alike (hinside : 0 < l.depth) (h : t.crateless = true) :
    Alike c₀ c₀' l l (dereference visit t) (dereference visit t) := by
  refine .bind (hvisit _ (Tree.everyNode_last h) l hinside) fun type => ?_
  split
  · exact .pure _
  · exact .bind (.report _) fun _ => .pure _

include hstart hvisit in
/-- The rule of every form but that of a crate. -/
theorem rule_alike (hinside : 0 < l.depth) (h : t.crateless = true) {f : Form} (hf : f ≠ .crate) :
    Alike c₀ c₀' l l (rule visit f t) (rule visit f t) := by
  cases f with
  | crate => exact absurd rfl hf
  | function => exact functionItem_alike hvisit hinside h
  | block => exact block_alike hvisit h
  | letStatement => exact letStatement_alike hstart hvisit hinside h
  | expressionStatement => exact expressionStatement_alike hvisit hinside h
  | literal => exact .of_writes (.literal t)
  | path | identifier => exact path_alike hstart
  | returning => exact returning_alike hvisit hinside h
  | arithmetic | lazyBoolean => exact operation_alike hvisit hinside h
  | comparison => exact comparison_alike hvisit hinside h
  | negation => exact negation_alike hvisit hinside h
  | grouped => exact hvisit _ (Tree.everyNode_last h) l hinside
  | conditional => exact conditional_alike hvisit hinside h
  | loop => exact loop_alike hvisit hinside h
  | call => exact call_alike hvisit hinside h
  | assignment => exact assignment_alike hstart hvisit hinside h
  | compoundAssignment => exact compoundAssignment_alike hstart hvisit hinside h
  | borrow => exact borrow_alike hstart hvisit hinside h
  | dereference => exact dereference_alike hvisit hinside h
  | ascription | terminal | parameters | parameter => exact .pure _
  | other => exact inOrder_alike hvisit hinside (fun e he => Tree.everyNode_of_mem h he) _

end Rules

/-- The check of a tree without crates gives the same result in both places, by induction on the depth. -/
theorem toDepth_alike {c₀ c₀' : Checker} (hstart : Starts c₀ c₀') (depth : Nat) {t : Tree} (h : t.crateless = true)
    {l : Level} (hinside : 0 < l.depth) : Alike c₀ c₀' l l (toDepth depth t) (toDepth depth t) := by
  induction depth generalizing t l with
  | zero => exact .pure _
  | succ depth ih =>
    cases t with
    | absent => exact .pure _
    | node tag children val type =>
      refine rule_alike hstart (fun e he l hl => ih he hl) hinside h ?_
      rw [Tree.crateless, Tree.everyNode, Bool.and_eq_true] at h
      exact of_decide_eq_true h.1

end Check

end Tenure
