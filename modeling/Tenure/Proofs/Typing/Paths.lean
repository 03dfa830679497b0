import Tenure.Proofs.Typing.Programs

/-!
# Names that no path has

Resolving a tree in which no path has some name leaves the slots of that name in the frames around it alone:
`Resolve.expression_spares`. So no function of a crate names the function at which it starts where no path has the name of
that function: `Tree.entryUnnamed_of_paths`.
-/

set_option autoImplicit false

namespace Tenure

namespace Tree

mutual

/-- No path in a tree has a name. -/
def avoids (name : Text) : Tree → Bool
  | .absent => true
  | .node tag children val type =>
    (Form.ofTag tag ≠ .path || (Tree.node tag children val type).name.toOption ≠ some name) && avoidsAll name children

/-- No path in any of some trees has a name. -/
def avoidsAll (name : Text) : List Tree → Bool
  | [] => true
  | t :: rest => t.avoids name && avoidsAll name rest

end

variable {t e : Tree} {name : Text}

theorem avoids_of_all {ts : List Tree} (h : avoidsAll name ts = true) (he : e ∈ ts) : e.avoids name = true := by
  induction ts with
  | nil => cases he
  | cons t rest ih =>
    rw [avoidsAll, Bool.and_eq_true] at h
    rcases List.mem_cons.mp he with rfl | he
    · exact h.1
    · exact ih h.2 he

theorem avoids_child (h : t.avoids name = true) (he : e ∈ t.children) : e.avoids name = true := by
  cases t with
  | absent => cases he
  | node tag children val type =>
    rw [avoids, Bool.and_eq_true] at h
    exact avoids_of_all h.2 he

theorem avoids_last (h : t.avoids name = true) : t.last.avoids name = true := by
  cases hpresent : t.last.isPresent with
  | true => exact avoids_child h (last_mem hpresent)
  | false =>
    cases hlast : t.last with
    | absent => rfl
    | node =>
      rw [hlast] at hpresent
      cases hpresent

theorem avoids_ungroup (h : t.avoids name = true) (fuel : Nat) : (t.ungroup fuel).avoids name = true := by
  induction fuel generalizing t with
  | zero => exact h
  | succ fuel ih =>
    cases t with
    | absent => exact h
    | node tag children val type =>
      rw [ungroup]
      split
      · exact ih (avoids_last h)
      · exact h

/-- A path in a tree that avoids a name has another one. -/
theorem name_of_avoids (h : t.avoids name = true) (hform : t.form = .ok .path) : t.name ≠ .ok name := by
  obtain ⟨tag, children, val, type, rfl, htag⟩ := of_form hform
  intro hname
  rw [avoids, hname, htag] at h
  simp [Except.toOption] at h

/-- A name alone is no expression. -/
theorem Expression.form_ne_identifier (h : t.Expression) : t.form ≠ .ok .identifier := by
  intro hform
  cases h with
  | leaf h => rcases h with h | h <;> cases hform.symm.trans h
  | node h htakes =>
    cases hform.symm.trans h
    exact htakes
  | borrow h => cases hform.symm.trans h
  | block h => cases hform.symm.trans h

end Tree

/-! ## Steps that leave the places alone -/

/-- A slot of some frame has a name. -/
def Places.Has (p : Places) (name : Text) (frame slot : Nat) : Prop :=
  ∃ slots s, p[frame]? = some slots ∧ slots[slot]? = some s ∧ s.name = name

theorem Places.Has.of_dropLast {p : Places} {name : Text} {frame slot : Nat} (h : Places.Has p.dropLast name frame slot) :
    p.Has name frame slot := by
  obtain ⟨slots, s, hslots, hs, hname⟩ := h
  refine ⟨slots, s, ?_, hs, hname⟩
  have hlt := (List.getElem?_eq_some_iff.mp hslots).1
  rw [List.dropLast_eq_take, List.getElem?_take_of_lt] at hslots
  · exact hslots
  · simpa using hlt

/-- A term names no slot that has a name, except for slots of the innermost frame. -/
def Places.Spared (name : Text) (p : Places) {n : Nat} (x : Term n) : Prop :=
  ∀ ⦃frame slot⦄, Places.Has p.dropLast name frame slot → ¬ x.Names frame slot

namespace Resolve

/-- A step leaves the places alone, and its outcome has a property. -/
def Keeps {α : Type} (r : Resolve α) (P : Places → α → Prop) : Prop := ∀ ⦃p p' a⦄, r p = some (a, p') → p' = p ∧ P p a

/-- A step leaves the places alone, and its term spares the slots of a name. -/
abbrev Spares {n : Nat} (name : Text) (r : Resolve (Term n)) : Prop := Keeps r fun p x => Places.Spared name p x

namespace Keeps

variable {α β : Type} {r : Resolve α} {P : Places → α → Prop} {Q : Places → β → Prop}

theorem pure {a : α} (h : ∀ p, P p a) : Keeps (pure a) P := by
  intro p p' b hb
  obtain ⟨rfl, rfl⟩ := Resolve.pure_some.mp hb
  exact ⟨rfl, h _⟩

theorem failure : Keeps failure P := by
  intro p p' a h
  cases h

theorem bind {f : α → Resolve β} (hr : Keeps r P) (hf : ∀ a, Keeps (f a) fun p b => P p a → Q p b) :
    Keeps (r >>= f) Q := by
  intro p p' b h
  obtain ⟨a, p₁, ha, hb⟩ := Resolve.bind_some.mp h
  obtain ⟨rfl, hP⟩ := hr ha
  obtain ⟨rfl, hQ⟩ := hf a hb
  exact ⟨rfl, hQ hP⟩

theorem lift_bind {x : Inspect α} {f : α → Resolve β} (hf : ∀ a, x = .ok a → Keeps (f a) Q) :
    Keeps (liftM x >>= f) Q := by
  intro p p' b h
  obtain ⟨a, ha, hb⟩ := Resolve.lift_bind_some.mp h
  exact hf a ha hb

/-- A name other than a given one stands for no slot that has the given one. -/
theorem position {name other : Text} (hne : name ≠ other) :
    Keeps (Resolve.position name) fun p place => ∀ ⦃frame slot⦄, Places.Has p.dropLast other frame slot →
      ¬ (place.1 = frame ∧ place.2 = slot) := by
  intro p p' place h
  obtain ⟨hfind, rfl⟩ := Resolve.position_some.mp h
  refine ⟨rfl, ?_⟩
  rintro frame slot hother ⟨rfl, rfl⟩
  obtain ⟨slots, s, hslots, hs, rfl⟩ : Places.Has p' name place.1 place.2 := Places.name_of_find? hfind
  obtain ⟨slots', s', hslots', hs', rfl⟩ := hother.of_dropLast
  cases hslots.symm.trans hslots'
  cases hs.symm.trans hs'
  exact hne rfl

end Keeps

/-! ## Expressions -/

section Expressions

variable {visit : Resolve.Visit} {name : Text} {t a b : Tree}

theorem path_spares {other : Text} (hne : other ≠ name) : Spares name (Resolve.path other) :=
  (Keeps.position hne).bind fun _ => .pure fun _ hplace _ _ h => hplace h

theorem literal_spares : Spares name (Resolve.literal t) := by
  refine .lift_bind fun source _ => ?_
  split
  · exact .pure fun _ _ _ _ => id
  · exact .failure

theorem binary_spares (hoperands : t.operands = .ok [a, b]) (ha : Spares name (visit a)) (hb : Spares name (visit b)) :
    Spares name (Resolve.binary visit t) := by
  refine .lift_bind fun operands h => ?_
  cases hoperands.symm.trans h
  exact ha.bind fun x => hb.bind fun y => .lift_bind fun op _ => .pure fun p hy hx frame slot h =>
    not_or.mpr ⟨hx h, hy h⟩

theorem unary_spares (hoperands : t.operands = .ok [a]) (ha : Spares name (visit a)) :
    Spares name (Resolve.unary visit t) := by
  refine .lift_bind fun operands h => ?_
  cases hoperands.symm.trans h
  exact ha.bind fun x => .lift_bind fun op _ => .pure fun p hx => hx

theorem conditional_spares {condition : Tree} (hoperands : t.operands = .ok [condition, a, b])
    (hcondition : Spares name (visit condition)) (ha : Spares name (visit a)) (hb : Spares name (visit b)) :
    Spares name (Resolve.conditional visit t) := by
  refine .lift_bind fun operands h => ?_
  cases hoperands.symm.trans h
  exact hcondition.bind fun x => ha.bind fun y => hb.bind fun z => .pure fun p hz hy hx frame slot h =>
    not_or.mpr ⟨hx h, not_or.mpr ⟨hy h, hz h⟩⟩

theorem loop_spares (hoperands : t.operands = .ok [a, b]) (ha : Spares name (visit a)) (hb : Spares name (visit b)) :
    Spares name (Resolve.loop visit t) := by
  refine .lift_bind fun operands h => ?_
  cases hoperands.symm.trans h
  exact ha.bind fun x => hb.bind fun y => .pure fun p hy hx frame slot h => not_or.mpr ⟨hx h, hy h⟩

theorem arguments_spares {ts : List Tree} (hts : ∀ e ∈ ts, Spares name (visit e)) :
    Spares name (Resolve.arguments visit ts) := by
  induction ts with
  | nil => exact .pure fun _ _ _ _ => id
  | cons e rest ih =>
    refine (hts e (List.mem_cons_self ..)).bind fun x => ?_
    exact (ih fun e he => hts e (List.mem_cons_of_mem _ he)).bind fun y => .pure fun p hy hx frame slot h =>
      not_or.mpr ⟨hx h, hy h⟩

theorem call_spares {callee : Tree} {arguments : List Tree} (hoperands : t.operands = .ok (callee :: arguments))
    (hcallee : Spares name (visit callee)) (harguments : ∀ e ∈ arguments, Spares name (visit e)) :
    Spares name (Resolve.call visit t) := by
  refine .lift_bind fun operands h => ?_
  cases hoperands.symm.trans h
  exact hcallee.bind fun x => (arguments_spares harguments).bind fun y => .pure fun p hy hx frame slot h =>
    not_or.mpr ⟨hx h, hy h⟩

theorem returning_spares (hlast : t.last.isPresent = true → Spares name (visit t.last)) :
    Spares name (Resolve.returning visit t) := by
  unfold Resolve.returning
  split
  next hpresent => exact (hlast hpresent).bind fun x => .pure fun p hx => hx
  · exact Keeps.bind (P := fun p x => Places.Spared name p x) (.pure fun _ _ _ _ => id) fun x => .pure fun p hx => hx

/-- The target of an assignment is a variable of another name, or a reference. -/
structure SparesTarget (name : Text) (visit : Resolve.Visit) (a : Tree) : Prop where
  identifier : a.unwrapped.form ≠ .ok .identifier
  path : a.unwrapped.form = .ok .path → a.unwrapped.name ≠ .ok name
  reference : a.unwrapped.form = .ok .dereference → Spares name (visit a.unwrapped.last)

theorem assignment_spares (hoperands : t.operands = .ok [a, b]) (ha : SparesTarget name visit a)
    (hb : Spares name (visit b)) : Spares name (Resolve.assignment visit t) := by
  refine .lift_bind fun operands h => ?_
  cases hoperands.symm.trans h
  refine .lift_bind fun form hform => ?_
  split
  · refine .lift_bind fun other hother => ?_
    have hne : other ≠ name := by
      rintro rfl
      exact ha.path hform hother
    exact (Keeps.position hne).bind fun place => hb.bind fun y => .pure fun p hy hplace frame slot h =>
      not_or.mpr ⟨not_or.mpr ⟨hplace h, hy h⟩, id⟩
  · exact absurd hform ha.identifier
  · exact (ha.reference hform).bind fun x => hb.bind fun y => .pure fun p hy hx frame slot h =>
      not_or.mpr ⟨not_or.mpr ⟨hx h, hy h⟩, id⟩
  · exact .failure

theorem compoundAssignment_spares (hoperands : t.operands = .ok [a, b]) (ha : SparesTarget name visit a)
    (hb : Spares name (visit b)) : Spares name (Resolve.compoundAssignment visit t) := by
  refine .lift_bind fun op _ => .lift_bind fun operands h => ?_
  cases hoperands.symm.trans h
  refine .lift_bind fun form hform => ?_
  split
  · refine .lift_bind fun other hother => ?_
    have hne : other ≠ name := by
      rintro rfl
      exact ha.path hform hother
    exact (Keeps.position hne).bind fun place => hb.bind fun y => .pure fun p hy hplace frame slot h =>
      not_or.mpr ⟨not_or.mpr ⟨hplace h, not_or.mpr ⟨hplace h, hy h⟩⟩, id⟩
  · exact absurd hform ha.identifier
  · exact (ha.reference hform).bind fun x => (ha.reference hform).bind fun y => hb.bind fun z =>
      .pure fun p hz hy hx frame slot h => not_or.mpr ⟨not_or.mpr ⟨hx h, not_or.mpr ⟨hy h, hz h⟩⟩, id⟩
  · exact .failure

theorem borrow_spares (hoperand : t.last.unwrapped.Expression) (havoids : t.last.unwrapped.avoids name = true) :
    Spares name (Resolve.borrow t) := by
  obtain ⟨form, hform, -⟩ := hoperand.form
  unfold Resolve.borrow
  dsimp only
  rw [Tree.ofTag_of_form hform]
  split
  · refine .lift_bind fun other hother => ?_
    have hne : other ≠ name := by
      rintro rfl
      exact Tree.name_of_avoids havoids hform hother
    exact (Keeps.position hne).bind fun place => .lift_bind fun mutable _ => .pure fun p hplace => hplace
  · exact absurd hform hoperand.form_ne_identifier
  · exact .failure

end Expressions

/-! ## Blocks -/

section Blocks

variable {visit : Resolve.Visit} {name : Text} {t : Tree}

/-- Statements may declare slots of the innermost frame, and spare the slots of a name around it. -/
def StatementSpares (name : Text) (r : Resolve (Term 0)) : Prop :=
  ∀ ⦃q frame p' x⦄, r (q ++ [frame]) = some (x, p') → (∃ frame', p' = q ++ [frame']) ∧
    ∀ ⦃f s⦄, Places.Has q name f s → ¬ x.Names f s

theorem Spares.statement {r : Resolve (Term 0)} (h : Spares name r) : StatementSpares name r := by
  intro q frame p' x hx
  obtain ⟨rfl, hspared⟩ := h hx
  refine ⟨⟨frame, rfl⟩, fun f s hname => hspared ?_⟩
  rwa [List.dropLast_concat]

theorem letStatement_spares (hinitial : ∀ e, t.initializer = .ok (some e) → Spares name (visit e)) :
    StatementSpares name (Resolve.letStatement visit t) := by
  intro q frame p' x hx
  have hdeclare : ∀ slot, ∃ frame', Places.declare (q ++ [frame]) slot = q ++ [frame'] := by
    intro slot
    rw [Places.declare, List.dropLast_concat]
    exact ⟨_, rfl⟩
  obtain ⟨other, -, hx⟩ := Resolve.lift_bind_some.mp hx
  rw [Resolve.bind_apply, Resolve.get_apply, Option.bind_some] at hx
  cases hslot : Places.firstUndeclared? other (Places.innermost (q ++ [frame])) with
  | none =>
    rw [hslot] at hx
    cases hx
  | some slot =>
    rw [hslot] at hx
    obtain ⟨initial, hinitial', hx⟩ := Resolve.lift_bind_some.mp hx
    cases initial with
    | none =>
      cases hx
      exact ⟨hdeclare slot, fun _ _ _ => id⟩
    | some e =>
      obtain ⟨value, p₁, hvalue, hx⟩ := Resolve.bind_some.mp hx
      obtain ⟨rfl, hspared⟩ := hinitial e hinitial' hvalue
      cases hx
      refine ⟨hdeclare slot, fun f s hname => not_or.mpr ⟨?_, hspared ?_⟩⟩
      · rintro ⟨rfl, -⟩
        obtain ⟨slots, -, hslots, -⟩ := hname
        have := (List.getElem?_eq_some_iff.mp hslots).1
        simp at this
      · rwa [List.dropLast_concat]

theorem statement_spares (hstatement : t.Statement) (havoids : t.avoids name = true)
    (hvisit : ∀ e, e.Expression → e.avoids name = true → Spares name (visit e)) :
    StatementSpares name (Resolve.statement visit t) := by
  intro q frame p' x hx
  obtain ⟨form, hform, hx⟩ := Resolve.lift_bind_some.mp hx
  cases hstatement with
  | letStatement hform' hinitial =>
    cases hform.symm.trans hform'
    refine letStatement_spares (fun e he => hvisit e (hinitial e he) ?_) hx
    exact Tree.avoids_child havoids (Tree.mem_of_firstWith he)
  | @expressionStatement _ e hform' hchildren hexpression =>
    cases hform.symm.trans hform'
    have hlast := Tree.last_of_children hchildren
    obtain ⟨eform, heform, -⟩ := hexpression.form
    dsimp only at hx
    rw [hlast, if_pos (Tree.isPresent_of_form heform)] at hx
    have he : Spares name (visit e) := hvisit e hexpression (hlast ▸ Tree.avoids_last havoids)
    exact Spares.statement (he.bind fun y => .pure fun p hy => hy) hx
  | expression hexpression =>
    obtain ⟨form', hform', hitem⟩ := hexpression.form
    cases hform.symm.trans hform'
    have he := hvisit t hexpression havoids
    cases form <;> cases hitem
    all_goals exact Spares.statement (he.bind fun y => .pure fun p hy => hy) hx

theorem statements_spares {ts : List Tree} (hts : ∀ s ∈ ts, s.Statement ∧ s.avoids name = true)
    (hvisit : ∀ e, e.Expression → e.avoids name = true → Spares name (visit e)) :
    StatementSpares name (Resolve.statements visit ts) := by
  induction ts with
  | nil =>
    intro q frame p' x hx
    cases hx
    exact ⟨⟨frame, rfl⟩, fun _ _ _ => id⟩
  | cons t rest ih =>
    intro q frame p' x hx
    obtain ⟨y, p₁, hy, hx⟩ := Resolve.bind_some.mp hx
    obtain ⟨z, p₂, hz, hx⟩ := Resolve.bind_some.mp hx
    obtain ⟨rfl, rfl⟩ := Resolve.pure_some.mp hx
    obtain ⟨hstatement, havoids⟩ := hts t (List.mem_cons_self ..)
    obtain ⟨⟨frame₁, rfl⟩, hfirst⟩ := statement_spares hstatement havoids hvisit hy
    obtain ⟨hp, hrest⟩ := ih (fun s hs => hts s (List.mem_cons_of_mem _ hs)) hz
    exact ⟨hp, fun f s hname => not_or.mpr ⟨hfirst hname, hrest hname⟩⟩

/-- The value of a block is that of an expression. -/
theorem expression_of_tail? {e : Tree} (hchildren : ∀ s ∈ t.children, s.Statement) (h : Compile.tail? t = some e) :
    e ∈ t.children ∧ e.Expression := by
  have heffect : ∀ last, t.children.getLast? = some last → ¬ last.IsEffect := by
    intro last hlast hform
    have hnone : Compile.tail? t = none := tail?_of_effect fun s hs => by
      cases hlast.symm.trans hs
      exact hform
    cases hnone.symm.trans h
  cases hlast : t.children.getLast? with
  | none => simp [Compile.tail?, hlast] at h
  | some last =>
    have hmem := List.mem_of_getLast? hlast
    cases hchildren last hmem with
    | letStatement hform => exact absurd (.inl hform) (heffect last hlast)
    | expressionStatement hform => exact absurd (.inr hform) (heffect last hlast)
    | expression hexpression =>
      cases (tail?_of_expression hlast hexpression).symm.trans h
      exact ⟨hmem, hexpression⟩

theorem block_spares (hchildren : ∀ s ∈ t.children, s.Statement) (havoids : t.avoids name = true)
    (hvisit : ∀ e, e.Expression → e.avoids name = true → Spares name (visit e)) :
    Spares name (Resolve.block visit t) := by
  intro p p' x hx
  obtain ⟨names, body, value, p₁, p₂, -, hbody, hvalue, rfl, rfl⟩ := block_parts hchildren hx
  have hstatements : ∀ s ∈ (if (Compile.tail? t).isSome then t.children.dropLast else t.children),
      s.Statement ∧ s.avoids name = true := by
    intro s hs
    have hmem : s ∈ t.children := by
      split at hs
      · exact (List.dropLast_sublist _).subset hs
      · exact hs
    exact ⟨hchildren s hmem, Tree.avoids_child havoids hmem⟩
  obtain ⟨⟨frame, rfl⟩, hspared⟩ := statements_spares hstatements hvisit hbody
  have hend : p₂ = p ++ [frame] ∧ ∀ ⦃f s⦄, Places.Has p name f s → ¬ value.Names f s := by
    rcases hvalue with ⟨-, rfl, rfl⟩ | ⟨e, he, hvalue⟩
    · exact ⟨rfl, fun _ _ _ => id⟩
    · obtain ⟨hmem, hexpression⟩ := expression_of_tail? hchildren he
      obtain ⟨rfl, hspared⟩ := hvisit e hexpression (Tree.avoids_child havoids hmem) hvalue
      refine ⟨rfl, fun f s hname => hspared ?_⟩
      rwa [List.dropLast_concat]
  obtain ⟨rfl, hlast⟩ := hend
  refine ⟨List.dropLast_concat, fun f s hname => ?_⟩
  have houter := hname.of_dropLast
  exact not_or.mpr ⟨id, not_or.mpr ⟨hspared houter, hlast houter⟩⟩

end Blocks

/-- Resolving an expression in which no path has a name leaves the slots of that name around it alone. -/
theorem expression_spares (name : Text) (fuel : Nat) : ∀ e : Tree, e.Expression → e.avoids name = true →
    Spares name (Resolve.toDepth fuel e) := by
  induction fuel with
  | zero =>
    intro e _ _ p p' x hx
    cases hx
  | succ fuel ih =>
    intro t ht havoids
    obtain ⟨form, hform, -⟩ := ht.form
    rw [Resolve.toDepth_of_form hform]
    cases ht with
    | leaf h =>
      rcases h with h | h <;> cases hform.symm.trans h
      · exact literal_spares
      · refine .lift_bind fun other hother => path_spares ?_
        rintro rfl
        exact Tree.name_of_avoids havoids hform hother
    | node h htakes hall =>
      cases hform.symm.trans h
      have hchild : ∀ e ∈ t.children, Spares name (Resolve.toDepth fuel e) := fun e he =>
        ih e (hall e he) (Tree.avoids_child havoids he)
      have htarget : ∀ e ∈ t.children, SparesTarget name (Resolve.toDepth fuel) e := by
        intro e he
        have hexpression := (hall e he).unwrapped.1
        have havoids' : e.unwrapped.avoids name = true := Tree.avoids_ungroup (Tree.avoids_child havoids he) _
        exact ⟨hexpression.form_ne_identifier, Tree.name_of_avoids havoids', fun hform =>
          ih _ (hexpression.dereference hform).1 (Tree.avoids_last havoids')⟩
      have hoperands := Tree.operands_of_expressions hall
      cases form <;> first | exact htakes.elim | skip
      case arithmetic | comparison | lazyBoolean =>
        obtain ⟨a, b, hab⟩ := List.length_eq_two.mp htakes
        rw [hab] at hchild hoperands
        exact binary_spares hoperands (hchild a (by simp)) (hchild b (by simp))
      case negation =>
        obtain ⟨a, ha⟩ := List.length_eq_one_iff.mp htakes
        rw [ha] at hchild hoperands
        exact unary_spares hoperands (hchild a (by simp))
      case grouped =>
        obtain ⟨a, ha⟩ := List.length_eq_one_iff.mp htakes
        rw [Resolve.rule, Resolve.group, ha, Tree.last_of_children ha]
        exact hchild a (by simp [ha])
      case dereference =>
        obtain ⟨a, ha⟩ := List.length_eq_one_iff.mp htakes
        rw [Resolve.rule, Resolve.dereference, Tree.last_of_children ha]
        exact (hchild a (by simp [ha])).bind fun x => .pure fun p hx => hx
      case other =>
        obtain ⟨a, ha⟩ := List.length_eq_one_iff.mp htakes
        rw [Resolve.rule, Resolve.wrapper, ha]
        exact hchild a (by simp [ha])
      case conditional =>
        obtain ⟨condition, a, b, hab⟩ := List.length_eq_three.mp htakes
        rw [hab] at hchild hoperands
        exact conditional_spares hoperands (hchild condition (by simp)) (hchild a (by simp)) (hchild b (by simp))
      case loop =>
        obtain ⟨a, b, hab⟩ := List.length_eq_two.mp htakes
        rw [hab] at hchild hoperands
        exact loop_spares hoperands (hchild a (by simp)) (hchild b (by simp))
      case call =>
        obtain ⟨callee, arguments, hcall⟩ := List.exists_cons_of_ne_nil (List.length_pos_iff.mp htakes)
        rw [hcall] at hchild hoperands
        exact call_spares hoperands (hchild callee (by simp)) fun e he => hchild e (by simp [he])
      case returning => exact returning_spares fun hpresent => hchild _ (Tree.last_mem hpresent)
      case assignment =>
        obtain ⟨a, b, hab⟩ := List.length_eq_two.mp htakes
        rw [hab] at hchild htarget hoperands
        exact assignment_spares hoperands (htarget a (by simp)) (hchild b (by simp))
      case compoundAssignment =>
        obtain ⟨a, b, hab⟩ := List.length_eq_two.mp htakes
        rw [hab] at hchild htarget hoperands
        exact compoundAssignment_spares hoperands (htarget a (by simp)) (hchild b (by simp))
    | borrow h hoperand =>
      cases hform.symm.trans h
      exact borrow_spares hoperand.unwrapped.1 (Tree.avoids_ungroup (Tree.avoids_last havoids) _)
    | block h hchildren =>
      cases hform.symm.trans h
      exact block_spares hchildren havoids ih

/-! ## Crates -/

section Crates

variable {name : Text} {fuel : Nat} {item : Tree} {p p' : Places}

/-- The body of a function spares the slots of a name in all frames around the function. -/
theorem function_spares {x : Term 0}
    (hbody : ∀ body, item.child .block = .ok (some body) → body.Expression) (havoids : item.avoids name = true)
    (h : Resolve.function (Resolve.toDepth fuel) item p = some (x, p')) :
    p' = p ∧ ∃ frame slot arity body, x = .store frame slot (.closure arity body) ∧
      ∀ ⦃f s⦄, Places.Has p name f s → ¬ body.Names f s := by
  obtain ⟨_, block, _, names, body, p₁, frame, slot, -, hblock, -, -, hvisit, rfl, -, rfl⟩ := Resolve.function_some h
  have havoids' : block.avoids name = true := Tree.avoids_child havoids (Tree.mem_of_firstWith hblock)
  obtain ⟨rfl, hspared⟩ := expression_spares name fuel block (hbody block hblock) havoids' hvisit
  refine ⟨List.dropLast_concat, frame, slot, names.length, body, rfl, fun f s hname => hspared ?_⟩
  rwa [List.dropLast_concat]

theorem functions_spare {items : List Tree} {x : Term 0}
    (hbodies : ∀ item ∈ items, ∀ body, item.child .block = .ok (some body) → body.Expression)
    (havoids : ∀ item ∈ items, item.avoids name = true)
    (h : Resolve.functions (Resolve.toDepth fuel) items p = some (x, p')) :
    p' = p ∧ ∀ body ∈ x.bodies, ∀ ⦃f s⦄, Places.Has p name f s → ¬ body.Names f s := by
  induction items generalizing x p' with
  | nil =>
    cases h
    exact ⟨rfl, by simp [Term.bodies]⟩
  | cons item items ih =>
    simp only [Resolve.functions, Resolve.bind_some, Resolve.pure_some] at h
    obtain ⟨y, p₁, hy, z, p₂, hz, rfl, rfl⟩ := h
    obtain ⟨rfl, frame, slot, arity, first, rfl, hfirst⟩ :=
      function_spares (hbodies item (List.mem_cons_self ..)) (havoids item (List.mem_cons_self ..)) hy
    obtain ⟨rfl, hrest⟩ := ih (fun other hother => hbodies other (List.mem_cons_of_mem _ hother))
      (fun other hother => havoids other (List.mem_cons_of_mem _ hother)) hz
    exact ⟨rfl, List.forall_mem_cons.mpr ⟨hfirst, hrest⟩⟩

end Crates

end Resolve

/-- Where no path has the name of the function at which a crate starts, no function names that function. -/
theorem Tree.entryUnnamed_of_paths {t : Tree} (hnormal : t.Normal) (hpaths : t.avoids "main" = true) : t.EntryUnnamed := by
  intro x hx e he
  obtain ⟨names, items, frame, slot, p', -, hresolved, hmain, rfl⟩ := Resolve.program_some hx
    (Tree.childrenOf_functions hnormal.items)
  cases he
  obtain ⟨rfl, hspared⟩ := Resolve.functions_spare hnormal.bodies (fun item hitem => Tree.avoids_child hpaths hitem)
    hresolved
  exact fun body hbody => hspared body hbody (Places.name_of_find? hmain)

end Tenure
