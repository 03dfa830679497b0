import Tenure.Proofs.Endless.Machine

/-!
# Objects of the endless heap

What stays as it is while the endless heap grows, `Grows`, and that there is never more than one node of a text,
`Texts`.
-/

set_option autoImplicit false

namespace Tenure

/-- A heap holds all nodes of an earlier one; only the slots of frames may have changed. -/
def Grows (objs later : List Obj) : Prop :=
  ∀ (a : Address) (o : Obj), objs[a]? = some o →
    ∃ o' : Obj, later[a]? = some o' ∧ o'.content = o.content ∧ o'.links.length = o.links.length ∧
      (o.content ≠ .frame → o' = o)

/-- No two nodes have one text, and the node of a text refers to nothing. -/
structure Texts (objs : List Obj) : Prop where
  unique : ∀ (a b : Address) (oa ob : Obj) (t : Text), objs[a]? = some oa → objs[b]? = some ob →
    oa.content = .string t → ob.content = .string t → a = b
  leaf : ∀ (a : Address) (o : Obj) (t : Text), objs[a]? = some o → o.content = .string t → o.links = []

namespace Grows

variable {objs later latest : List Obj}

theorem refl (objs : List Obj) : Grows objs objs := fun _ o h => ⟨o, h, rfl, rfl, fun _ => rfl⟩

theorem trans (h : Grows objs later) (h' : Grows later latest) : Grows objs latest := by
  intro a o ho
  obtain ⟨o₁, ho₁, hc₁, hl₁, he₁⟩ := h a o ho
  obtain ⟨o₂, ho₂, hc₂, hl₂, he₂⟩ := h' a o₁ ho₁
  refine ⟨o₂, ho₂, hc₂.trans hc₁, hl₂.trans hl₁, fun hne => ?_⟩
  rw [he₂ (hc₁ ▸ hne), he₁ hne]

theorem append (objs more : List Obj) : Grows objs (objs ++ more) := by
  intro a o ho
  refine ⟨o, ?_, rfl, rfl, fun _ => rfl⟩
  rw [List.getElem?_append_left (List.getElem?_eq_some_iff.mp ho).1]
  exact ho

/-- Nodes other than frames do not change. -/
theorem get (h : Grows objs later) {a : Address} {c : Content} {links : List Address} (ho : objs[a]? = some ⟨c, links⟩)
    (hc : c ≠ .frame) : later[a]? = some ⟨c, links⟩ := by
  obtain ⟨o', ho', -, -, he⟩ := h a _ ho
  rw [ho', he hc]

/-- Frames stay frames with as many slots. -/
theorem frame (h : Grows objs later) {a : Address} {cells : List Address} (ho : objs[a]? = some ⟨.frame, cells⟩) :
    ∃ cells', later[a]? = some ⟨.frame, cells'⟩ ∧ cells'.length = cells.length := by
  obtain ⟨⟨c, links⟩, ho', hc, hl, -⟩ := h a _ ho
  simp only at hc hl
  subst hc
  exact ⟨links, ho', hl⟩

theorem set {f : Address} {cells : List Address} (ho : objs[f]? = some ⟨.frame, cells⟩) (slot : Nat) (v : Address) :
    Grows objs (objs.set f ⟨.frame, cells.set slot v⟩) := by
  have hlt : f < objs.length := (List.getElem?_eq_some_iff.mp ho).1
  intro a o ha
  by_cases haf : f = a
  · subst haf
    obtain rfl : ⟨.frame, cells⟩ = o := Option.some.inj (ho.symm.trans ha)
    exact ⟨⟨.frame, cells.set slot v⟩, by simp [hlt], rfl, by simp, fun h => absurd rfl h⟩
  · exact ⟨o, by rw [List.getElem?_set_ne haf, ha], rfl, rfl, fun _ => rfl⟩

theorem length_le (h : Grows objs later) : objs.length ≤ later.length := by
  by_contra hlt
  obtain ⟨o', ho', -⟩ := h later.length objs[later.length] (List.getElem?_eq_getElem (by omega))
  simp at ho'

end Grows

namespace Texts

variable {objs : List Obj}

theorem append (h : Texts objs) {more : List Obj} (hm : ∀ o ∈ more, ∀ t, o.content ≠ .string t) :
    Texts (objs ++ more) := by
  have hold : ∀ (a : Nat) (o : Obj) (t : Text), (objs ++ more)[a]? = some o → o.content = .string t → objs[a]? = some o := by
    intro a o t ha hc
    by_cases hlt : a < objs.length
    · rwa [List.getElem?_append_left hlt] at ha
    · rw [List.getElem?_append_right (by omega)] at ha
      exact absurd hc (hm o (List.mem_of_getElem? ha) t)
  refine ⟨fun a b oa ob t ha hb hca hcb => ?_, fun a o t ha hc => h.leaf a o t (hold a o t ha hc) hc⟩
  exact h.unique a b oa ob t (hold a oa t ha hca) (hold b ob t hb hcb) hca hcb

theorem create (h : Texts objs) {t : Text} (hnew : ∀ o ∈ objs, o.content ≠ .string t) :
    Texts (objs ++ [⟨.string t, []⟩]) := by
  have hcase : ∀ (a : Nat) (o : Obj) (t' : Text), (objs ++ [⟨.string t, []⟩])[a]? = some o → o.content = .string t' →
      objs[a]? = some o ∧ t' ≠ t ∨ a = objs.length ∧ t' = t ∧ o.links = [] := by
    intro a o t' ha hc
    by_cases hlt : a < objs.length
    · rw [List.getElem?_append_left hlt] at ha
      refine .inl ⟨ha, ?_⟩
      rintro rfl
      exact hnew o (List.mem_of_getElem? ha) hc
    · rw [List.getElem?_append_right (by omega)] at ha
      have hlen := (List.getElem?_eq_some_iff.mp ha).1
      simp only [List.length_cons, List.length_nil] at hlen
      obtain rfl : a = objs.length := by omega
      simp only [Nat.sub_self, List.getElem?_cons_zero, Option.some.injEq] at ha
      subst ha
      simp only [Content.string.injEq] at hc
      exact .inr ⟨rfl, hc.symm, rfl⟩
  refine ⟨fun a b oa ob t' ha hb hca hcb => ?_, fun a o t' ha hc => ?_⟩
  · rcases hcase a oa t' ha hca with ⟨ha', hne⟩ | ⟨rfl, rfl, -⟩ <;>
      rcases hcase b ob t' hb hcb with ⟨hb', hne'⟩ | ⟨rfl, he, -⟩
    · exact h.unique a b oa ob t' ha' hb' hca hcb
    · exact absurd he hne
    · exact absurd rfl hne'
    · rfl
  · rcases hcase a o t' ha hc with ⟨ha', -⟩ | ⟨-, -, hlinks⟩
    · exact h.leaf a o t' ha' hc
    · exact hlinks

theorem set (h : Texts objs) {f : Address} {o : Obj} (ho : objs[f]? = some o) (hs : ∀ t, o.content ≠ .string t)
    (links : List Address) : Texts (objs.set f ⟨o.content, links⟩) := by
  have hold : ∀ (a : Address) (o' : Obj) (t : Text), (objs.set f ⟨o.content, links⟩)[a]? = some o' →
      o'.content = .string t → objs[a]? = some o' := by
    intro a o' t ha hc
    by_cases haf : f = a
    · subst haf
      have hlt : f < objs.length := (List.getElem?_eq_some_iff.mp ho).1
      rw [List.getElem?_set_self hlt] at ha
      cases ha
      exact absurd hc (hs t)
    · rwa [List.getElem?_set_ne haf] at ha
  refine ⟨fun a b oa ob t ha hb hca hcb => ?_, fun a o' t ha hc => h.leaf a o' t (hold a o' t ha hc) hc⟩
  exact h.unique a b oa ob t (hold a oa t ha hca) (hold b ob t hb hcb) hca hcb

theorem prelude : Texts Endless.prelude := by
  have hnone : ∀ o ∈ Endless.prelude, ∀ t, o.content ≠ .string t := by simp [Endless.prelude]
  have hnil : Texts [] := ⟨by simp, by simp⟩
  exact hnil.append hnone

end Texts

namespace Endless

/-- Objects keep their contents, whatever becomes of their links. -/
def Contents (objs later : List Obj) : Prop :=
  ∀ (a : Address) (o : Obj), objs[a]? = some o → ∃ o' : Obj, later[a]? = some o' ∧ o'.content = o.content

theorem Contents.refl (objs : List Obj) : Contents objs objs := fun _ o h => ⟨o, h, rfl⟩

theorem Contents.append (objs more : List Obj) : Contents objs (objs ++ more) := by
  intro a o ho
  rw [List.getElem?_append_left (List.getElem?_eq_some_iff.mp ho).1]
  exact ⟨o, ho, rfl⟩

/-- An effect leaves texts unique and old objects what they are, and its error is not about the structure of the
machine. -/
def Tidy (objs : List Obj) (e : Effect) : Prop :=
  (∀ s', e.outcome = .ok s' → Texts s'.objs ∧ Contents objs s'.objs) ∧ Benign e.outcome

variable {s s' : Endless} {e : Effect}

theorem tidy_fail (objs : List Obj) {err : StepError} (h : err.isStructural = false) : Tidy objs (.fail err) := by
  refine ⟨fun s' hs => ?_, .error h⟩
  cases hs

theorem tidy_done {objs : List Obj} {k : Nat} (h : Texts s.objs ∧ Contents objs s.objs) : Tidy objs ⟨k, .ok s⟩ := by
  refine ⟨fun s' hs => ?_, .ok s⟩
  cases hs
  exact h

theorem tidy_ok (h : Texts s.objs) : Tidy s.objs (.ok s) := tidy_done ⟨h, .refl _⟩

theorem tidy_append (h : Texts s.objs) {more : List Obj} (hm : ∀ o ∈ more, ∀ t, o.content ≠ .string t) :
    Texts (s.objs ++ more) ∧ Contents s.objs (s.objs ++ more) :=
  ⟨h.append hm, .append _ _⟩

theorem setCell?_tidy (h : Texts s.objs) {env v : Address} {pos : Position} (hs : s.setCell? env pos v = some s') :
    Texts s'.objs ∧ Contents s.objs s'.objs := by
  simp only [setCell?, Option.bind_eq_bind, Option.bind_eq_some_iff] at hs
  obtain ⟨f, -, o, ho, hs⟩ := hs
  split at hs
  next hslot =>
    cases hs
    refine ⟨h.set ho (fun t hc => ?_) _, fun a o' ha => ?_⟩
    · rw [h.leaf f o t ho hc, List.length_nil] at hslot
      omega
    · by_cases haf : f = a
      · subst haf
        obtain rfl : o = o' := Option.some.inj (ho.symm.trans ha)
        exact ⟨_, List.getElem?_set_self (List.getElem?_eq_some_iff.mp ha).1, rfl⟩
      · exact ⟨o', (List.getElem?_set_ne haf).trans ha, rfl⟩
  · cases hs

theorem result_tidy (h : Texts s.objs) {r : Except StepError (Bool ⊕ Number)} (hr : Benign r) :
    Tidy s.objs (s.result r) := by
  rcases r with err | b | n
  · exact tidy_fail _ (hr err rfl)
  · exact tidy_ok h
  · exact tidy_done (tidy_append h (by simp))

theorem literal_tidy (h : Texts s.objs) {l : Literal} (he : s.literal l = some e) : Tidy s.objs e := by
  have hnumber : ∀ {o : Obj}, (∀ t, o.content ≠ .string t) → Tidy s.objs (.made (s.create o)) := by
    intro o ho
    exact tidy_done (tidy_append h (by simpa using ho))
  unfold literal at he
  repeat' split at he
  · cases he
    exact tidy_ok h
  · cases he
    exact tidy_ok h
  · cases he
    exact hnumber (by simp)
  · cases he
    exact hnumber (by simp)
  · cases he
    exact hnumber (by simp)
  · cases he
    unfold text
    split
    · exact tidy_done ⟨h, .refl _⟩
    next hfind =>
      exact tidy_done ⟨h.create (by simpa using List.findIdx?_eq_none_iff.mp hfind), .append _ _⟩
  · cases he

theorem load_tidy (h : Texts s.objs) {env : Address} {pos : Position} (he : s.load env pos = some e) :
    Tidy s.objs e := by
  simp only [load, Option.bind_eq_bind, Option.bind_eq_some_iff, Option.some.injEq] at he
  obtain ⟨a, -, rfl⟩ := he
  split
  · exact tidy_fail _ rfl
  · exact tidy_ok h

theorem call_tidy (h : Texts s.objs) {arity : Int} (he : s.call arity = some e) : Tidy s.objs e := by
  unfold call at he
  split at he
  · cases he
  simp only [Option.bind_eq_bind, Option.bind_eq_some_iff] at he
  obtain ⟨callee, -, o, -, he⟩ := he
  split at he
  · obtain ⟨b, -, he⟩ := Option.bind_eq_some_iff.mp he
    split at he
    · cases he
      exact tidy_fail _ rfl
    · simp only [callBuiltin, Option.bind_eq_bind, Option.bind_eq_some_iff] at he
      obtain ⟨xs, -, he⟩ := he
      split at he
      · obtain ⟨a, -, he⟩ := Option.bind_eq_some_iff.mp he
        cases he
        exact tidy_ok h
      · cases he
        exact tidy_done (tidy_append h (by simp))
      next herr =>
        cases he
        exact tidy_fail _ ((Computed.builtin _ _).benign _ herr)
  · split at he
    · cases he
      exact tidy_fail _ rfl
    · obtain ⟨env, -, he⟩ := Option.bind_eq_some_iff.mp he
      simp only [callClosure, Option.bind_eq_bind, Option.bind_eq_some_iff] at he
      obtain ⟨outer, -, he⟩ := he
      split at he
      · cases he
        exact tidy_done (tidy_append h (by simp))
      · cases he
  · cases he
    exact tidy_fail _ rfl

theorem reset_tidy (h : Texts s.objs) (he : s.reset = some e) : Tidy s.objs e := by
  unfold reset at he
  split at he
  · cases he
  obtain ⟨o, -, he⟩ := Option.bind_eq_some_iff.mp he
  split at he
  · cases he
    exact tidy_ok h
  · obtain ⟨a, -, he⟩ := Option.bind_eq_some_iff.mp he
    split at he
    · cases he
      exact tidy_ok h
    · cases he
  · cases he

theorem updateReference_tidy (h : Texts s.objs) (he : s.updateReference = some e) : Tidy s.objs e := by
  unfold updateReference at he
  split at he
  · obtain ⟨o, -, he⟩ := Option.bind_eq_some_iff.mp he
    split at he
    · split at he
      · simp only [Option.bind_eq_bind, Option.bind_eq_some_iff, Option.some.injEq] at he
        obtain ⟨env, -, s', hs, rfl⟩ := he
        have htidy := setCell?_tidy (by exact h) hs
        exact tidy_done htidy
      · cases he
        exact tidy_fail _ rfl
    · cases he
      exact tidy_fail _ rfl
  · cases he

/-- A step keeps texts unique. -/
theorem step_tidy (h : Texts s.objs) {i : Instr} (he : s.step i = some e) : Tidy s.objs e := by
  obtain ⟨o, -, he⟩ := Option.bind_eq_some_iff.mp he
  cases o <;> simp only [stepOperation] at he
  case loadConstant => exact literal_tidy (s := s.next) h he
  case load => exact load_tidy (s := s.next) h he
  case assign =>
    simp only [Option.bind_eq_bind, Option.bind_eq_some_iff, Option.some.injEq] at he
    obtain ⟨a, -, s', hs, rfl⟩ := he
    exact tidy_done (setCell?_tidy (s := s.next) h hs)
  case drop =>
    obtain ⟨s', hs, he⟩ := Option.bind_eq_some_iff.mp he
    cases he
    exact tidy_done (setCell?_tidy (s := s.next) h hs)
  case reference =>
    obtain ⟨a, -, he⟩ := Option.bind_eq_some_iff.mp he
    cases he
    exact tidy_done (tidy_append (s := s.next) h (by simp))
  case dereference =>
    unfold dereference at he
    split at he
    · cases he
    · obtain ⟨o, -, he⟩ := Option.bind_eq_some_iff.mp he
      split at he
      · obtain ⟨env, -, he⟩ := Option.bind_eq_some_iff.mp he
        exact load_tidy (s := { s.next with operands := _ }) h he
      · cases he
        exact tidy_fail _ rfl
  case updateReference => exact updateReference_tidy (s := s.next) h he
  case jumpUnless =>
    split at he
    · unfold jumpUnless at he
      split at he
      · cases he
      · split at he
        · cases he
          exact tidy_ok h
        · split at he
          · cases he
            exact tidy_ok h
          · obtain ⟨o, -, he⟩ := Option.bind_eq_some_iff.mp he
            cases he
            exact tidy_fail _ rfl
    · cases he
  case jump =>
    split at he
    · cases he
      exact tidy_ok h
    · cases he
  case unary =>
    split at he
    · cases he
    · obtain ⟨x, -, he⟩ := Option.bind_eq_some_iff.mp he
      cases he
      refine result_tidy ?_ (Computed.unary _ _).benign
      exact h
  case binary =>
    split at he
    · simp only [Option.bind_eq_bind, Option.bind_eq_some_iff, Option.some.injEq] at he
      obtain ⟨x, -, y, -, rfl⟩ := he
      refine result_tidy ?_ (Computed.binary _ _ _ _).benign
      exact h
    · cases he
  case call => exact call_tidy (s := s.next) h he
  case reset => exact reset_tidy h he
  case loadFunction =>
    cases he
    exact tidy_done (tidy_append (s := s.next) h (by simp))
  case enterScope =>
    obtain ⟨outer, -, he⟩ := Option.bind_eq_some_iff.mp he
    split at he
    · cases he
      exact tidy_done (tidy_append h (by simp))
    · cases he
  case exitScope =>
    unfold exitScope at he
    split at he
    · cases he
    · obtain ⟨o, -, he⟩ := Option.bind_eq_some_iff.mp he
      split at he
      · cases he
        exact tidy_ok h
      · cases he
  case pop =>
    split at he
    · cases he
    · cases he
      exact tidy_ok h
  case done => cases he

end Endless

end Tenure
