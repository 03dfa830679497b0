import Tenure.Proofs.Mirror.Machine
import Tenure.Proofs.Mirror.Operators

/-!
# Instructions

The machine does with every instruction what the endless machine does with it: `Matches.execute`. There is one lemma
for each operation; allocations are those of `Adds`, and what an operator sees of its operands is the same on both
sides.
-/

set_option autoImplicit false

namespace Tenure

open MachineM

namespace Matches

variable {φ : Address → Address} {s : Endless} {m : Machine} {e : Effect}

/-! ## Constants -/

theorem leaf_adds (hm : Matches φ s m) {c : Content} (hc : c ≠ .free) (hs : ∀ t, c ≠ .string t) :
    Adds (HeapM.allocate (.fresh c 0)) φ s.objs s.roots s.objs.length (s.objs ++ [⟨c, []⟩]) (rootsOf m) m.heap := by
  refine allocate_adds (o := ⟨c, []⟩) hm.mirrors hm.rooted (by simp) ⟨rfl, hc, rfl, by simp, ?_⟩ hs
  simp [Node.traced, Node.fresh]

theorem push_leaf (hm : Matches φ s m) {c : Content} (hc : c ≠ .free) (hs : ∀ t, c ≠ .string t) :
    Follows s.objs φ (do MachineM.push (← onHeap (HeapM.allocate (.fresh c 0)))) m (.made (s.create ⟨c, []⟩)) :=
  hm.push_create (hm.leaf_adds hc hs) (by simp)

/-- A value that exists once. -/
theorem push_permanent (hm : Matches φ s m) {a : Nat} (ha : a < Heap.bottom) {x : MachineM Address}
    (hx : x m = (.ok a, m)) : Follows s.objs φ (do MachineM.push (← x)) m (.ok (s.push a)) := by
  refine .ok (φ := φ) (k := { m with operands := m.operands.push a }) ?_ ?_ ⟨rfl, rfl, rfl⟩
  · rw [bind_ok hx]
    rfl
  · have := hm.push (.permanent ha)
    rwa [hm.mirrors.fixed a ha] at this

theorem ofBool_lt (b : Bool) : Heap.ofBool b < Heap.bottom := by cases b <;> decide

/-- The node of a text: the one of a reachable object, or one that is given to the object. -/
theorem text_follows (hm : Matches φ s m) (ht : Texts s.objs) (t : Text) :
    Follows s.objs φ (do MachineM.push (← onHeap (HeapM.string t))) m (s.text t) := by
  unfold Endless.text
  cases hfind : s.findText? t with
  | some a =>
    simp only
    obtain ⟨hlt, hcontent, -⟩ := List.findIdx?_eq_some_iff_getElem.mp hfind
    have hc : s.objs[a].content = .string t := by simpa using hcontent
    have ho : s.objs[a]? = some s.objs[a] := List.getElem?_eq_getElem hlt
    by_cases ha : Reach s.objs s.roots a
    · refine .made (φ := φ) (k := { m with operands := m.operands.push (φ a) }) ?_ (hm.push ha) ⟨rfl, rfl, rfl⟩
      rw [bind_ok (onHeap_ok (string_found hm.mirrors ha ho hc))]
      rfl
    · have hobj : s.objs[a] = ⟨.string t, []⟩ := by
        have hlinks := ht.leaf a _ t ho hc
        generalize s.objs[a] = o at hc hlinks
        obtain ⟨c, links⟩ := o
        simp_all
      have htext : ∀ c o, Reach s.objs s.roots c → s.objs[c]? = some o → o.content ≠ .string t := by
        rintro c o hc' ho' hco
        obtain rfl := ht.unique a c _ o t ho ho' hc hco
        exact ha hc'
      have hkeep : ∀ o, s.objs[a]? = some o → ∃ t, o.content = .string t := by
        intro o ho'
        obtain rfl := Option.some.inj (ho.symm.trans ho')
        exact ⟨t, hc⟩
      exact hm.push_adds (string_adds hm.mirrors hm.rooted ha (hobj ▸ ho) (fun _ _ => rfl) htext) ha hkeep
        (hm.mirrors.live_adopt ha (hobj ▸ ho) (fun _ _ => rfl) (by simp))
  | none =>
    simp only
    have hnone : ∀ o ∈ s.objs, o.content ≠ .string t := by simpa using List.findIdx?_eq_none_iff.mp hfind
    have hnew := hm.mirrors.not_reach_length
    have hobjs : ∀ c, Reach s.objs s.roots c → (s.objs ++ [⟨.string t, []⟩])[c]? = s.objs[c]? := fun c hc =>
      hm.mirrors.getElem?_append _ hc
    exact hm.push_create (string_adds hm.mirrors hm.rooted hnew (by simp) hobjs
      fun c o _ ho => hnone o (List.mem_of_getElem? ho)) (by simp)

/-- A literal of a known kind. -/
theorem literal_follows (hm : Matches φ s m) (ht : Texts s.objs) {l : Literal} (he : s.literal l = some e) :
    Follows s.objs φ (do MachineM.push (← onHeap (HeapM.ofLiteral l))) m e := by
  unfold Endless.literal at he
  unfold HeapM.ofLiteral
  by_cases hunit : l.kind = Literal.unitKind
  · rw [if_pos hunit] at he ⊢
    cases he
    exact hm.push_permanent (by decide) rfl
  rw [if_neg hunit] at he ⊢
  by_cases hbool : l.kind = Literal.boolKind
  · rw [if_pos hbool] at he ⊢
    cases he
    exact hm.push_permanent (ofBool_lt _) rfl
  rw [if_neg hbool] at he ⊢
  by_cases hint : l.kind = Literal.intKind
  · rw [if_pos hint] at he ⊢
    cases he
    exact hm.push_leaf (by simp) (by simp)
  rw [if_neg hint] at he ⊢
  by_cases hfloat : l.kind = Literal.floatKind
  · rw [if_pos hfloat] at he ⊢
    cases he
    exact hm.push_leaf (by simp) (by simp)
  rw [if_neg hfloat] at he ⊢
  by_cases hchar : l.kind = Literal.charKind
  · rw [if_pos hchar] at he ⊢
    cases he
    exact hm.push_leaf (by simp) (by simp)
  rw [if_neg hchar] at he ⊢
  by_cases hstring : l.kind = Literal.stringKind
  · rw [if_pos hstring] at he ⊢
    cases he
    exact hm.text_follows ht _
  · rw [if_neg hstring] at he
    cases he

/-! ## Slots -/

section Slots

variable {held : List Address} {env f v : Address} {pos : Position}

/-- The frame that a position names. -/
theorem frameAt_run (hm : Mirrors φ s.objs held m.heap) (henv : Reach s.objs held env)
    (hf : s.frameAt? env pos = some f) :
    ∃ n, m.heap.nodes[φ env]? = some n ∧ n.child? pos.frame = some (some (φ f)) ∧ 0 ≤ pos.frame ∧
      pos.frame < n.slots ∧ Reach s.objs held f := by
  unfold Endless.frameAt? at hf
  cases ho : s.objs[env]? with
  | none => simp [ho] at hf
  | some o =>
    simp only [ho, Option.bind_eq_bind, Option.bind_some] at hf
    obtain ⟨n, hn, hmirrors⟩ := hm.get henv ho
    obtain ⟨⟨hpos, hlt⟩, hmem⟩ := Obj.of_link? hf
    exact ⟨n, hn, hmirrors.child? hf, hpos, hmirrors.slots ▸ hlt, henv.link ho hmem⟩

/-- A position that names a slot passes the check. -/
theorem checkSlot_run (hm : Mirrors φ s.objs held m.heap) (henv : Reach s.objs held env)
    (hf : s.frameAt? env pos = some f) {o : Obj} (ho : s.objs[f]? = some o)
    (hslot : 0 ≤ pos.slot ∧ pos.slot < o.links.length) : checkSlot (φ env) pos m = (.ok (), m) := by
  obtain ⟨n, hn, hchild, hpos, hlt, hreach⟩ := frameAt_run hm henv hf
  obtain ⟨n', hn', hmirrors⟩ := hm.get hreach ho
  have hframe : ¬ (pos.frame < 0 ∨ n.slots ≤ pos.frame) := by omega
  have hslots : ¬ (pos.slot < 0 ∨ n'.slots ≤ pos.slot) := by
    rw [hmirrors.slots]
    omega
  rw [checkSlot, bind_ok (nodeAt_apply hn), if_neg hframe, hchild]
  simp only [need, pure_bind]
  rw [bind_ok (nodeAt_apply hn'), if_neg hslots]
  rfl

/-- The value of a slot. -/
theorem lookup_run (hm : Mirrors φ s.objs held m.heap) (henv : Reach s.objs held env) (hv : s.cell? env pos = some v)
    (roots : Roots) :
    checkSlot (φ env) pos m = (.ok (), m) ∧ HeapM.lookup (some (φ env)) pos roots m.heap = (.ok (some (φ v)), m.heap) ∧
      Reach s.objs held v := by
  simp only [Endless.cell?, Option.bind_eq_bind, Option.bind_eq_some_iff] at hv
  obtain ⟨f, hf, o, ho, hlink⟩ := hv
  obtain ⟨n, hn, hchild, hpos, hlt, hreach⟩ := frameAt_run hm henv hf
  obtain ⟨n', hn', hmirrors⟩ := hm.get hreach ho
  have hchild' := hmirrors.child? hlink
  obtain ⟨hslot, hmem⟩ := Obj.of_link? hlink
  refine ⟨checkSlot_run hm henv hf ho hslot, ?_, hreach.link ho hmem⟩
  have hframe : HeapM.frameAt (some (φ env)) pos roots m.heap = (.ok (φ f), m.heap) := by
    rw [HeapM.frameAt, HeapM.bind_ok (HeapM.follow_apply hn), hchild]
    rfl
  rw [HeapM.lookup, HeapM.bind_ok hframe, HeapM.child, HeapM.bind_ok (HeapM.nodeAt_apply hn'), hchild']
  rfl

/-- The value of a slot that has to be assigned. -/
theorem load_run (hm : Mirrors φ s.objs held m.heap) (henv : Reach s.objs held env) (hv : s.cell? env pos = some v) :
    load (φ env) pos m = (if v = Heap.unassigned then (.error (.failed (.unassigned pos)), m) else (.ok (φ v), m)) ∧
      Reach s.objs held v := by
  obtain ⟨hcheck, hlookup, hreach⟩ := lookup_run hm henv hv (rootsOf m)
  have hload : load (φ env) pos m = (if φ v = Heap.unassigned then fail (.unassigned pos) else pure (φ v)) m := by
    rw [load, bind_ok hcheck, bind_ok (onHeap_ok hlookup)]
    rfl
  have hlt : Heap.unassigned < Heap.bottom := by decide
  refine ⟨?_, hreach⟩
  by_cases hun : v = Heap.unassigned
  · rw [if_pos hun]
    rwa [if_pos (by rw [hun, hm.fixed _ hlt])] at hload
  · rw [if_neg hun]
    -- the mark of an unassigned slot is the image of nothing but itself
    have hne : φ v ≠ Heap.unassigned := fun hφ =>
      hun (hm.inj v _ hreach (.permanent hlt) (hφ.trans (hm.fixed _ hlt).symm))
    rwa [if_neg hne] at hload

/-- Writing a slot. -/
theorem store_run (hm : Mirrors φ s.objs held m.heap) (henv : Reach s.objs held env) (hv : Reach s.objs held v)
    {s' : Endless} (hset : s.setCell? env pos v = some s') (roots : Roots) :
    checkSlot (φ env) pos m = (.ok (), m) ∧
      ∃ h' objs', HeapM.store (some (φ env)) pos (some (φ v)) roots m.heap = (.ok (), h') ∧
        s' = { s with objs := objs' } ∧ Mirrors φ objs' held h' ∧ h'.nodes.size = m.heap.nodes.size ∧
        h'.pins = m.heap.pins := by
  simp only [Endless.setCell?, Option.bind_eq_bind, Option.bind_eq_some_iff] at hset
  obtain ⟨f, hf, o, ho, hset⟩ := hset
  split at hset
  next hslot =>
    cases hset
    obtain ⟨n, hn, hchild, hpos, hlt, hreach⟩ := frameAt_run hm henv hf
    obtain ⟨n', hn', hmirrors⟩ := hm.get hreach ho
    have hroom := hmirrors.room
    have h9 : 0 ≤ pos.slot ∧ pos.slot < 9 := ⟨hslot.1, by simp only [maxChildren] at hroom; omega⟩
    have hframe : HeapM.frameAt (some (φ env)) pos roots m.heap = (.ok (φ f), m.heap) := by
      rw [HeapM.frameAt, HeapM.bind_ok (HeapM.follow_apply hn), hchild]
      rfl
    refine ⟨checkSlot_run hm henv hf ho hslot, _, _, ?_, rfl, hm.store hreach ho hv (by omega) hn',
      by simp [Heap.setNode], rfl⟩
    rw [HeapM.store, HeapM.bind_ok hframe, HeapM.setChild, HeapM.bind_ok (HeapM.nodeAt_apply hn'), Node.setChild?,
      if_pos h9]
    rfl
  · cases hset

end Slots

theorem reach_env (s : Endless) : Reach s.objs s.roots s.env := .root (by simp [Endless.roots])

/-- Pushing the value of a slot. -/
theorem load_follows (hm : Matches φ s m) {pos : Position} (he : s.load s.env pos = some e) :
    Follows s.objs φ (do MachineM.push (← load m.env pos)) m e := by
  simp only [Endless.load, Option.bind_eq_bind, Option.bind_eq_some_iff, Option.some.injEq] at he
  obtain ⟨v, hv, rfl⟩ := he
  obtain ⟨hload, hreach⟩ := load_run hm.mirrors (reach_env s) hv
  rw [← hm.registers.env] at hload
  split
  next hun =>
    rw [if_pos hun] at hload
    exact .fail (bind_error hload) rfl rfl
  next hun =>
    rw [if_neg hun] at hload
    refine .ok (φ := φ) (k := { m with operands := m.operands.push (φ v) }) ?_ (hm.push hreach) ⟨rfl, rfl, rfl⟩
    rw [bind_ok hload]
    rfl

/-- Storing the topmost operand into a slot. -/
theorem assign_follows (hm : Matches φ s m) {pos : Position} {v : Address} {s' : Endless} (hv : s.operands.head? = some v)
    (hset : s.setCell? s.env pos v = some s') : Follows s.objs φ (assign pos) m (.ok s') := by
  obtain ⟨rest, hops⟩ : ∃ rest, s.operands = v :: rest := List.head?_eq_some_iff.mp hv
  have hreach : Reach s.objs s.roots v := .root (by simp [Endless.roots, hops])
  have hpeek : peek m = (.ok (φ v), m) := by
    have hhold : m.operands.Hold (φ v :: rest.map φ) := by simpa [hops] using hm.registers.operands
    simp [peek, hhold.top?]
  obtain ⟨hcheck, h', objs', hstore, rfl, hm', hsize, hpins⟩ :=
    store_run hm.mirrors (reach_env s) hreach hset (rootsOf m)
  rw [← hm.registers.env] at hcheck hstore
  refine .ok (φ := φ) (k := { m with heap := h' }) ?_ ⟨hm', hm.registers.with_heap h', hpins.trans hm.pins, hm.pc⟩
    ⟨rfl, rfl, hsize⟩
  rw [assign, get_bind_apply, bind_ok hcheck, bind_ok hpeek, onHeap_ok hstore]

/-- Emptying a slot. -/
theorem drop_follows (hm : Matches φ s m) {pos : Position} {s' : Endless}
    (hset : s.setCell? s.env pos Heap.unassigned = some s') : Follows s.objs φ (drop pos) m (.ok s') := by
  have hlt : Heap.unassigned < Heap.bottom := by decide
  obtain ⟨hcheck, h', objs', hstore, rfl, hm', hsize, hpins⟩ :=
    store_run hm.mirrors (reach_env s) (.permanent hlt) hset (rootsOf m)
  rw [hm.mirrors.fixed _ hlt, ← hm.registers.env] at hstore
  rw [← hm.registers.env] at hcheck
  refine .ok (φ := φ) (k := { m with heap := h' }) ?_ ⟨hm', hm.registers.with_heap h', hpins.trans hm.pins, hm.pc⟩
    ⟨rfl, rfl, hsize⟩
  rw [drop, get_bind_apply, bind_ok hcheck, onHeap_ok hstore]

/-- Pushing a reference to a slot. -/
theorem reference_follows (hm : Matches φ s m) {pos : Position} {v : Address} (hv : s.cell? s.env pos = some v)
    (mutable : Bool) : Follows s.objs φ (reference pos mutable) m (.made (s.create ⟨.reference pos mutable, [s.env]⟩)) := by
  have hlinks : ∀ b ∈ (⟨.reference pos mutable, [s.env]⟩ : Obj).links, Reach s.objs s.roots b := by
    simpa using reach_env s
  obtain ⟨hcheck, -, -⟩ := lookup_run hm.mirrors (reach_env s) hv (rootsOf m)
  have hpush := hm.push_create (allocateOver_adds hm.mirrors hm.rooted hlinks (by simp [maxChildren]) (by simp)
    (by simp)) hlinks
  simp only [List.map_cons, List.map_nil, ← hm.registers.env] at hpush
  rw [← hm.registers.env] at hcheck
  exact .bind (k := m) rfl (.refl m) rfl (.bind hcheck (.refl m) rfl hpush)

/-- Replacing a reference by the value it points at. What the reference kept alive may be out of reach without it, but it
is still there. -/
theorem dereference_follows (hm : Matches φ s m) (he : s.dereference = some e) : Follows s.objs φ dereference m e := by
  unfold Endless.dereference at he
  cases hops : s.operands with
  | nil => simp [hops] at he
  | cons r rest =>
    simp only [hops, Option.bind_eq_bind, Option.bind_eq_some_iff] at he
    obtain ⟨o, ho, he⟩ := he
    obtain ⟨hpop, hm', hreach⟩ := hm.pop hops
    obtain ⟨n, hn, hmirrors⟩ := hm.mirrors.get hreach ho
    refine .bind hpop ⟨rfl, rfl, rfl⟩ rfl (.bind (nodeAt_apply hn) ⟨rfl, rfl, rfl⟩ rfl ?_)
    rw [hmirrors.content, Node.kind, hmirrors.content]
    cases hc : o.content with
    | reference pos mutable =>
      simp only [hc, Option.bind_eq_bind, Option.bind_eq_some_iff, Endless.load, Option.some.injEq] at he
      obtain ⟨env, henv, v, hv, rfl⟩ := he
      have hreach' : Reach s.objs s.roots env := hreach.link ho (List.mem_of_getElem? henv)
      obtain ⟨hload, hv'⟩ := load_run (m := { m with operands := m.operands.dropTop }) hm.mirrors hreach' hv
      simp only [hmirrors.firstChild henv, need, pure_bind]
      by_cases hun : v = Heap.unassigned
      · rw [if_pos hun] at hload ⊢
        exact .fail (bind_error hload) rfl rfl
      · rw [if_neg hun] at hload ⊢
        refine .ok (φ := φ) (k := { m with operands := m.operands.dropTop.push (φ v) }) ?_ ?_ ⟨rfl, rfl, rfl⟩
        · rw [bind_ok hload]
          rfl
        · refine ⟨hm.mirrors.of_held fun b hb => ?_, ⟨hm'.registers.operands.push (φ v), hm.registers.env,
            hm.registers.frames⟩, hm.pins, hm.pc⟩
          rcases List.mem_cons.mp hb with rfl | hb
          · exact hv'
          · exact .root (by simp only [Endless.roots, hops]; exact List.mem_cons_of_mem _ hb)
    | _ =>
      simp only [hc, Option.some.injEq] at he
      subst he
      exact .fail rfl rfl rfl

/-- Storing a value through a reference. -/
theorem updateReference_follows (hm : Matches φ s m) (he : s.updateReference = some e) :
    Follows s.objs φ updateReference m e := by
  unfold Endless.updateReference at he
  cases hops : s.operands with
  | nil => simp [hops] at he
  | cons v rest =>
    cases rest with
    | nil => simp [hops] at he
    | cons r rest =>
      simp only [hops, Option.bind_eq_bind, Option.bind_eq_some_iff] at he
      obtain ⟨o, ho, he⟩ := he
      obtain ⟨hpop, hm', hv⟩ := hm.pop hops
      obtain ⟨hpop', hm'', hreach⟩ := hm'.pop (a := r) rfl
      have hr : Reach s.objs s.roots r := .root (by simp [Endless.roots, hops])
      obtain ⟨n, hn, hmirrors⟩ := hm.mirrors.get hr ho
      refine .bind hpop ⟨rfl, rfl, rfl⟩ rfl (.bind hpop' ⟨rfl, rfl, rfl⟩ rfl
        (.bind (nodeAt_apply hn) ⟨rfl, rfl, rfl⟩ rfl ?_))
      rw [hmirrors.content, Node.kind, hmirrors.content]
      cases hc : o.content with
      | reference pos mutable =>
        simp only [hc] at he
        cases mutable with
        | false =>
          simp only [Bool.false_eq_true, if_false, Option.some.injEq] at he
          subst he
          exact .fail rfl rfl rfl
        | true =>
          simp only [if_true, Option.bind_eq_some_iff, Option.some.injEq] at he
          obtain ⟨env, henv, s', hset, rfl⟩ := he
          have henv' : Reach s.objs s.roots env := hr.link ho (List.mem_of_getElem? henv)
          obtain ⟨hcheck, h', objs', hstore, rfl, hmirrors', hsize, hpins⟩ :=
            store_run (s := { s with operands := v :: rest }) (m := { m with operands := m.operands.dropTop.dropTop })
              hm.mirrors henv' hv hset (rootsOf { m with operands := m.operands.dropTop.dropTop })
          rw [hmirrors.firstChild henv]
          refine .ok (φ := φ) (k := { m with heap := h', operands := m.operands.dropTop.dropTop.push (φ v) }) ?_ ?_
            ⟨rfl, rfl, hsize⟩
          · simp only [need, pure_bind, if_true]
            rw [bind_ok hcheck, bind_ok (onHeap_ok hstore)]
            rfl
          · refine ⟨hmirrors'.of_held fun b hb => .root ?_, ⟨hm''.registers.operands.push (φ v), hm.registers.env,
              hm.registers.frames⟩, hpins.trans hm.pins, hm.pc⟩
            simp only [Endless.roots, hops, List.cons_append, List.mem_cons] at hb ⊢
            rcases hb with rfl | hb
            · exact .inl rfl
            · exact .inr (.inr hb)
      | _ =>
        simp only [hc, Option.some.injEq] at he
        subst he
        exact .fail rfl rfl rfl

/-- Pushing a closure over the current environment. -/
theorem closure_follows (hm : Matches φ s m) (arity entry : Int) :
    Follows s.objs φ (do
      let env := (← get).env
      MachineM.push (← onHeap (HeapM.closure arity entry (some env)))) m
      (.made (s.create ⟨.closure arity entry, [s.env]⟩)) := by
  have hlinks : ∀ b ∈ (⟨.closure arity entry, [s.env]⟩ : Obj).links, Reach s.objs s.roots b := by
    simpa using Reach.root (by simp [Endless.roots])
  have hpush := hm.push_create (allocateOver_adds hm.mirrors hm.rooted hlinks (by simp [maxChildren]) (by simp)
    (by simp)) hlinks
  simp only [List.map_cons, List.map_nil, ← hm.registers.env] at hpush
  exact .bind (k := m) rfl (.refl m) rfl hpush

/-! ## Operators -/

/-- The content of a reachable node as operators see it. -/
theorem operand (hm : Matches φ s m) {a : Address} (ha : Reach s.objs s.roots a) {x : Operand}
    (hx : s.operand? a = some x) : ∃ n, m.heap.nodes[φ a]? = some n ∧ Operand.ofContent n.content = x := by
  obtain ⟨o, ho, rfl⟩ := Option.map_eq_some_iff.mp hx
  obtain ⟨n, hn, hmirrors⟩ := hm.mirrors.get ha ho
  exact ⟨n, hn, by rw [hmirrors.content]⟩

/-- What an operator computes is pushed. -/
theorem result_follows (hm : Matches φ s m) {x : MachineM Address} {r : Except StepError (Bool ⊕ Number)}
    (hx : Computes x m r) : Follows s.objs φ (do MachineM.push (← x)) m (s.result r) := by
  rcases r with e | b | n
  · exact .fail (bind_error hx) rfl rfl
  · exact hm.push_permanent (ofBool_lt b) hx
  · exact .of_eq (bind_congr hx) (hm.push_leaf (by simp) (by simp))

theorem unary_follows (hm : Matches φ s m) {a : Address} {rest : List Address} (hops : s.operands = a :: rest)
    {x : Operand} (hx : s.operand? a = some x) (symbol : Text) :
    Follows s.objs φ (do MachineM.push (← unary symbol (← MachineM.pop))) m
      ({ s with operands := rest }.result (Operand.unary symbol x)) := by
  obtain ⟨hpop, hm', hreach⟩ := hm.pop hops
  obtain ⟨n, hn, rfl⟩ := hm.operand hreach hx
  refine .bind hpop ⟨rfl, rfl, rfl⟩ rfl (hm'.result_follows (unary_computes ?_ symbol))
  exact hn

theorem binary_follows (hm : Matches φ s m) {a b : Address} {rest : List Address} (hops : s.operands = b :: a :: rest)
    {x y : Operand} (hx : s.operand? a = some x) (hy : s.operand? b = some y) (symbol : Text) :
    Follows s.objs φ (do
      let y ← MachineM.pop
      let x ← MachineM.pop
      MachineM.push (← binary symbol x y)) m
      ({ s with operands := rest }.result (Operand.binary symbol (a = b) x y)) := by
  obtain ⟨hpop, hm', hb⟩ := hm.pop hops
  obtain ⟨hpop', hm'', -⟩ := hm'.pop (a := a) rfl
  have ha : Reach s.objs s.roots a := .root (by simp [Endless.roots, hops])
  obtain ⟨na, hna, rfl⟩ := hm.operand ha hx
  obtain ⟨nb, hnb, rfl⟩ := hm.operand hb hy
  have hsame : decide (φ a = φ b) = decide (a = b) :=
    decide_eq_decide.mpr ⟨hm.mirrors.inj a b ha hb, congrArg φ⟩
  refine .bind hpop ⟨rfl, rfl, rfl⟩ rfl (.bind hpop' ⟨rfl, rfl, rfl⟩ rfl (hm''.result_follows ?_))
  rw [← hsame]
  refine binary_computes ?_ ?_ symbol
  · exact hna
  · exact hnb

/-! ## Control -/

/-- Taking a condition and jumping if it is false. -/
theorem jumpUnless_follows (hm : Matches φ s.next m) {target : Nat} (he : s.jumpUnless target = some e) :
    Follows s.objs φ (jumpUnless target) m e := by
  unfold Endless.jumpUnless at he
  cases hops : s.operands with
  | nil => simp [hops] at he
  | cons c rest =>
    simp only [hops] at he
    obtain ⟨hpop, hm', hreach⟩ := hm.pop (s := s.next) hops
    have hfixed : ∀ a : Nat, a < Heap.bottom → (φ c = a ↔ c = a) := by
      intro a ha
      constructor
      · intro hφ
        exact hm.mirrors.inj c a hreach (.permanent ha) (hφ.trans (hm.mirrors.fixed a ha).symm)
      · rintro rfl
        exact hm.mirrors.fixed c ha
    refine .bind hpop ⟨rfl, rfl, rfl⟩ rfl ?_
    simp only [hfixed Heap.falsity (by decide), hfixed Heap.truth (by decide)]
    split at he
    next hfalse =>
      cases he
      rw [if_pos hfalse]
      exact .ok (φ := φ) (k := { m with operands := m.operands.dropTop, pc := target }) rfl
        ⟨hm'.mirrors, ⟨hm'.registers.operands, hm'.registers.env, hm'.registers.frames⟩, hm'.pins, rfl⟩ ⟨rfl, rfl, rfl⟩
    next hfalse =>
      rw [if_neg hfalse]
      split at he
      next htrue =>
        cases he
        rw [if_pos htrue]
        exact .ok (φ := φ) rfl hm' ⟨rfl, rfl, rfl⟩
      next htrue =>
        rw [if_neg htrue]
        simp only [Option.bind_eq_bind, Option.bind_eq_some_iff, Option.some.injEq] at he
        obtain ⟨o, ho, rfl⟩ := he
        obtain ⟨n, hn, hmirrors⟩ := hm.mirrors.get hreach ho
        have hkind : kindAt (φ c) { m with operands := m.operands.dropTop } =
            (.ok o.content.kind, { m with operands := m.operands.dropTop }) := by
          rw [← hmirrors.content]
          refine (bind_ok (nodeAt_apply ?_)).trans rfl
          exact hn
        exact .fail (bind_ok hkind) rfl rfl

/-- Closing the innermost block. -/
theorem exitScope_follows (hm : Matches φ s m) (he : s.exitScope = some e) : Follows s.objs φ exitScope m e := by
  unfold Endless.exitScope at he
  cases hframes : s.frames with
  | nil => simp [hframes] at he
  | cons top rest =>
    simp only [hframes, Option.bind_eq_bind, Option.bind_eq_some_iff] at he
    obtain ⟨o, ho, he⟩ := he
    split at he
    next env =>
      cases he
      have hreach : Reach s.objs s.roots top := .root (by simp [Endless.roots, hframes])
      obtain ⟨n, hn, hmirrors⟩ := hm.mirrors.get hreach ho
      have hmframes : m.frames = φ top :: rest.map φ := by simpa [hframes] using hm.registers.frames
      refine .ok (φ := φ) (k := { m with frames := rest.map φ, env := φ env }) ?_
        ⟨hm.mirrors.of_held fun b hb => ?_, ⟨hm.registers.operands, rfl, rfl⟩, hm.pins, hm.pc⟩ ⟨rfl, rfl, rfl⟩
      · have hkind : n.kind = .blockframe := by rw [Node.kind, hmirrors.content]; rfl
        simp only [exitScope, get_bind_apply, hmframes]
        rw [bind_ok (nodeAt_apply hn), if_pos hkind, hmirrors.firstChild (a := env) rfl]
        rfl
      · simp only [Endless.roots, List.mem_append, List.mem_cons] at hb
        rcases hb with hb | rfl | hb
        · exact .root (by simp [Endless.roots, hb])
        · exact hreach.link ho (by simp)
        · exact .root (by simp [Endless.roots, hframes, hb])
    · cases he

end Matches

end Tenure
