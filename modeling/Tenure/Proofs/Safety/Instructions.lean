import Tenure.Proofs.Safety.Machine

/-!
# Every instruction is safe

What is left besides the operators: slots, scopes and calls. A slot is only reached through `MachineM.checkSlot`, a
reference carries an environment in which its position was checked before, and a call takes its arguments from operands
that are there. Between the allocations of a call everything that it needs is held by a register or pinned.
-/

set_option autoImplicit false

namespace Tenure

open Heap Node

namespace MachineM

variable {m m' : Machine} {pos : Position} {env : Address}

theorem need_apply {α : Type} (a : α) : (need (some a) : MachineM α) m = (.ok a, m) := rfl

/-! ## Slots -/

theorem checkSlot_safe (hm : m.WellFormed) (henv : IsEnvironment m.heap.nodes env) (pos : Position) :
    (checkSlot env pos).Safe m fun _ m' => m' = m ∧ Names m.heap.nodes env pos := by
  obtain ⟨e, he, hc⟩ := henv
  have hnode := hm.heap.nodes env e he
  refine .after (nodeAt_apply he) ?_
  split
  · exact .fail _
  next hframe =>
    obtain ⟨h0, hlt⟩ : 0 ≤ pos.frame ∧ pos.frame < e.slots := by omega
    obtain ⟨l, hl, hmem⟩ := child?_traced h0 hlt hnode.slots.2
    have hsuits := hnode.suits
    rw [Suits, hc] at hsuits
    obtain ⟨f, slots, rfl, n, hn, hframe, rfl⟩ := hsuits l hmem
    rw [hl]
    refine .after (need_apply _) (.after (need_apply _) (.after (nodeAt_apply hn) ?_))
    split
    · exact .fail _
    · exact .pure ⟨rfl, e, f, n.slots, he, hc, ⟨h0, hlt⟩, hl, ⟨n, hn, hframe, rfl⟩, by omega, by omega⟩

theorem load_safe (hm : m.WellFormed) (henv : IsEnvironment m.heap.nodes env) (pos : Position) :
    (load env pos).Safe m m.Yields := by
  refine .bind ((checkSlot_safe hm henv pos).imp ?_)
  rintro _ _ ⟨rfl, hnames⟩
  obtain ⟨v, hlookup, hlt⟩ := hm.heap.lookup (rootsOf _) hnames
  refine .after (onHeap_ok hlookup) (.after (need_apply v) ?_)
  split
  · exact .fail _
  · exact .pure (hm.yields hlt)

/-- Writing a slot that was checked. -/
theorem store_safe (hm : m.WellFormed) (hnames : Names m.heap.nodes env pos) {v : Address}
    (hv : v < m.heap.nodes.size) :
    (onHeap (HeapM.store (some env) pos (some v))).Safe m
      fun _ m' => m'.WellFormed ∧ m'.heap.nodes.size = m.heap.nodes.size := by
  obtain ⟨h', hstore, hs⟩ := hm.heap.store (rootsOf m) hnames hv
  exact .of_ok (onHeap_ok hstore) ⟨hm.with_heap hs.wellFormed hs.size (hs.environment m.env hm.env), hs.size⟩

theorem drop_safe (hm : m.WellFormed) (pos : Position) : (drop pos).Safe m fun _ m' => m'.WellFormed := by
  refine .after rfl (.bind ((checkSlot_safe hm hm.env pos).imp ?_))
  rintro _ _ ⟨rfl, hnames⟩
  exact (store_safe hm hnames (hm.bottom_lt (by decide))).imp fun _ _ h => h.1

theorem assign_safe (hm : m.WellFormed) (pos : Position) : (assign pos).Safe m fun _ m' => m'.WellFormed := by
  refine .after rfl (.bind ((checkSlot_safe hm hm.env pos).imp ?_))
  rintro _ _ ⟨rfl, hnames⟩
  refine .bind ((peek_safe hm).imp ?_)
  rintro v _ ⟨rfl, hv⟩
  exact (store_safe hm hnames hv).imp fun _ _ h => h.1

/-- A node over the current environment. -/
theorem overEnv_safe (hm : m.WellFormed) (content : Content)
    (hsuits : ∀ n : Node, n.content = content → n.Holds (fun a => a = m.env) →
      n.Suits m.operands.cells.size m.heap.nodes)
    (hs : ∀ t, content ≠ .string t) :
    (onHeap (HeapM.allocateOver content 1 [some m.env])).Safe m m.Yields := by
  have hlt : m.env < m.heap.nodes.size := by
    obtain ⟨n, hn, -⟩ := hm.env
    exact (Array.getElem?_eq_some_iff.mp hn).1
  refine .onHeap ((hm.heap.allocateOver hm.roots hlt (fun n hc hslots hfirst => ?_) hs).imp
    fun _ _ hmade => hm.makes hmade)
  exact hsuits n hc ⟨hslots, m.env, hfirst, rfl⟩

theorem reference_safe (hm : m.WellFormed) (pos : Position) (mutable : Bool) :
    (reference pos mutable).Safe m fun _ m' => m'.WellFormed := by
  refine .after rfl (.bind ((checkSlot_safe hm hm.env pos).imp ?_))
  rintro _ _ ⟨rfl, hnames⟩
  refine push_safe (overEnv_safe hm _ (fun n hc hheld => ?_) fun _ => Content.noConfusion)
  simp only [Suits, hc]
  exact hheld.imp fun a _ ha => ha ▸ hnames

theorem closure_safe (hm : m.WellFormed) (arity entry : Int) :
    (onHeap (HeapM.closure arity entry (some m.env))).Safe m m.Yields := by
  refine overEnv_safe hm _ (fun n hc hheld => ?_) fun _ => Content.noConfusion
  simp only [Suits, hc]
  exact hheld.imp fun a _ ha => ha ▸ hm.env

/-- A reference leads to a slot of an environment. -/
theorem reference_names {limit : Nat} {nodes : Array Node} {n : Node} (hn : n.WellFormed limit nodes) {mutable : Bool}
    (hc : n.content = .reference pos mutable) : ∃ e, n.firstChild = some e ∧ IsEnvironment nodes e := by
  have hsuits := hn.suits
  rw [Suits, hc] at hsuits
  obtain ⟨-, e, hfirst, env, -, -, henv, hcontent, -⟩ := hsuits
  exact ⟨e, hfirst, env, henv, hcontent⟩

theorem dereference_safe (hm : m.WellFormed) : dereference.Safe m fun _ m' => m'.WellFormed := by
  refine .bind ((pop_safe hm).imp ?_)
  rintro r m' ⟨hm', hheap, hr⟩
  obtain ⟨n, hn, hnode⟩ := hm'.node (hheap ▸ hr)
  refine .after (nodeAt_apply hn) ?_
  split
  next hc =>
    obtain ⟨e, hfirst, henv⟩ := reference_names hnode hc
    rw [hfirst]
    exact .after (need_apply e) (push_safe (load_safe hm' henv _))
  · exact .fail _

theorem updateReference_safe (hm : m.WellFormed) : updateReference.Safe m fun _ m' => m'.WellFormed := by
  refine .bind ((pop_safe hm).imp ?_)
  rintro v m₁ ⟨hm₁, hheap₁, hv⟩
  refine .bind ((pop_safe hm₁).imp ?_)
  rintro r m₂ ⟨hm₂, hheap₂, hr⟩
  rw [← hheap₁, ← hheap₂] at hv
  rw [← hheap₂] at hr
  obtain ⟨n, hn, hnode⟩ := hm₂.node hr
  refine .after (nodeAt_apply hn) ?_
  split
  next hc =>
    split
    · obtain ⟨e, hfirst, henv⟩ := reference_names hnode hc
      rw [hfirst]
      refine .after (need_apply e) (.bind ((checkSlot_safe hm₂ henv _).imp ?_))
      rintro _ _ ⟨rfl, hnames⟩
      refine .bind ((store_safe hm₂ hnames hv).imp ?_)
      rintro _ m₃ ⟨hm₃, hsize⟩
      exact .modify (hm₃.push (hsize ▸ hv))
    · exact .fail _
  · exact .fail _

theorem jumpUnless_safe (hm : m.WellFormed) (target : Int) :
    (jumpUnless target).Safe m fun _ m' => m'.WellFormed := by
  refine .bind ((pop_safe hm).imp ?_)
  rintro c m' ⟨hm', hheap, hc⟩
  split
  · exact .modify (hm'.goTo target)
  split
  · exact .pure hm'
  · obtain ⟨n, hn, -⟩ := hm'.node (hheap ▸ hc)
    have hkind : kindAt c m' = (.ok n.kind, m') := by rw [kindAt, bind_ok (nodeAt_apply hn)]; rfl
    exact .after hkind (.fail _)

/-! ## Scopes -/

theorem enterScope_safe (hm : m.WellFormed) {slots : Int} (h0 : 0 ≤ slots) (h9 : slots ≤ 9) :
    (enterScope slots).Safe m fun _ m' => m'.WellFormed := by
  have hblock : (onHeap (HeapM.blockframe (some m.env))).Safe m m.Yields := by
    refine overEnv_safe hm _ (fun n hc hheld => ?_) fun _ => Content.noConfusion
    simp only [Suits, hc]
    exact hheld.imp fun a _ ha => ha ▸ hm.env
  refine .after rfl (.bind (hblock.imp fun saved m₁ hsaved => ?_))
  obtain ⟨h₁, rfl⟩ : ∃ h, m₁ = { m with heap := h } := ⟨_, hsaved.rest⟩
  refine .after (modify_apply _) ?_
  have hm₁ := hsaved.wellFormed.pushFrame hsaved.inside
  refine .bind (.onHeap ((hm₁.heap.frame hm₁.roots h0 h9).imp fun frame h₂ hframe => ?_))
  have hm₂ := (hm₁.makes hframe).wellFormed
  refine .bind (.onHeap ((hm₂.heap.extend hm₂.roots hframe.made hm₂.env).imp fun inner h₃ hinner => ?_))
  exact .modify ((hm₂.makes hinner).wellFormed.setEnv hinner.made)

theorem exitScope_safe (hm : m.WellFormed) : exitScope.Safe m fun _ m' => m'.WellFormed := by
  refine .after rfl ?_
  split
  · exact .fail _
  next top rest hframes =>
    obtain ⟨n, hn, hnode⟩ := hm.node (hm.frames top (by simp [hframes]))
    refine .after (nodeAt_apply hn) ?_
    split
    next hkind =>
      have hc : n.content = .blockframe := by
        unfold Node.kind Content.kind at hkind
        split at hkind <;> first | assumption | cases hkind
      have hsuits := hnode.suits
      rw [Suits, hc] at hsuits
      obtain ⟨-, e, hfirst, henv⟩ := hsuits
      rw [hfirst]
      exact .after (modify_apply _) (.after (need_apply e) (.modify ((hm.popFrame hframes).setEnv henv)))
    · exact .fail _

theorem reset_safe (hm : m.WellFormed) : reset.Safe m fun _ m' => m'.WellFormed := by
  refine .after rfl ?_
  split
  · exact .fail _
  next top rest hframes =>
    have hm' := hm.popFrame hframes
    obtain ⟨n, hn, hnode⟩ := hm.node (hm.frames top (by simp [hframes]))
    refine .after (modify_apply _) (.after (nodeAt_apply hn) ?_)
    split
    · exact .modify (hm'.goTo _)
    next back height hc =>
      have hsuits := hnode.suits
      rw [Suits, hc] at hsuits
      obtain ⟨⟨-, e, hfirst, henv⟩, h0, hheight⟩ := hsuits
      have hle : height.toNat ≤ m.operands.cells.size := by omega
      have hreaches : m.operands.reaches height = true := by simp [Operands.reaches, h0, hheight]
      have hresult : m.operands.top?.getD Heap.undefined < m.heap.nodes.size := by
        cases htop : m.operands.top? with
        | none => exact hm.bottom_lt (by decide)
        | some a => exact hm.operands.top? htop
      refine .after rfl (.after rfl ?_)
      split
      · rw [hfirst]
        refine .after (need_apply e) (.modify ?_)
        exact (((hm'.atHeight hle).push hresult).goTo back).setEnv henv
      next hnot => exact absurd hreaches hnot
    · exact .fail _

/-! ## Calls -/

theorem apply_safe (hm : m.WellFormed) (b : Builtin) {arguments : List Address}
    (hlength : (arguments.length : Int) = b.arity) (hargs : ∀ a ∈ arguments, a < m.heap.nodes.size) :
    (b.apply arguments).Safe m m.Yields := by
  have hnumber : ∀ {a : Address}, a < m.heap.nodes.size → (b.numberArgument a).Safe m fun _ m' => m' = m := by
    intro a ha
    obtain ⟨n, hn, -⟩ := hm.node ha
    refine .after (nodeAt_apply hn) ?_
    split
    · exact .pure rfl
    · exact .fail _
  have hone : b.arity = 1 → ∃ x, arguments = [x] := fun h => List.length_eq_one_iff.mp (by omega)
  have htwo : b.arity = 2 → ∃ x y, arguments = [x, y] := fun h => List.length_eq_two.mp (by omega)
  have hpick : ∀ {x y : Address} (keepFirst : Number → Number → Bool), x < m.heap.nodes.size → y < m.heap.nodes.size →
      (b.pick x y keepFirst).Safe m m.Yields := by
    intro x y keepFirst hx hy
    refine .bind ((hnumber hx).imp ?_)
    rintro u _ rfl
    refine .bind ((hnumber hy).imp ?_)
    rintro v _ rfl
    refine .pure (hm.yields ?_)
    split
    · exact hx
    · exact hy
  cases b with
  | abs =>
    obtain ⟨x, rfl⟩ := hone rfl
    refine .bind ((hnumber (hargs x (by simp))).imp ?_)
    rintro n _ rfl
    exact newNumber_safe hm _
  | sqrt =>
    obtain ⟨x, rfl⟩ := hone rfl
    refine .bind ((hnumber (hargs x (by simp))).imp ?_)
    rintro n _ rfl
    exact newNumber_safe hm _
  | min =>
    obtain ⟨x, y, rfl⟩ := htwo rfl
    exact hpick _ (hargs x (by simp)) (hargs y (by simp))
  | max =>
    obtain ⟨x, y, rfl⟩ := htwo rfl
    exact hpick _ (hargs x (by simp)) (hargs y (by simp))

theorem callBuiltin_safe (hm : m.WellFormed) {id arity : Int} {base : Nat} {arguments : List Address}
    (hid : (Builtin.ofSlot? id).isSome) (hlength : (arguments.length : Int) = arity)
    (hargs : ∀ a ∈ arguments, a < m.heap.nodes.size) (hbase : base ≤ m.operands.cells.size) :
    (callBuiltin id arity base arguments).Safe m fun _ m' => m'.WellFormed := by
  obtain ⟨b, hb⟩ := Option.isSome_iff_exists.mp hid
  unfold callBuiltin
  rw [hb]
  refine .after (need_apply b) ?_
  split
  · exact .fail _
  next harity =>
    have harity' : b.arity = arity := not_not.mp harity
    refine .bind ((apply_safe hm b (hlength.trans harity'.symm) hargs).imp fun r m₁ hr => ?_)
    obtain ⟨h₁, rfl⟩ : ∃ h, m₁ = { m with heap := h } := ⟨_, hr.rest⟩
    exact .after (modify_apply _) (.modify ((hr.wellFormed.atHeight hbase).push hr.inside))

theorem callClosure_safe (hm : m.WellFormed) {callee : Address} {n : Node} (hn : m.heap.nodes[callee]? = some n)
    {arity entry : Int} (hc : n.content = .closure arity entry) (hcallee : callee ∈ m.operands.toList) {base : Nat}
    {arguments : List Address} (h9 : arguments.length ≤ 9) (hargs : ∀ a ∈ arguments, a ∈ m.operands.toList)
    (hbase : base ≤ m.operands.cells.size) :
    (callClosure entry n.firstChild base arguments).Safe m fun _ m' => m'.WellFormed := by
  have hsuits := (hm.heap.nodes callee n hn).suits
  rw [Suits, hc] at hsuits
  obtain ⟨hslots, env, hfirst, henv⟩ := hsuits
  have hchild : some env ∈ n.traced := hfirst ▸ firstChild_traced hslots
  have hnotfree : n.content ≠ .free := by simp [hc]
  unfold callClosure
  rw [hfirst]
  -- the callee is an operand, so its environment stays through the allocations
  have hroots : ∀ a ∈ arguments, some a ∈ (rootsOf m).get := fun a ha => by
    simp [rootsOf, Machine.roots, Thunk.get, hargs a ha]
  refine .bind (.onHeap ((hm.heap.argumentFrame hm.roots h9 hroots).imp fun frame h₁ hframe => ?_))
  have hm₁ := (hm.makes hframe).wellFormed
  have hreach : Reaches m.heap.nodes (m.heap.rootLinks (rootsOf m).get) callee :=
    Machine.WellFormed.reaches_operand hcallee
  have hn₁ : h₁.nodes[callee]? = some n := hframe.later.kept callee n hreach hn hnotfree
  have henv₁ : IsEnvironment h₁.nodes env := hframe.later.isEnvironment (hreach.child hn hchild) henv
  refine .after rfl ?_
  generalize hm₁' : ({ m with heap := h₁ } : Machine) = m₁ at hm₁ ⊢
  have hheap : m₁.heap = h₁ := by rw [← hm₁']
  have hoperands : m₁.operands = m.operands := by rw [← hm₁']
  have hreach₁ : Reaches m₁.heap.nodes (m₁.heap.rootLinks (rootsOf m₁).get) callee :=
    Machine.WellFormed.reaches_operand (hoperands ▸ hcallee)
  have hcallframe : (HeapM.pinning [some frame] (HeapM.callframe (some m₁.env) m₁.pc base)).Safe (rootsOf m₁) m₁.heap
      (Makes m₁.operands.cells.size (m₁.heap.rootLinks (rootsOf m₁).get) m₁.heap
        fun nodes _ => HasSlots nodes frame arguments.length) := by
    have hlt : frame < m₁.heap.nodes.size := hheap ▸ hframe.inside
    refine hm₁.heap.pinning (by simpa [Inside] using hlt) fun hw => ?_
    have henvlt : m₁.env < m₁.heap.nodes.size := by
      obtain ⟨e, he, -⟩ := hm₁.env
      exact (Array.getElem?_eq_some_iff.mp he).1
    refine (hw.allocateOver hm₁.roots henvlt (fun k hk hkslots hkfirst => ?_) fun _ => Content.noConfusion).imp
      fun a h hmade => { hmade with made := hmade.later.hasSlots (.root ?_) (hheap ▸ hframe.made) }
    · simp only [Suits, hk]
      exact ⟨⟨hkslots, m₁.env, hkfirst, hm₁.env⟩, Int.natCast_nonneg _, by rw [hoperands]; exact_mod_cast hbase⟩
    · simp [rootLinks]
  refine .bind (.onHeap (hcallframe.imp fun saved h₂ hsaved => ?_))
  have hm₂ := (hm₁.makes hsaved).wellFormed.pushFrame (hm₁.makes hsaved).inside
  have henv₂ : IsEnvironment h₂.nodes env :=
    hsaved.later.isEnvironment (hreach₁.child (hheap ▸ hn₁) hchild) (hheap ▸ henv₁)
  refine .after (modify_apply _) (.bind (.onHeap
    ((hm₂.heap.extend hm₂.roots hsaved.made henv₂).imp fun inner h₃ hinner => ?_)))
  have hm₃ := (hm₂.makes hinner).wellFormed
  refine .modify (((hm₃.atHeight ?_).setEnv hinner.made).goTo entry)
  rw [hoperands]
  exact hbase

theorem call_safe (hm : m.WellFormed) {arity : Int} (h0 : 0 ≤ arity) (h9 : arity ≤ 9) :
    (call arity).Safe m fun _ m' => m'.WellFormed := by
  refine .after rfl ?_
  rw [if_neg (by omega)]
  split
  · exact .fail _
  next hheight =>
    obtain ⟨k, rfl⟩ := Int.eq_ofNat_of_zero_le h0
    dsimp only
    generalize hbase : m.operands.height - (k : Int).toNat - 1 = base
    have hbase_lt : base < m.operands.height := by omega
    have hle := hm.operands.height
    have hlt : base < m.operands.cells.size := by omega
    have hget : m.operands.get? base = some m.operands.cells[base] := by simp [Operands.get?, hbase_lt, hlt]
    have hcallee : m.operands.cells[base] ∈ m.operands.toList := by
      refine List.mem_iff_getElem.mpr ⟨base, by rw [hm.operands.length_toList]; exact hbase_lt, ?_⟩
      simp [Operands.toList]
    have hlength : (m.operands.above (base + 1)).length = k := by
      rw [Operands.above, List.length_drop, hm.operands.length_toList]
      omega
    have hargs : ∀ a ∈ m.operands.above (base + 1), a ∈ m.operands.toList := fun a ha => List.mem_of_mem_drop ha
    obtain ⟨n, hn, hnode⟩ := hm.node (hm.operands.toList hcallee)
    rw [hget]
    refine .after (need_apply _) (.after (nodeAt_apply hn) ?_)
    split
    next id hc =>
      have hsuits := hnode.suits
      rw [Suits, hc] at hsuits
      exact callBuiltin_safe hm hsuits (by rw [hlength]) (fun a ha => hm.operands.toList (hargs a ha)) hlt.le
    next expected entry hc =>
      split
      · exact .fail _
      · exact callClosure_safe hm hn hc hcallee (by omega) hargs hlt.le
    · exact .fail _

/-! ## All instructions -/

/-- No instruction of an image crashes a well-formed machine, and the machine stays well-formed. -/
theorem execute_safe (hm : m.WellFormed) {i : Instr} (hi : i.Checked) :
    (execute i).Safe m fun _ m' => m'.WellFormed := by
  unfold execute
  cases ho : i.op.operation? with
  | none => exact .fail _
  | some o =>
    cases o with
    | loadConstant => exact push_safe (literal_safe hm i.val)
    | load => exact .after rfl (push_safe (load_safe hm hm.env i.pos))
    | assign => exact assign_safe hm i.pos
    | drop => exact drop_safe hm i.pos
    | reference => exact reference_safe hm i.pos i.mutable
    | dereference => exact dereference_safe hm
    | updateReference => exact updateReference_safe hm
    | jumpUnless => exact jumpUnless_safe hm i.addr
    | jump => exact .modify (hm.goTo i.addr)
    | unary =>
      refine .bind ((pop_safe hm).imp ?_)
      rintro x m' ⟨hm', hheap, hx⟩
      exact push_safe (unary_safe hm' i.sym (hheap ▸ hx))
    | binary =>
      refine .bind ((pop_safe hm).imp ?_)
      rintro y m₁ ⟨hm₁, hheap₁, hy⟩
      refine .bind ((pop_safe hm₁).imp ?_)
      rintro x m₂ ⟨hm₂, hheap₂, hx⟩
      rw [← hheap₁, ← hheap₂] at hy
      exact push_safe (binary_safe hm₂ i.sym (hheap₂ ▸ hx) hy)
    | call =>
      obtain ⟨h0, h9⟩ := hi.arity ho
      exact call_safe hm h0 h9
    | reset => exact reset_safe hm
    | loadFunction => exact .after rfl (push_safe (closure_safe hm i.arity i.addr))
    | enterScope =>
      obtain ⟨h0, h9⟩ := hi.num ho
      exact enterScope_safe hm h0 h9
    | exitScope => exact exitScope_safe hm
    | pop => exact .bind ((pop_safe hm).imp fun _ _ h => .pure h.1)
    | done => exact .fail _

end MachineM

end Tenure
