import Tenure.Proofs.Anchors.Machine

/-!
# Instructions and anchored machines

An instruction keeps a machine anchored, and what can be reached from the registers that outlive its collections keeps
its content, `MachineM.execute_upholds`. One instruction asks for more: a return goes back to the height of the operands
that its call saved, and unless that height is within the current one, `Machine.HeightKept`, it brings back operands that
were given up and that a collection may have taken since.
-/

set_option autoImplicit false

namespace Tenure

open Heap Node

namespace MachineM

variable {m m' : Machine} {a : Address} {held : List Link} {pos : Position}

/-! ## Slots -/

variable {env : Address}

theorem load_allocated (hw : m.WellFormed) (hm : m.Anchored) (henv : IsEnvironment m.heap.nodes env) (pos : Position) :
    (load env pos).Safe m fun v m' => m' = m ∧ m.heap.isAllocated v = true := by
  refine .bind ((checkSlot_safe hw henv pos).imp ?_)
  rintro _ _ ⟨rfl, hnames⟩
  obtain ⟨v, hlookup, hv⟩ := hm.orderly.tidy.lookup hw.heap (rootsOf _) hnames
  refine .after (onHeap_ok hlookup) (.after (need_apply v) ?_)
  split
  · exact .fail _
  · exact .pure ⟨rfl, hv⟩

/-- Writing a slot that was checked. -/
theorem store_upholds (held : List Link) (hm : m.Anchored) (hnames : Names m.heap.nodes env pos) {v : Address}
    (hv : m.heap.isAllocated v = true) :
    (onHeap (HeapM.store (some env) pos (some v))).Safe m
      fun _ m' => m.Upholds held m' ∧ m'.heap.isAllocated v = true := by
  obtain ⟨h', hstore, ho, hs⟩ := hm.orderly.assign (rootsOf m) hnames (holds_singleton hv)
  exact .of_ok (onHeap_ok hstore) ⟨⟨⟨ho, hs.holds hm.held⟩, hs.retains⟩, hs.isAllocated hv⟩

theorem drop_upholds (hw : m.WellFormed) (hm : m.Anchored) (pos : Position) :
    (drop pos).Safe m fun _ m' => m.Upholds m.roots m' := by
  refine .after rfl (.bind ((checkSlot_safe hw hw.env pos).imp ?_))
  rintro _ _ ⟨rfl, hnames⟩
  exact (store_upholds _ hm hnames (hm.orderly.tidy.permanent_allocated (by decide))).imp fun _ _ h => h.1

theorem assign_upholds (hw : m.WellFormed) (hm : m.Anchored) (pos : Position) :
    (assign pos).Safe m fun _ m' => m.Upholds m.roots m' := by
  refine .after rfl (.bind ((checkSlot_safe hw hw.env pos).imp ?_))
  rintro _ _ ⟨rfl, hnames⟩
  refine .bind (peek_mem.imp ?_)
  rintro v _ ⟨rfl, hv⟩
  exact (store_upholds _ hm hnames (hm.operand hv)).imp fun _ _ h => h.1

/-- A node over the current environment. -/
theorem overEnv_obtains (hm : m.Anchored) {content : Content} (hfree : content ≠ .free)
    (hstring : ∀ t, content ≠ .string t) :
    (onHeap (HeapM.allocateOver content 1 [some m.env])).Safe m m.Obtains := by
  have henv : m.heap.Holds [some m.env] := holds_singleton (hm.held m.env (Machine.mem_roots.mpr (.inr (.inl rfl))))
  exact onHeap_obtains (hm.orderly.allocateOver hm.holds henv hfree hstring (by simp))

theorem reference_upholds (hw : m.WellFormed) (hm : m.Anchored) (pos : Position) (mutable : Bool) :
    (reference pos mutable).Safe m fun _ m' => m.Upholds m.roots m' := by
  refine .after rfl (.bind ((checkSlot_safe hw hw.env pos).imp ?_))
  rintro _ _ ⟨rfl, -⟩
  exact push_obtains hm (overEnv_obtains hm (by simp) (by simp))

theorem dereference_upholds (hw : m.WellFormed) (hm : m.Anchored) :
    dereference.Safe m fun _ m' => m.Upholds m.roots m' := by
  refine .bind (pop_takes.imp ?_)
  rintro r _ ⟨hr, rfl⟩
  obtain ⟨n, hn, hnode⟩ := hw.node (hw.operands.toList hr)
  refine .after (nodeAt_apply hn) ?_
  split
  next hc =>
    obtain ⟨e, hfirst, henv⟩ := reference_names hnode hc
    rw [hfirst]
    refine .after (need_apply e) (push_upholds ((load_allocated hw.dropTop hm.dropTop henv _).imp ?_))
    rintro v _ ⟨rfl, hv⟩
    exact ⟨hm.dropTop.upholds rfl, hv⟩
  · exact .fail _

theorem updateReference_upholds (hw : m.WellFormed) (hm : m.Anchored) :
    updateReference.Safe m fun _ m' => m.Upholds m.roots m' := by
  refine .bind (pop_takes.imp ?_)
  rintro v _ ⟨hv, rfl⟩
  refine .bind (pop_takes.imp ?_)
  rintro r _ ⟨hr, rfl⟩
  obtain ⟨n, hn, hnode⟩ := hw.dropTop.dropTop.node (hw.dropTop.operands.toList hr)
  refine .after (nodeAt_apply hn) ?_
  split
  next hc =>
    split
    · obtain ⟨e, hfirst, henv⟩ := reference_names hnode hc
      rw [hfirst]
      refine .after (need_apply e) (.bind ((checkSlot_safe hw.dropTop.dropTop henv _).imp ?_))
      rintro _ _ ⟨rfl, hnames⟩
      refine .bind ((store_upholds m.roots hm.dropTop.dropTop hnames (hm.operand hv)).imp ?_)
      rintro _ m' ⟨hm', hv'⟩
      exact .modify ⟨hm'.anchored.push hv', hm'.retains⟩
    · exact .fail _
  · exact .fail _

theorem jumpUnless_upholds (hw : m.WellFormed) (hm : m.Anchored) (target : Int) :
    (jumpUnless target).Safe m fun _ m' => m.Upholds m.roots m' := by
  refine .bind (pop_takes.imp ?_)
  rintro c _ ⟨hc, rfl⟩
  split
  · exact .modify ((hm.dropTop.goTo target).upholds rfl)
  split
  · exact .pure (hm.dropTop.upholds rfl)
  · obtain ⟨n, hn, -⟩ := hw.dropTop.node (hw.operands.toList hc)
    have hkind : kindAt c { m with operands := m.operands.dropTop } =
        (.ok n.kind, { m with operands := m.operands.dropTop }) := by
      rw [kindAt, bind_ok (nodeAt_apply hn)]
      rfl
    exact .after hkind (.fail _)

/-! ## Scopes and calls -/

theorem enterScope_upholds (hw : m.WellFormed) (hm : m.Anchored) {slots : Int} (h0 : 0 ≤ slots) (h9 : slots ≤ 9) :
    (enterScope slots).Safe m fun _ m' => m.Upholds m.roots m' := by
  refine .after rfl (.bind ((overEnv_obtains hm (by simp) (by simp)).imp fun saved m₁ hsaved => ?_))
  obtain ⟨h₁, rfl⟩ : ∃ h, m₁ = { m with heap := h } := ⟨_, hsaved.rest⟩
  refine .after (modify_apply _) ?_
  have hm₁ := (hsaved.anchored hm).pushFrame hsaved.isAllocated
  have hmore : ∀ l ∈ m.roots, l ∈ ({ m with heap := h₁, frames := saved :: m.frames } : Machine).roots := by
    intro l hl
    simp only [Machine.roots, List.mem_map, List.mem_append, List.mem_cons, List.mem_reverse] at hl ⊢
    obtain ⟨a, ha, rfl⟩ := hl
    exact ⟨a, by tauto, rfl⟩
  refine .bind ((onHeap_obtains (hm₁.orderly.frame hm₁.holds h0 (by omega))).imp fun frame m₂ hframe => ?_)
  obtain ⟨h₂, rfl⟩ : ∃ h, m₂ = { m with heap := h, frames := saved :: m.frames } := ⟨_, hframe.rest⟩
  have hm₂ := hframe.anchored hm₁
  have hspares : Spares m.roots m.heap h₂ := hsaved.made.trans (hframe.made.mono hmore)
  obtain ⟨n, hn, hc⟩ := hspares.retains.isEnvironment (Machine.WellFormed.reaches_env m) hw.env
  refine .bind ((onHeap_obtains (hm₂.orderly.extend hm₂.holds (holds_singleton hframe.isAllocated) hn hc)).imp
    fun inner m₃ hinner => ?_)
  obtain ⟨h₃, rfl⟩ : ∃ h, m₃ = { m with heap := h, frames := saved :: m.frames } := ⟨_, hinner.rest⟩
  exact .modify ⟨(hinner.anchored hm₂).setEnv hinner.isAllocated, (hspares.trans (hinner.made.mono hmore)).retains⟩

theorem exitScope_upholds (hw : m.WellFormed) (hm : m.Anchored) :
    exitScope.Safe m fun _ m' => m.Upholds m.roots m' := by
  refine .after rfl ?_
  split
  · exact .fail _
  next top rest hframes =>
    obtain ⟨n, hn, hnode⟩ := hw.node (hw.frames top (by simp [hframes]))
    refine .after (nodeAt_apply hn) ?_
    split
    next hkind =>
      have hc : n.content = .blockframe := by
        unfold Node.kind Content.kind at hkind
        split at hkind <;> first | assumption | cases hkind
      have hsuits := hnode.suits
      rw [Suits, hc] at hsuits
      obtain ⟨hslots, e, hfirst, -⟩ := hsuits
      have he := hm.child hn (by simp [hc]) hslots hfirst
      rw [hfirst]
      refine .after (modify_apply _) (.after (need_apply e) (.modify ?_))
      exact ((hm.popFrame hframes).setEnv he).upholds rfl
    · exact .fail _

end MachineM

/-- The height of the operands that the innermost call saved is not above the current one. -/
def Machine.HeightKept (m : Machine) : Prop :=
  ∀ (a : Address) (rest : List Address) (n : Node) (back height : Int), m.frames = a :: rest →
    m.heap.nodes[a]? = some n → n.content = .callframe back height → height ≤ m.operands.height

namespace MachineM

variable {m m' : Machine} {a : Address}

theorem reset_upholds (hw : m.WellFormed) (hm : m.Anchored) (hr : m.HeightKept) :
    reset.Safe m fun _ m' => m.Upholds m.roots m' := by
  refine .after rfl ?_
  split
  · exact .fail _
  next top rest hframes =>
    obtain ⟨n, hn, hnode⟩ := hw.node (hw.frames top (by simp [hframes]))
    refine .after (modify_apply _) (.after (nodeAt_apply hn) ?_)
    split
    · exact .modify (((hm.popFrame hframes).goTo _).upholds rfl)
    next back height hc =>
      have hsuits := hnode.suits
      rw [Suits, hc] at hsuits
      obtain ⟨⟨hslots, e, hfirst, -⟩, h0, -⟩ := hsuits
      have he := hm.child hn (by simp [hc]) hslots hfirst
      have hle : height.toNat ≤ m.operands.height := by
        have := hr top rest n back height hframes hn hc
        omega
      have hreaches : m.operands.reaches height = true := by
        have := hw.operands.height
        simp [Operands.reaches, h0]
        omega
      have hresult : m.heap.isAllocated (m.operands.top?.getD Heap.undefined) = true := by
        cases htop : m.operands.top? with
        | none => exact hm.orderly.tidy.permanent_allocated (by decide)
        | some a => exact hm.operand (Operands.mem_of_top? htop)
      refine .after rfl (.after rfl ?_)
      split
      · rw [hfirst]
        refine .after (need_apply e) (.modify ?_)
        exact (((((hm.popFrame hframes).atHeight hle).push hresult).goTo back).setEnv he).upholds rfl
      next hnot => exact absurd hreaches hnot
    · exact .fail _

theorem exists_sees (hw : m.WellFormed) {arguments : List Address} (hargs : ∀ a ∈ arguments, a ∈ m.operands.toList) :
    ∃ xs, List.Forall₂ (Sees m) arguments xs := by
  induction arguments with
  | nil => exact ⟨[], .nil⟩
  | cons a rest ih =>
    obtain ⟨n, hn, -⟩ := hw.node (hw.operands.toList (hargs a (List.mem_cons_self ..)))
    obtain ⟨xs, hxs⟩ := ih fun b hb => hargs b (List.mem_cons_of_mem _ hb)
    exact ⟨_, .cons ⟨n, hn, rfl⟩ hxs⟩

theorem callBuiltin_upholds (hw : m.WellFormed) (hm : m.Anchored) {id arity : Int} {base : Nat} {arguments : List Address}
    (hid : (Builtin.ofSlot? id).isSome) (hlength : (arguments.length : Int) = arity)
    (hargs : ∀ a ∈ arguments, a ∈ m.operands.toList) (hbase : base ≤ m.operands.height) :
    (callBuiltin id arity base arguments).Safe m fun _ m' => m.Upholds m.roots m' := by
  obtain ⟨b, hb⟩ := Option.isSome_iff_exists.mp hid
  unfold callBuiltin
  rw [hb]
  refine .after (need_apply b) ?_
  split
  · exact .fail _
  next harity =>
    have harity' : b.arity = arguments.length := (not_not.mp harity).trans hlength.symm
    obtain ⟨xs, hxs⟩ := exists_sees hw hargs
    refine .bind ((obtains_of_picks hm hargs (apply_picks b harity' hxs)).imp fun r m₁ hr => ?_)
    obtain ⟨h₁, rfl⟩ : ∃ h, m₁ = { m with heap := h } := ⟨_, hr.rest⟩
    refine .after (modify_apply _) (.modify ?_)
    exact ⟨((hr.anchored hm).atHeight hbase).push hr.isAllocated, hr.made.retains⟩

/-- A frame that holds operands. -/
theorem argumentFrame_obtains (hm : m.Anchored) {arguments : List Address} (h9 : arguments.length ≤ 9)
    (hargs : ∀ a ∈ arguments, a ∈ m.operands.toList) :
    (onHeap (HeapM.argumentFrame arguments)).Safe m m.Obtains := by
  refine onHeap_obtains (hm.orderly.allocate hm.holds (by simp [withChildren, Node.fresh])
    (by simp [withChildren, Node.fresh]) ⟨Int.natCast_nonneg _, ?_⟩ fun b hb => ?_)
  · change (arguments.length : Int) < 0x7fffffffffffffff
    omega
  · have htraced := traced_withChildren .frame (arguments.map some) (by simpa [maxChildren] using h9)
    rw [List.length_map] at htraced
    rw [htraced] at hb
    exact Machine.WellFormed.reaches_operand (hargs b (by simpa using hb))

/-- The record of a call, while the frame of its arguments is pinned. -/
theorem callframe_obtains (hm : m.Anchored) {frame : Address} (hframe : m.heap.isAllocated frame = true)
    (back height : Int) :
    (onHeap (HeapM.pinning [some frame] (HeapM.callframe (some m.env) back height))).Safe m
      fun a m' => m.Obtains a m' ∧ m'.heap.isAllocated frame = true := by
  have henv : m.heap.Holds [some m.env] := holds_singleton (hm.held m.env (Machine.mem_roots.mpr (.inr (.inl rfl))))
  refine safe_of_leads (hm.orderly.pinning hm.holds (holds_singleton hframe) fun hp =>
    hp.allocateOver hm.holds henv (by simp) (by simp) (by simp)) fun a h' _ hmade => ⟨⟨rfl, hmade.1⟩, hmade.2 frame (by simp)⟩

theorem callClosure_upholds (hw : m.WellFormed) (hm : m.Anchored) {callee : Address} {n : Node}
    (hn : m.heap.nodes[callee]? = some n) {arity entry : Int} (hc : n.content = .closure arity entry)
    (hcallee : callee ∈ m.operands.toList) {base : Nat} {arguments : List Address} (h9 : arguments.length ≤ 9)
    (hargs : ∀ a ∈ arguments, a ∈ m.operands.toList) (hbase : base ≤ m.operands.height) :
    (callClosure entry n.firstChild base arguments).Safe m fun _ m' => m.Upholds m.roots m' := by
  have hsuits := (hw.heap.nodes callee n hn).suits
  rw [Suits, hc] at hsuits
  obtain ⟨hslots, env, hfirst, henv⟩ := hsuits
  -- the callee is an operand, so its environment stays through the allocations
  have hreach : Reaches m.heap.nodes (m.heap.rootLinks (rootsOf m).get) env :=
    (Machine.WellFormed.reaches_operand hcallee).child hn (hfirst ▸ firstChild_traced hslots)
  unfold callClosure
  rw [hfirst]
  refine .bind ((argumentFrame_obtains hm h9 hargs).imp fun frame m₁ hframe => ?_)
  obtain ⟨h₁, rfl⟩ : ∃ h, m₁ = { m with heap := h } := ⟨_, hframe.rest⟩
  have hm₁ := hframe.anchored hm
  refine .after rfl (.bind ((callframe_obtains hm₁ hframe.isAllocated _ _).imp ?_))
  rintro saved m₂ ⟨hsaved, hframe₂⟩
  obtain ⟨h₂, rfl⟩ : ∃ h, m₂ = { m with heap := h } := ⟨_, hsaved.rest⟩
  have hspares : Spares m.roots m.heap h₂ := hframe.made.trans hsaved.made.toSpares
  refine .after (modify_apply _) ?_
  have hm₂ := (hsaved.anchored hm₁).pushFrame hsaved.isAllocated
  obtain ⟨outer, houter, hcontent⟩ := hspares.retains.isEnvironment hreach henv
  refine .bind ((onHeap_obtains (hm₂.orderly.extend hm₂.holds (holds_singleton hframe₂) houter hcontent)).imp
    fun inner m₃ hinner => ?_)
  obtain ⟨h₃, rfl⟩ : ∃ h, m₃ = { m with heap := h, frames := saved :: m.frames } := ⟨_, hinner.rest⟩
  have hmore : ∀ l ∈ m.roots, l ∈ ({ m with heap := h₂, frames := saved :: m.frames } : Machine).roots := by
    intro l hl
    simp only [Machine.roots, List.mem_map, List.mem_append, List.mem_cons, List.mem_reverse] at hl ⊢
    obtain ⟨a, ha, rfl⟩ := hl
    exact ⟨a, by tauto, rfl⟩
  refine .modify ⟨?_, (hspares.trans (hinner.made.mono hmore)).retains⟩
  exact (((hinner.anchored hm₂).atHeight hbase).setEnv hinner.isAllocated).goTo entry

theorem call_upholds (hw : m.WellFormed) (hm : m.Anchored) {arity : Int} (h0 : 0 ≤ arity) (h9 : arity ≤ 9) :
    (call arity).Safe m fun _ m' => m.Upholds m.roots m' := by
  refine .after rfl ?_
  rw [if_neg (by omega)]
  split
  · exact .fail _
  next hheight =>
    obtain ⟨k, rfl⟩ := Int.eq_ofNat_of_zero_le h0
    dsimp only
    generalize hbase : m.operands.height - (k : Int).toNat - 1 = base
    have hbase_lt : base < m.operands.height := by omega
    have hle := hw.operands.height
    have hlt : base < m.operands.cells.size := by omega
    have hget : m.operands.get? base = some m.operands.cells[base] := by simp [Operands.get?, hbase_lt, hlt]
    have hcallee : m.operands.cells[base] ∈ m.operands.toList := by
      refine List.mem_iff_getElem.mpr ⟨base, by rw [hw.operands.length_toList]; exact hbase_lt, ?_⟩
      simp [Operands.toList]
    have hlength : (m.operands.above (base + 1)).length = k := by
      rw [Operands.above, List.length_drop, hw.operands.length_toList]
      omega
    have hargs : ∀ a ∈ m.operands.above (base + 1), a ∈ m.operands.toList := fun a ha => List.mem_of_mem_drop ha
    obtain ⟨n, hn, hnode⟩ := hw.node (hw.operands.toList hcallee)
    rw [hget]
    refine .after (need_apply _) (.after (nodeAt_apply hn) ?_)
    split
    next id hc =>
      have hsuits := hnode.suits
      rw [Suits, hc] at hsuits
      exact callBuiltin_upholds hw hm hsuits (by rw [hlength]) hargs hbase_lt.le
    next expected entry hc =>
      split
      · exact .fail _
      · exact callClosure_upholds hw hm hn hc hcallee (by omega) hargs hbase_lt.le
    · exact .fail _

end MachineM

/-! ## All instructions -/

/-- How many operands an instruction gives up before it makes a node. -/
def Instr.spends (i : Instr) : Nat :=
  match i.op.operation? with
  | some .unary => 1
  | some .binary => 2
  | _ => 0

/-- What the registers hold through all collections that an instruction may cause. -/
def Machine.staying (m : Machine) (i : Instr) : List Link :=
  ({ m with operands := m.operands.atHeight (m.operands.height - i.spends) } : Machine).roots

namespace MachineM

variable {m : Machine}

/-- An instruction that passed the check of images keeps a machine anchored, unless it is a return to operands that were
given up. -/
theorem execute_upholds (hw : m.WellFormed) (hm : m.Anchored) {i : Instr} (hi : i.Checked)
    (hr : i.op.operation? = some .reset → m.HeightKept) :
    (execute i).Safe m fun _ m' => m.Upholds (m.staying i) m' := by
  unfold execute Machine.staying Instr.spends
  cases ho : i.op.operation? with
  | none => exact .fail _
  | some o =>
    have hall {x : MachineM Unit} (hx : x.Safe m fun _ m' => m.Upholds m.roots m') :
        x.Safe m fun _ m' => m.Upholds ({ m with operands := m.operands.atHeight (m.operands.height - 0) } : Machine).roots m' :=
      hx
    cases o with
    | loadConstant => exact hall (push_obtains hm (onHeap_obtains (hm.orderly.ofLiteral hm.holds i.val)))
    | load =>
      refine hall (.after rfl (push_upholds ((load_allocated hw hm hw.env i.pos).imp ?_)))
      rintro v _ ⟨rfl, hv⟩
      exact ⟨hm.upholds rfl, hv⟩
    | assign => exact hall (assign_upholds hw hm i.pos)
    | drop => exact hall (drop_upholds hw hm i.pos)
    | reference => exact hall (reference_upholds hw hm i.pos i.mutable)
    | dereference => exact hall (dereference_upholds hw hm)
    | updateReference => exact hall (updateReference_upholds hw hm)
    | jumpUnless => exact hall (jumpUnless_upholds hw hm i.addr)
    | jump => exact .modify ((hm.goTo i.addr).upholds rfl)
    | unary =>
      refine .bind (pop_takes.imp ?_)
      rintro x _ ⟨hx, rfl⟩
      obtain ⟨n, hn, -⟩ := hw.dropTop.node (hw.operands.toList hx)
      exact push_computes hm.dropTop rfl (unary_computes hn i.sym)
    | binary =>
      refine .bind (pop_takes.imp ?_)
      rintro y _ ⟨hy, rfl⟩
      refine .bind (pop_takes.imp ?_)
      rintro x _ ⟨hx, rfl⟩
      obtain ⟨nx, hnx, -⟩ := hw.dropTop.dropTop.node (hw.dropTop.operands.toList hx)
      obtain ⟨ny, hny, -⟩ := hw.dropTop.dropTop.node (hw.operands.toList hy)
      exact push_computes hm.dropTop.dropTop rfl (binary_computes hnx hny i.sym)
    | call =>
      obtain ⟨h0, h9⟩ := hi.arity ho
      exact hall (call_upholds hw hm h0 h9)
    | reset => exact hall (reset_upholds hw hm (hr ho))
    | loadFunction => exact hall (.after rfl (push_obtains hm (overEnv_obtains hm (by simp) (by simp))))
    | enterScope =>
      obtain ⟨h0, h9⟩ := hi.num ho
      exact hall (enterScope_upholds hw hm h0 h9)
    | exitScope => exact hall (exitScope_upholds hw hm)
    | pop =>
      refine .bind (pop_takes.imp ?_)
      rintro x _ ⟨-, rfl⟩
      exact .pure (hm.dropTop.upholds rfl)
    | done => exact .fail _

end MachineM

end Tenure
