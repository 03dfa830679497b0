import Tenure.Proofs.Mirror.Allocation

/-!
# Well-formed heaps

Code that no compiler has seen may keep the address of a node that is gone, and such an address may lead to a node of
any kind by the time it is used. What holds of every heap that a machine can build is a property of its nodes alone:
`Node.WellFormed` says for each content what its children lead to. An environment has frames for children and never
changes, so a position that was checked once stays good. A frame may hold stale addresses, but none outside the arena.

Every allocation keeps all nodes well-formed and leaves alone what could be reached, `Heap.WellFormed.allocate`.
-/

set_option autoImplicit false

namespace Tenure

namespace Node

/-- The node at an address is an environment. -/
def IsEnvironment (nodes : Array Node) (a : Address) : Prop := ∃ n, nodes[a]? = some n ∧ n.content = .environment

/-- The node at an address is a frame with a number of slots. -/
def HasSlots (nodes : Array Node) (a : Address) (slots : Int) : Prop :=
  ∃ n, nodes[a]? = some n ∧ n.content = .frame ∧ n.slots = slots

/-- A position names a slot of the environment at an address. -/
def Names (nodes : Array Node) (a : Address) (pos : Position) : Prop :=
  ∃ env f slots, nodes[a]? = some env ∧ env.content = .environment ∧ (0 ≤ pos.frame ∧ pos.frame < env.slots) ∧
    env.child? pos.frame = some (some f) ∧ HasSlots nodes f slots ∧ 0 ≤ pos.slot ∧ pos.slot < slots

/-- The only child leads to a node with a property. -/
def Holds (n : Node) (p : Address → Prop) : Prop := n.slots = 1 ∧ ∃ a, n.firstChild = some a ∧ p a

/-- What the content of a node asks of its children. The height that a call saved is at most a limit. -/
def Suits (limit : Nat) (nodes : Array Node) (n : Node) : Prop :=
  match n.content with
  | .environment => ∀ l ∈ n.traced, ∃ f slots, l = some f ∧ HasSlots nodes f slots
  | .frame => ∀ l ∈ n.traced, ∃ v, l = some v
  | .closure _ _ | .blockframe => n.Holds (IsEnvironment nodes)
  | .callframe _ height => n.Holds (IsEnvironment nodes) ∧ 0 ≤ height ∧ height ≤ limit
  | .reference pos _ => n.Holds fun a => Names nodes a pos
  | .builtin id => (Builtin.ofSlot? id).isSome
  | .pair => False
  | _ => True

/-- A node as the operations of the machine leave it. -/
structure WellFormed (limit : Nat) (nodes : Array Node) (n : Node) : Prop where
  slots : 0 ≤ n.slots ∧ n.slots ≤ 9
  inside : ∀ b, some b ∈ n.traced → b < nodes.size
  suits : n.Suits limit nodes

variable {limit : Nat} {nodes nodes' : Array Node} {n : Node}

theorem WellFormed.not_overruns (hn : n.WellFormed limit nodes) : n.overruns = false := by
  have h9 : n.slots ≤ 9 := hn.slots.2
  exact decide_eq_false (Int.not_lt.mpr h9)

/-- The children below the number of slots are there and are traced. -/
theorem child?_traced {i : Int} (h0 : 0 ≤ i) (hi : i < n.slots) (h9 : n.slots ≤ 9) :
    ∃ l, n.child? i = some l ∧ l ∈ n.traced := by
  have hlt : i.toNat < 9 := by omega
  refine ⟨n.children[i.toNat], by simp [child?, h0, hlt], ?_⟩
  have hget : n.traced[i.toNat]? = some n.children[i.toNat] := by
    rw [traced, List.getElem?_take_of_lt (by omega)]
    simp [hlt]
  exact List.mem_of_getElem? hget

theorem firstChild_traced (h : n.slots = 1) : n.firstChild ∈ n.traced := by
  obtain ⟨l, hl, hmem⟩ := child?_traced (n := n) (i := 0) (by omega) (by omega) (by omega)
  obtain rfl : n.firstChild = l := by simpa [child?, firstChild] using hl
  exact hmem

theorem Holds.imp {p q : Address → Prop} (h : n.Holds p) (hpq : ∀ a, some a ∈ n.traced → p a → q a) : n.Holds q := by
  obtain ⟨hslots, a, ha, hp⟩ := h
  exact ⟨hslots, a, ha, hpq a (ha ▸ firstChild_traced hslots) hp⟩

/-- Among some nodes, closed under children, the environments and the shapes of the frames are the same in another
arena. -/
structure Preserves (p : Address → Prop) (nodes nodes' : Array Node) : Prop where
  size : nodes'.size = nodes.size
  closed : ∀ (a b : Address) (n : Node), p a → nodes[a]? = some n → some b ∈ n.traced → p b
  environment : ∀ (a : Address) (n : Node), p a → nodes[a]? = some n → n.content = .environment → nodes'[a]? = some n
  frame : ∀ (a : Address) (slots : Int), p a → HasSlots nodes a slots → HasSlots nodes' a slots

variable {p : Address → Prop}

theorem Preserves.isEnvironment (h : Preserves p nodes nodes') {a : Address} (ha : p a) (he : IsEnvironment nodes a) :
    IsEnvironment nodes' a := by
  obtain ⟨n, hn, hc⟩ := he
  exact ⟨n, h.environment a n ha hn hc, hc⟩

theorem Preserves.names (h : Preserves p nodes nodes') (h9 : ∀ (a : Address) n, nodes[a]? = some n → n.slots ≤ 9)
    {a : Address} {pos : Position} (ha : p a) (hn : Names nodes a pos) : Names nodes' a pos := by
  obtain ⟨env, f, slots, henv, hc, ⟨h0, hlt⟩, hf, hslots, hpos⟩ := hn
  have hpf : p f := by
    obtain ⟨l, hl, hmem⟩ := child?_traced h0 hlt (h9 a env henv)
    obtain rfl : some f = l := Option.some.inj (hf.symm.trans hl)
    exact h.closed a f env ha henv hmem
  exact ⟨env, f, slots, h.environment a env ha henv hc, hc, ⟨h0, hlt⟩, hf, h.frame f slots hpf hslots, hpos⟩

/-- A node is well-formed in another arena that looks the same from there. -/
theorem WellFormed.congr (hn : n.WellFormed limit nodes) (h : Preserves p nodes nodes')
    (h9 : ∀ (a : Address) n, nodes[a]? = some n → n.slots ≤ 9) (hp : ∀ b, some b ∈ n.traced → p b) :
    n.WellFormed limit nodes' := by
  refine ⟨hn.slots, fun b hb => h.size ▸ hn.inside b hb, ?_⟩
  have hsuits := hn.suits
  unfold Suits at hsuits ⊢
  split at hsuits
  · intro l hl
    obtain ⟨f, slots, rfl, hslots⟩ := hsuits l hl
    exact ⟨f, slots, rfl, h.frame f slots (hp f hl) hslots⟩
  · exact hsuits
  · exact hsuits.imp fun a ha => h.isEnvironment (hp a ha)
  · exact hsuits.imp fun a ha => h.isEnvironment (hp a ha)
  · exact ⟨hsuits.1.imp fun a ha => h.isEnvironment (hp a ha), hsuits.2⟩
  · exact hsuits.imp fun a ha => h.names h9 (hp a ha)
  · exact hsuits
  · exact hsuits
  · trivial

theorem WellFormed.mono (hn : n.WellFormed limit nodes) {limit' : Nat} (h : limit ≤ limit') :
    n.WellFormed limit' nodes := by
  refine ⟨hn.slots, hn.inside, ?_⟩
  have hsuits := hn.suits
  unfold Suits at hsuits ⊢
  split at hsuits <;> try exact hsuits
  obtain ⟨hheld, h0, hheight⟩ := hsuits
  exact ⟨hheld, h0, by omega⟩

end Node

namespace Heap

open Node

/-- A heap between operations of a machine: all its nodes are well-formed. -/
structure WellFormed (limit : Nat) (h : Heap) : Prop where
  sound : h.Sound
  bottom : bottom ≤ h.nodes.size
  nodes : ∀ (a : Address) (n : Node), h.nodes[a]? = some n → n.WellFormed limit h.nodes
  pins : ∀ a, some a ∈ h.pins.toList → a < h.nodes.size

/-- Whatever could be reached in a heap is still there in another one. -/
structure Extends (links : List Link) (h h' : Heap) : Prop where
  size : h'.nodes.size = h.nodes.size
  pins : h'.pins = h.pins
  kept : ∀ (a : Address) (n : Node), Reaches h.nodes links a → h.nodes[a]? = some n → n.content ≠ .free →
    h'.nodes[a]? = some n

variable {limit : Nat} {h h' : Heap} {roots : Roots} {a : Address} {next : Link} {node : Node}

namespace WellFormed

theorem mono (hw : h.WellFormed limit) {limit' : Nat} (hle : limit ≤ limit') : h.WellFormed limit' :=
  { hw with nodes := fun a n hn => (hw.nodes a n hn).mono hle }

theorem slots_le (hw : h.WellFormed limit) (a : Address) (n : Node) (hn : h.nodes[a]? = some n) : n.slots ≤ 9 :=
  (hw.nodes a n hn).slots.2

theorem permanent_lt {a : Address} (ha : some a ∈ permanentLinks) : a < Heap.bottom := by
  simp only [permanentLinks, List.mem_cons, Option.some.injEq, List.not_mem_nil, or_false] at ha
  rcases ha with rfl | rfl | rfl | rfl | rfl <;> decide

/-- Everything that can be reached is inside the arena. -/
theorem traceable (hw : h.WellFormed limit) (hr : ∀ a, some a ∈ roots.get → a < h.nodes.size) :
    Traceable h.nodes (h.rootLinks roots.get) := by
  have hlt : ∀ a, Reaches h.nodes (h.rootLinks roots.get) a → a < h.nodes.size := by
    intro a ha
    induction ha with
    | @root a hmem =>
      rcases List.mem_append.mp hmem with hmem | hmem
      · rcases List.mem_append.mp hmem with hmem | hmem
        · exact Nat.lt_of_lt_of_le (permanent_lt hmem) hw.bottom
        · exact hw.pins a hmem
      · exact hr a hmem
    | @child a b n _ hn hb _ => exact (hw.nodes a n hn).inside b hb
  intro a ha
  have hn := Array.getElem?_eq_getElem (hlt a ha)
  exact ⟨_, hn, (hw.nodes a _ hn).not_overruns⟩

/-- A heap stays well-formed when a vacant node becomes a node that is well-formed. -/
theorem placed (hw : h.WellFormed limit) (hvacant : h.nodes[a]? = some (.vacant next))
    (hnode : node.WellFormed limit h.nodes) (hs : h'.Sound) (hnodes : h'.nodes = h.nodes.setIfInBounds a node)
    (hpins : h'.pins = h.pins) : h'.WellFormed limit := by
  have hsize : h'.nodes.size = h.nodes.size := by simp [hnodes]
  have hother : ∀ (b : Address) (n : Node), h.nodes[b]? = some n → n.content ≠ .free → h'.nodes[b]? = some n := by
    intro b n hn hc
    have hne : a ≠ b := by
      rintro rfl
      obtain rfl := Option.some.inj (hn.symm.trans hvacant)
      exact hc rfl
    rw [hnodes, Array.getElem?_setIfInBounds_ne hne, hn]
  have hsame : Preserves (fun _ => True) h.nodes h'.nodes := by
    refine ⟨hsize, fun _ _ _ _ _ _ => trivial, fun b n _ hn hc => hother b n hn (by simp [hc]), ?_⟩
    rintro b slots - ⟨n, hn, hc, hslots⟩
    exact ⟨n, hother b n hn (by simp [hc]), hc, hslots⟩
  refine ⟨hs, hsize ▸ hw.bottom, fun b n hn => ?_, fun b hb => hsize ▸ hw.pins b (hpins ▸ hb)⟩
  have hold : n.WellFormed limit h.nodes := by
    rw [hnodes, Array.getElem?_setIfInBounds] at hn
    split at hn
    · split at hn
      · exact Option.some.inj hn ▸ hnode
      · cases hn
    · exact hw.nodes b n hn
  exact hold.congr hsame hw.slots_le fun _ _ => trivial

/-- A heap stays well-formed when a slot of a frame gets another value. -/
theorem stored (hw : h.WellFormed limit) {n : Node} (hn : h.nodes[a]? = some n) (hc : n.content = .frame)
    (hcontent : node.content = .frame) (hslots : node.slots = n.slots)
    (hvalues : ∀ l ∈ node.traced, ∃ v, l = some v ∧ v < h.nodes.size) : (h.setNode a node).WellFormed limit := by
  have hlt : a < h.nodes.size := (Array.getElem?_eq_some_iff.mp hn).1
  have hsize : (h.setNode a node).nodes.size = h.nodes.size := by simp [setNode]
  have hself : (h.setNode a node).nodes[a]? = some node := Array.getElem?_setIfInBounds_self_of_lt hlt
  have hother : ∀ b : Address, a ≠ b → (h.setNode a node).nodes[b]? = h.nodes[b]? := fun b hne =>
    Array.getElem?_setIfInBounds_ne hne
  have hsame : Preserves (fun _ => True) h.nodes (h.setNode a node).nodes := by
    refine ⟨hsize, fun _ _ _ _ _ _ => trivial, fun b m _ hm hmc => ?_, ?_⟩
    · have hne : a ≠ b := by
        rintro rfl
        obtain rfl := Option.some.inj (hn.symm.trans hm)
        simp [hc] at hmc
      rw [hother b hne, hm]
    · rintro b slots - ⟨m, hm, hmc, hms⟩
      by_cases hab : a = b
      · subst hab
        obtain rfl := Option.some.inj (hn.symm.trans hm)
        exact ⟨node, hself, hcontent, hslots.trans hms⟩
      · exact ⟨m, by rw [hother b hab, hm], hmc, hms⟩
  have hnode : node.WellFormed limit h.nodes := by
    refine ⟨hslots ▸ (hw.nodes a n hn).slots, fun b hb => ?_, ?_⟩
    · obtain ⟨v, hv, hlt⟩ := hvalues _ hb
      exact Option.some.inj hv ▸ hlt
    · simp only [Suits, hcontent]
      exact fun l hl => (hvalues l hl).imp fun v hv => hv.1
  refine ⟨hw.sound.setNode hn (by rw [hcontent, hc]) (by simp [hc]) (by simp [hc]), hsize ▸ hw.bottom, fun b m hm => ?_,
    fun b hb => hsize ▸ hw.pins b hb⟩
  have hold : m.WellFormed limit h.nodes := by
    by_cases hab : a = b
    · subst hab
      exact Option.some.inj (hself.symm.trans hm) ▸ hnode
    · exact hw.nodes b m ((hother b hab).symm.trans hm)
  exact hold.congr hsame hw.slots_le fun _ _ => trivial

theorem with_pins (hw : h.WellFormed limit) {pins : Array Link} (hp : ∀ a, some a ∈ pins.toList → a < h.nodes.size) :
    ({ h with pins := pins } : Heap).WellFormed limit :=
  ⟨⟨hw.sound.size, hw.sound.clear, hw.sound.free, hw.sound.pooled.congr rfl rfl rfl⟩, hw.bottom, hw.nodes, hp⟩

end WellFormed

/-- The free list of a well-formed heap offers a node, and nothing that can be reached has changed. -/
structure Ready (limit : Nat) (links : List Link) (h h₁ : Heap) (a : Address) (next : Link) : Prop where
  wellFormed : h₁.WellFormed limit
  later : Extends links h h₁
  preserves : Preserves (Reaches h.nodes links) h.nodes h₁.nodes
  strings : ∀ b t, IsString h₁.nodes b t → IsString h.nodes b t
  free : h₁.free = some a
  vacant : h₁.nodes[a]? = some (.vacant next)

/-- A collection keeps a heap well-formed. -/
theorem Collected.wellFormed {links : List Link} (hw : h.WellFormed limit) (hc : Collected links h h') :
    h'.WellFormed limit ∧ Extends (h.rootLinks links) h h' ∧
      Preserves (Reaches h.nodes (h.rootLinks links)) h.nodes h'.nodes := by
  have hsame : Preserves (Reaches h.nodes (h.rootLinks links)) h.nodes h'.nodes := by
    refine ⟨hc.size, fun a b n ha hn hb => ha.child hn hb, fun a n ha hn _ => by rw [hc.kept a ha, hn], ?_⟩
    rintro a slots ha ⟨n, hn, hcontent, hslots⟩
    exact ⟨n, by rw [hc.kept a ha, hn], hcontent, hslots⟩
  refine ⟨⟨hc.sound, hc.size ▸ hw.bottom, fun a n hn => ?_, fun a ha => hc.size ▸ hw.pins a (hc.pins ▸ ha)⟩,
    ⟨hc.size, hc.pins, fun a n ha hn _ => by rw [hc.kept a ha, hn]⟩, hsame⟩
  by_cases ha : Reaches h.nodes (h.rootLinks links) a
  · have hn' : h.nodes[a]? = some n := (hc.kept a ha).symm.trans hn
    exact (hw.nodes a n hn').congr hsame hw.slots_le fun b hb => ha.child hn' hb
  · -- whatever cannot be reached is vacant now
    obtain ⟨l, hl, hmem⟩ := hc.chain
    have hlt : a < h.nodes.size := hc.size ▸ (Array.getElem?_eq_some_iff.mp hn).1
    obtain ⟨next, hnext⟩ := hl.vacant ((hmem a).mpr ⟨hlt, ha⟩)
    obtain rfl := Option.some.inj (hn.symm.trans hnext)
    exact ⟨by simp [Node.vacant], by simp [Node.vacant, Node.traced], trivial⟩

/-- Allocation fails, strays, or puts the node where a well-formed heap has room for it. -/
theorem WellFormed.offers (hw : h.WellFormed limit) (hr : ∀ a, some a ∈ roots.get → a < h.nodes.size) (node : Node) :
    (∃ e h₁, HeapM.allocate node roots h = (.error (.failed e), h₁)) ∨ (HeapM.allocate node).Strays roots h ∨
      ∃ h₁ a next, HeapM.allocate node roots h = (.ok a, h₁.place a next node) ∧
        ¬ (nodeWords : Int) < wordsFor node.slots ∧ Ready limit (h.rootLinks roots.get) h h₁ a next := by
  by_cases hwords : (nodeWords : Int) < wordsFor node.slots
  · exact .inl ⟨.tooLarge, h, by simp only [HeapM.allocate, if_pos hwords]; rfl⟩
  cases hf : h.free with
  | some a =>
    rcases hw.sound.free_cases hf with ⟨next, hn⟩ | ⟨hmany, ha⟩
    · refine .inr (.inr ⟨h, a, next, ?_, hwords, hw, ⟨rfl, rfl, fun _ _ _ hn _ => hn⟩, ?_, fun _ _ hb => hb, hf, hn⟩)
      · rw [allocate_of_free (Int.not_lt.mp hwords) hf, HeapM.take, take?_eq hf hn]
      · exact ⟨rfl, fun a b n ha hn hb => ha.child hn hb, fun _ _ _ hn _ => hn, fun _ _ _ hs => hs⟩
    · exact .inr (.inl ⟨h, by rw [allocate_of_free (Int.not_lt.mp hwords) hf, take_of_outside hf ha], hmany⟩)
  | none =>
    obtain ⟨freed, h', hcollect, hc⟩ := collect_spec (hw.sound.few_of_empty hf) hw.sound (hw.traceable hr)
    have halloc : HeapM.allocate node roots h = HeapM.take node roots h' :=
      allocate_of_collect (Int.not_lt.mp hwords) hf hcollect
    obtain ⟨hw', hlater, hsame⟩ := hc.wellFormed hw
    obtain ⟨l, hl, -⟩ := hc.chain
    cases hf' : h'.free with
    | none => exact .inl ⟨.exhausted, h', by rw [halloc, take_of_empty hf']⟩
    | some a =>
      rw [hf'] at hl
      cases hl with
      | @cons _ next rest hn _ =>
        refine .inr (.inr ⟨h', a, next, ?_, hwords, hw', hlater, hsame, hc.strings, hf', hn⟩)
        rw [halloc, HeapM.take, take?_eq hf' hn]

end Heap

end Tenure
