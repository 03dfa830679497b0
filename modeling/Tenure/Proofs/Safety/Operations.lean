import Tenure.Proofs.Safety.Heap

/-!
# Heap operations that do not crash

On a well-formed heap no operation that the machine uses reaches for something that is not there, as long as every node
has an address. An operation that makes a node leaves a well-formed heap with everything that could be reached,
`Heap.Makes`; a slot that a position names can be read and written.
-/

set_option autoImplicit false

namespace Tenure

namespace HeapM

variable {α β : Type} {roots : Roots} {h h' : Heap}

/-- An operation crashes only where there are more nodes than addresses, and if it succeeds, a condition holds. -/
structure Safe (act : HeapM α) (roots : Roots) (h : Heap) (post : α → Heap → Prop) : Prop where
  ok : ∀ a h', act roots h = (.ok a, h') → post a h'
  alive : ∀ h', act roots h = (.error .crashed, h') → Heap.addressable < h'.nodes.size

namespace Safe

variable {act : HeapM α} {f : α → HeapM β} {post post' : α → Heap → Prop}

theorem of_ok {a : α} (hact : act roots h = (.ok a, h')) (hpost : post a h') : act.Safe roots h post := by
  constructor <;> rw [hact]
  · rintro _ _ ⟨⟩
    exact hpost
  · rintro _ ⟨⟩

theorem of_failed {e : HeapError} (hact : act roots h = (.error (.failed e), h')) : act.Safe roots h post := by
  constructor <;> rw [hact]
  · rintro _ _ ⟨⟩
  · rintro _ ⟨⟩

theorem of_strays (hact : act.Strays roots h) : act.Safe roots h post := by
  obtain ⟨h', hrun, hmany⟩ := hact
  constructor <;> rw [hrun]
  · rintro _ _ ⟨⟩
  · rintro _ ⟨⟩
    exact hmany

theorem after {post : β → Heap → Prop} {a : α} (hact : act roots h = (.ok a, h'))
    (hf : (f a).Safe roots h' post) : (act >>= f).Safe roots h post := by
  constructor <;> rw [bind_ok hact]
  · exact hf.ok
  · exact hf.alive

theorem bind {post : β → Heap → Prop} (hact : act.Safe roots h fun a h' => (f a).Safe roots h' post) :
    (act >>= f).Safe roots h post := by
  match hrun : act roots h with
  | (.ok a, h') => exact .after hrun (hact.ok a h' hrun)
  | (.error (.failed e), h') => exact .of_failed (bind_error hrun)
  | (.error .crashed, h') => exact .of_strays (Strays.bind ⟨h', hrun, hact.alive h' hrun⟩)

theorem imp (hact : act.Safe roots h post) (himp : ∀ a h', post a h' → post' a h') : act.Safe roots h post' :=
  ⟨fun a h' hrun => himp a h' (hact.ok a h' hrun), hact.alive⟩

/-- Pins last as long as the operation that they are for. -/
theorem pinning {links : List Link}
    (hact : act.Safe roots { h with pins := h.pins ++ links.toArray }
      fun a h' => post a { h' with pins := h'.pins.extract 0 h.pins.size }) :
    (HeapM.pinning links act).Safe roots h post := by
  match hrun : act roots { h with pins := h.pins ++ links.toArray } with
  | (.ok a, h') => exact .of_ok (by rw [HeapM.pinning, hrun]) (hact.ok a h' hrun)
  | (.error (.failed e), h') => exact .of_failed (by rw [HeapM.pinning, hrun])
  | (.error .crashed, h') => exact .of_strays (Strays.pinning ⟨h', hrun, hact.alive h' hrun⟩)

end Safe

end HeapM

namespace Heap

open Node

variable {limit : Nat} {links links' : List Link} {roots : Roots} {h h₁ h' : Heap} {a : Address} {next : Link}
  {node : Node}

theorem Reaches.mono {nodes : Array Node} (ha : Reaches nodes links a) (hl : ∀ l ∈ links, l ∈ links') :
    Reaches nodes links' a := by
  induction ha with
  | root hr => exact .root (hl _ hr)
  | child _ hn hb ih => exact ih.child hn hb

/-- What can be reached can be reached as well where the nodes are the same that can be reached. -/
theorem Reaches.kept {nodes nodes' : Array Node} (ha : Reaches nodes links a)
    (hkept : ∀ b, Reaches nodes links b → nodes'[b]? = nodes[b]?) : Reaches nodes' links a := by
  induction ha with
  | root hr => exact .root hr
  | child ha hn hb ih => exact ih.child ((hkept _ ha).trans hn) hb

theorem Extends.isEnvironment (he : Extends links h h') (ha : Reaches h.nodes links a)
    (henv : IsEnvironment h.nodes a) : IsEnvironment h'.nodes a := by
  obtain ⟨n, hn, hc⟩ := henv
  exact ⟨n, he.kept a n ha hn (by simp [hc]), hc⟩

theorem Extends.hasSlots (he : Extends links h h') (ha : Reaches h.nodes links a) {slots : Int}
    (hs : HasSlots h.nodes a slots) : HasSlots h'.nodes a slots := by
  obtain ⟨n, hn, hc, hslots⟩ := hs
  exact ⟨n, he.kept a n ha hn (by simp [hc]), hc, hslots⟩

/-- What an operation that makes a node leads to: a well-formed heap where whatever could be reached is still there,
and a node with a property. -/
structure Makes (limit : Nat) (links : List Link) (h : Heap) (p : Array Node → Address → Prop) (a : Address)
    (h' : Heap) : Prop where
  wellFormed : h'.WellFormed limit
  later : Extends links h h'
  inside : a < h'.nodes.size
  made : p h'.nodes a

/-- Everything that the roots hold is inside the arena. -/
def Inside (h : Heap) (links : List Link) : Prop := ∀ a, some a ∈ links → a < h.nodes.size

variable {p : Array Node → Address → Prop}

/-- A node that is well-formed once there is room for it. -/
theorem Ready.makes (hready : Ready limit links h h₁ a next) (hnode : node.WellFormed limit h₁.nodes)
    (hs : h'.Sound) (hnodes : h'.nodes = h₁.nodes.setIfInBounds a node) (hpins : h'.pins = h₁.pins)
    (hp : p h'.nodes a) : Makes limit links h p a h' := by
  have hlt : a < h₁.nodes.size := (Array.getElem?_eq_some_iff.mp hready.vacant).1
  have hsize : h'.nodes.size = h₁.nodes.size := by simp [hnodes]
  refine ⟨hready.wellFormed.placed hready.vacant hnode hs hnodes hpins,
    ⟨hsize.trans hready.later.size, hpins.trans hready.later.pins, fun b n hb hn hc => ?_⟩, hsize ▸ hlt, hp⟩
  have hkept := hready.later.kept b n hb hn hc
  have hne : a ≠ b := by
    rintro rfl
    obtain rfl := Option.some.inj (hkept.symm.trans hready.vacant)
    exact hc rfl
  rw [hnodes, Array.getElem?_setIfInBounds_ne hne, hkept]

/-- Allocation of a node whose children can be reached. -/
theorem WellFormed.allocate (hw : h.WellFormed limit) (hr : h.Inside roots.get) (hnode : node.WellFormed limit h.nodes)
    (hlinks : ∀ b, some b ∈ node.traced → Reaches h.nodes (h.rootLinks roots.get) b)
    (hs : ∀ t, node.content ≠ .string t) :
    (HeapM.allocate node).Safe roots h
      (Makes limit (h.rootLinks roots.get) h fun nodes a => nodes[a]? = some node) := by
  rcases hw.offers hr node with ⟨e, h₁, hrun⟩ | hstrays | ⟨h₁, a, next, hrun, -, hready⟩
  · exact .of_failed hrun
  · exact .of_strays hstrays
  · refine .of_ok hrun (hready.makes (hnode.congr hready.preserves hw.slots_le hlinks)
      (hready.wellFormed.sound.place hready.free hready.vacant hs) rfl rfl ?_)
    exact getElem?_place_self hready.vacant next node

/-- Nothing changes for the operation when links that lead into the arena are pinned meanwhile. -/
theorem WellFormed.pinning (hw : h.WellFormed limit) {pinned : List Link} (hpinned : h.Inside pinned)
    {act : HeapM Address}
    (hact : ({ h with pins := h.pins ++ pinned.toArray } : Heap).WellFormed limit →
      act.Safe roots { h with pins := h.pins ++ pinned.toArray }
        (Makes limit (({ h with pins := h.pins ++ pinned.toArray } : Heap).rootLinks roots.get)
          { h with pins := h.pins ++ pinned.toArray } p)) :
    (HeapM.pinning pinned act).Safe roots h (Makes limit (h.rootLinks roots.get) h p) := by
  refine .pinning ((hact (hw.with_pins fun a ha => ?_)).imp fun a h' hm => ?_)
  · simp only [Array.toList_append, List.mem_append] at ha
    exact ha.elim (hw.pins a) (hpinned a)
  · have hpins : h'.pins.extract 0 h.pins.size = h.pins := by
      rw [hm.later.pins]
      simp
    refine ⟨hm.wellFormed.with_pins fun b hb => ?_, ⟨hm.later.size, hpins, fun b n hb hn hc => ?_⟩, hm.inside, hm.made⟩
    · rw [hpins] at hb
      have := hw.pins b hb
      rwa [hm.later.size]
    · refine hm.later.kept b n (hb.mono fun l hl => ?_) hn hc
      simp only [rootLinks, Array.toList_append, List.mem_append] at hl ⊢
      tauto

/-- Allocation of a node over a child that has to be kept meanwhile. -/
theorem WellFormed.allocateOver (hw : h.WellFormed limit) (hr : h.Inside roots.get) {content : Content} {e : Address}
    (he : e < h.nodes.size)
    (hsuits : ∀ n : Node, n.content = content → n.slots = 1 → n.firstChild = some e → n.Suits limit h.nodes)
    (hs : ∀ t, content ≠ .string t) :
    (HeapM.allocateOver content 1 [some e]).Safe roots h
      (Makes limit (h.rootLinks roots.get) h fun _ _ => True) := by
  refine hw.pinning (by simpa [Inside] using he) fun hw' => ?_
  have htraced : ((Node.fresh content 1).withChildren [some e]).traced = [some e] :=
    traced_withChildren content [some e] (by simp [maxChildren])
  refine (hw'.allocate hr ⟨⟨by simp [Node.withChildren, Node.fresh], by simp [Node.withChildren, Node.fresh]⟩,
    fun b hb => ?_, hsuits _ rfl rfl rfl⟩ (fun b hb => ?_) hs).imp fun a h' hm => { hm with made := trivial }
  · rw [htraced] at hb
    obtain rfl : b = e := by simpa using hb
    exact he
  · rw [htraced] at hb
    refine .root ?_
    simp only [rootLinks, Array.toList_append, List.mem_append]
    exact .inl (.inr (.inr hb))

/-- Allocation of a node without children. -/
theorem WellFormed.leaf (hw : h.WellFormed limit) (hr : h.Inside roots.get) {content : Content}
    (hsuits : (Node.fresh content 0).Suits limit h.nodes) (hs : ∀ t, content ≠ .string t) :
    (HeapM.allocate (.fresh content 0)).Safe roots h
      (Makes limit (h.rootLinks roots.get) h fun nodes a => nodes[a]? = some (.fresh content 0)) :=
  hw.allocate hr ⟨by simp [Node.fresh], by simp [Node.fresh, Node.traced], hsuits⟩ (by simp [Node.fresh, Node.traced]) hs

/-- The node of a text is there already or is made. -/
theorem WellFormed.string (hw : h.WellFormed limit) (hr : h.Inside roots.get) (t : Text) :
    (HeapM.string t).Safe roots h (Makes limit (h.rootLinks roots.get) h fun _ _ => True) := by
  cases hfind : h.findText? t with
  | some a =>
    obtain ⟨n, hn, -⟩ := hw.sound.pooled.isString_of_findText? hfind
    have hrun : HeapM.string t roots h = (.ok a, h) := by simp [HeapM.string, hfind]
    exact .of_ok hrun ⟨hw, ⟨rfl, rfl, fun _ _ _ hn _ => hn⟩, (Array.getElem?_eq_some_iff.mp hn).1, trivial⟩
  | none =>
    have hrun : HeapM.string t roots h = (HeapM.allocate (.fresh (.string t) 0) >>= fun a => do
        modify fun h => h.remember t a
        pure a) roots h := by simp [HeapM.string, hfind]
    rcases hw.offers hr (.fresh (.string t) 0) with ⟨e, h₁, halloc⟩ | ⟨h₁, halloc, hmany⟩ |
        ⟨h₁, a, next, halloc, -, hready⟩
    · exact .of_failed (hrun.trans (HeapM.bind_error halloc))
    · exact .of_strays ⟨h₁, hrun.trans (HeapM.bind_error halloc), hmany⟩
    · refine .of_ok (hrun.trans (HeapM.bind_ok halloc)) (hready.makes ?_ ?_ rfl rfl trivial)
      · exact ⟨by simp [Node.fresh], by simp [Node.fresh, Node.traced], trivial⟩
      · exact hready.wellFormed.sound.place_string hready.free hready.vacant fun b hb =>
          hw.sound.pooled.findText?_none hfind b (hready.strings b t hb)

/-- A frame whose slots hold what can be reached. -/
theorem WellFormed.frameOver (hw : h.WellFormed limit) (hr : h.Inside roots.get) (values : List Address)
    (h9 : values.length ≤ 9)
    (hvalues : ∀ v ∈ values, v < h.nodes.size ∧ Reaches h.nodes (h.rootLinks roots.get) v) :
    (HeapM.allocate ((Node.fresh .frame values.length).withChildren (values.map some))).Safe roots h
      (Makes limit (h.rootLinks roots.get) h fun nodes a => HasSlots nodes a values.length) := by
  have htraced := traced_withChildren .frame (values.map some) (by simpa [maxChildren] using h9)
  rw [List.length_map] at htraced
  have hmem : ∀ b, some b ∈ ((Node.fresh .frame values.length).withChildren (values.map some)).traced → b ∈ values := by
    intro b hb
    rw [htraced] at hb
    simpa using hb
  have hnode : ((Node.fresh .frame values.length).withChildren (values.map some)).WellFormed limit h.nodes := by
    refine ⟨⟨Int.natCast_nonneg _, ?_⟩, fun b hb => (hvalues b (hmem b hb)).1, fun l hl => ?_⟩
    · change (values.length : Int) ≤ 9
      omega
    · rw [htraced] at hl
      obtain ⟨v, -, rfl⟩ := List.mem_map.mp hl
      exact ⟨v, rfl⟩
  have hsafe := hw.allocate hr hnode (fun b hb => (hvalues b (hmem b hb)).2) fun t => Content.noConfusion
  exact hsafe.imp fun a h' hm => { hm with made := ⟨_, hm.made, rfl, rfl⟩ }

/-- A frame with unassigned slots. -/
theorem WellFormed.frame (hw : h.WellFormed limit) (hr : h.Inside roots.get) {slots : Int} (h0 : 0 ≤ slots)
    (h9 : slots ≤ 9) :
    (HeapM.frame slots).Safe roots h
      (Makes limit (h.rootLinks roots.get) h fun nodes a => HasSlots nodes a slots) := by
  obtain ⟨k, rfl⟩ := Int.eq_ofNat_of_zero_le h0
  have hk : k ≤ 9 := by omega
  have hmin : min (k : Int).toNat maxChildren = k := Nat.min_eq_left hk
  have hsafe := hw.frameOver hr (List.replicate k Heap.unassigned) (by simpa using hk) fun v hv => by
    rw [List.eq_of_mem_replicate hv]
    exact ⟨Nat.lt_of_lt_of_le (by decide) hw.bottom, .root (by simp [rootLinks, permanentLinks])⟩
  rw [List.map_replicate, List.length_replicate] at hsafe
  have hfits : ((Node.fresh .frame k).withChildren (List.replicate k (some Heap.unassigned))).overruns = false :=
    decide_eq_false (Int.not_lt.mpr h9)
  have hrun : HeapM.frame (k : Int) = HeapM.allocate ((Node.fresh .frame k).withChildren
      (List.replicate k (some Heap.unassigned))) >>= fun a => pure a := by
    rw [HeapM.frame, hmin]
    simp only [hfits, Bool.false_eq_true, if_false]
  rw [hrun]
  exact .bind (hsafe.imp fun a h' hm => .of_ok (HeapM.pure_apply a) hm)

/-- A frame that holds arguments. -/
theorem WellFormed.argumentFrame (hw : h.WellFormed limit) (hr : h.Inside roots.get) {arguments : List Address}
    (h9 : arguments.length ≤ 9) (hmem : ∀ a ∈ arguments, some a ∈ roots.get) :
    (HeapM.argumentFrame arguments).Safe roots h
      (Makes limit (h.rootLinks roots.get) h fun nodes a => HasSlots nodes a arguments.length) := by
  refine hw.frameOver hr arguments h9 fun v hv => ⟨hr v (hmem v hv), .root ?_⟩
  simp only [rootLinks, List.mem_append]
  exact .inr (hmem v hv)

theorem oneMore_eq {slots : Int} (h0 : 0 ≤ slots) (h9 : slots ≤ 10) : oneMore slots = slots + 1 := by
  rw [oneMore, Int.bmod_def]
  omega

/-- An environment with one more frame inside it. -/
theorem WellFormed.extend (hw : h.WellFormed limit) (hr : h.Inside roots.get) {frame env : Address} {slots : Int}
    (hframe : HasSlots h.nodes frame slots) (henv : IsEnvironment h.nodes env) :
    (HeapM.extend (some frame) (some env)).Safe roots h
      (Makes limit (h.rootLinks roots.get) h fun nodes a => IsEnvironment nodes a) := by
  obtain ⟨outer, houter, hcontent⟩ := henv
  have hframe_lt : frame < h.nodes.size := by
    obtain ⟨n, hn, -⟩ := hframe
    exact (Array.getElem?_eq_some_iff.mp hn).1
  have henv_lt : env < h.nodes.size := (Array.getElem?_eq_some_iff.mp houter).1
  have houter_ok := hw.nodes env outer houter
  obtain ⟨h0, h9⟩ := houter_ok.slots
  refine hw.pinning (by simpa [Inside] using ⟨hframe_lt, henv_lt⟩) fun hw' => ?_
  generalize hlinks : ({ h with pins := h.pins ++ [some frame, some env].toArray } : Heap).rootLinks roots.get = links
  have hreach : ∀ b, b = frame ∨ b = env → Reaches h.nodes links b := by
    rintro b hb
    refine .root ?_
    rw [← hlinks]
    simp only [rootLinks, Array.toList_append, List.mem_append, List.mem_cons, Option.some.injEq]
    tauto
  refine .after (HeapM.follow_apply houter) ?_
  rcases hw'.offers hr (.fresh .environment (oneMore outer.slots)) with ⟨e, h₁, halloc⟩ | hstrays |
      ⟨h₁, a, next, halloc, hwords, hready⟩
  · exact .of_failed (HeapM.bind_error halloc)
  · exact .of_strays hstrays.bind
  rw [hlinks] at hready
  refine .after halloc ?_
  have hfits : ¬ (outer.slots < 0 ∨ outer.overruns) := by simp [houter_ok.not_overruns, h0]
  have hmore := oneMore_eq h0 (by omega)
  have hroom : outer.slots + 1 ≤ 9 := by
    simp only [Node.fresh, hmore, wordsFor, nodeWords] at hwords
    rw [oneMore_eq (by omega) (by omega)] at hwords
    omega
  have hlength : (outer.traced ++ [some frame]).length = (outer.slots + 1).toNat := by
    simp only [Node.traced, List.length_append, List.length_take, Vector.length_toList, List.length_singleton]
    omega
  have hself := getElem?_place_self hready.vacant next (.fresh .environment (oneMore outer.slots))
  rw [if_neg hfits]
  refine .after (HeapM.modify_apply _) ?_
  rw [node?, hself]
  have htraced : ((Node.fresh .environment (oneMore outer.slots)).withChildren (outer.traced ++ [some frame])).traced =
      outer.traced ++ [some frame] := by
    have := traced_withChildren .environment (outer.traced ++ [some frame])
      (by rw [hlength, maxChildren]; omega)
    rwa [hlength, show (((outer.slots + 1).toNat : Nat) : Int) = oneMore outer.slots by omega] at this
  -- the frames outside and the new one are pinned, so they are still frames
  have hframes : ∀ l ∈ outer.traced ++ [some frame], ∃ f slots, l = some f ∧ HasSlots h₁.nodes f slots := by
    intro l hl
    rcases List.mem_append.mp hl with hl | hl
    · have hsuits := houter_ok.suits
      rw [Suits, hcontent] at hsuits
      obtain ⟨f, slots, rfl, hslots⟩ := hsuits l hl
      exact ⟨f, slots, rfl, hready.preserves.frame f slots ((hreach env (.inr rfl)).child houter hl) hslots⟩
    · obtain rfl := List.mem_singleton.mp hl
      exact ⟨frame, slots, rfl, hready.preserves.frame frame slots (hreach frame (.inl rfl)) hframe⟩
  have hnode : ((Node.fresh .environment (oneMore outer.slots)).withChildren
      (outer.traced ++ [some frame])).WellFormed limit h₁.nodes := by
    refine ⟨?_, fun b hb => ?_, fun l hl => hframes l (htraced ▸ hl)⟩
    · simp only [Node.withChildren, Node.fresh, hmore]
      omega
    · obtain ⟨f, slots, hf, n, hn, -⟩ := hframes _ (htraced ▸ hb)
      exact Option.some.inj hf ▸ (Array.getElem?_eq_some_iff.mp hn).1
  have hsound : (h₁.place a next (.fresh .environment (oneMore outer.slots))).Sound :=
    hready.wellFormed.sound.place hready.free hready.vacant (by simp [Node.fresh])
  refine .of_ok (HeapM.pure_apply a) (hready.makes hnode
    (hsound.setNode hself rfl (by simp [Node.fresh]) (by simp [Node.fresh])) (by simp [setNode, place]) rfl ?_)
  refine ⟨_, Array.getElem?_setIfInBounds_self_of_lt ?_, rfl⟩
  exact (Array.getElem?_eq_some_iff.mp hself).1

/-! ## Slots -/

/-- The frame of a position. -/
theorem Names.frameAt (roots : Roots) {pos : Position} {env : Address} (hn : Names h.nodes env pos) :
    ∃ f n, HeapM.frameAt (some env) pos roots h = (.ok f, h) ∧ h.nodes[f]? = some n ∧ n.content = .frame ∧
      0 ≤ pos.slot ∧ pos.slot < n.slots := by
  obtain ⟨e, f, slots, he, -, -, hf, ⟨n, hnode, hc, rfl⟩, hpos⟩ := hn
  refine ⟨f, n, ?_, hnode, hc, hpos⟩
  rw [HeapM.frameAt, HeapM.bind_ok (HeapM.follow_apply he), hf]
  rfl

/-- A slot of a frame holds an address inside the arena. -/
theorem WellFormed.slot (hw : h.WellFormed limit) {f : Address} {n : Node} (hn : h.nodes[f]? = some n)
    (hc : n.content = .frame) {i : Int} (h0 : 0 ≤ i) (hi : i < n.slots) :
    ∃ v, n.child? i = some (some v) ∧ v < h.nodes.size := by
  have hnode := hw.nodes f n hn
  obtain ⟨l, hl, hmem⟩ := child?_traced h0 hi hnode.slots.2
  have hsuits := hnode.suits
  rw [Suits, hc] at hsuits
  obtain ⟨v, rfl⟩ := hsuits l hmem
  exact ⟨v, hl, hnode.inside v hmem⟩

theorem WellFormed.lookup (roots : Roots) (hw : h.WellFormed limit) {pos : Position} {env : Address} (hn : Names h.nodes env pos) :
    ∃ v, HeapM.lookup (some env) pos roots h = (.ok (some v), h) ∧ v < h.nodes.size := by
  obtain ⟨f, n, hframe, hnode, hc, h0, hi⟩ := Names.frameAt roots hn
  obtain ⟨v, hv, hlt⟩ := hw.slot hnode hc h0 hi
  refine ⟨v, ?_, hlt⟩
  rw [HeapM.lookup, HeapM.bind_ok hframe, HeapM.child, HeapM.bind_ok (HeapM.nodeAt_apply hnode), hv]
  rfl

/-- What writing a slot leads to. -/
structure Stores (limit : Nat) (h h' : Heap) : Prop where
  wellFormed : h'.WellFormed limit
  size : h'.nodes.size = h.nodes.size
  environment : ∀ a, IsEnvironment h.nodes a → IsEnvironment h'.nodes a
  frame : ∀ a slots, HasSlots h.nodes a slots → HasSlots h'.nodes a slots

theorem WellFormed.setChild (roots : Roots) (hw : h.WellFormed limit) {f : Address} {n : Node} (hn : h.nodes[f]? = some n)
    (hc : n.content = .frame) {i : Int} (h0 : 0 ≤ i) (hi : i < n.slots) {v : Address} (hv : v < h.nodes.size) :
    ∃ h', HeapM.setChild f i (some v) roots h = (.ok (), h') ∧ Stores limit h h' ∧ h'.pins = h.pins := by
  have hnode := hw.nodes f n hn
  have h9 := hnode.slots.2
  have hset : n.setChild? i (some v) = some { n with children := n.children.setIfInBounds i.toNat (some v) } := by
    rw [setChild?, if_pos ⟨h0, by omega⟩]
  refine ⟨h.setNode f { n with children := n.children.setIfInBounds i.toNat (some v) }, ?_,
    ⟨hw.stored hn hc hc rfl ?_, by simp [setNode], fun a ⟨m, hm, hmc⟩ => ?_, fun a slots ⟨m, hm, hmc, hms⟩ => ?_⟩, rfl⟩
  · rw [HeapM.setChild, HeapM.bind_ok (HeapM.nodeAt_apply hn), hset]
    rfl
  · intro l hl
    simp only [traced, Vector.toList_setIfInBounds, List.take_set] at hl
    rcases List.mem_or_eq_of_mem_set hl with hl | rfl
    · have hsuits := hnode.suits
      rw [Suits, hc] at hsuits
      obtain ⟨w, rfl⟩ := hsuits l hl
      exact ⟨w, rfl, hnode.inside w hl⟩
    · exact ⟨v, rfl, hv⟩
  · have hne : f ≠ a := by
      rintro rfl
      obtain rfl := Option.some.inj (hn.symm.trans hm)
      simp [hc] at hmc
    exact ⟨m, by rw [setNode, Array.getElem?_setIfInBounds_ne hne, hm], hmc⟩
  · by_cases hfa : f = a
    · subst hfa
      obtain rfl := Option.some.inj (hn.symm.trans hm)
      exact ⟨_, Array.getElem?_setIfInBounds_self_of_lt (Array.getElem?_eq_some_iff.mp hn).1, hmc, hms⟩
    · exact ⟨m, by rw [setNode, Array.getElem?_setIfInBounds_ne hfa, hm], hmc, hms⟩

theorem WellFormed.store (roots : Roots) (hw : h.WellFormed limit) {pos : Position} {env : Address} (hn : Names h.nodes env pos)
    {v : Address} (hv : v < h.nodes.size) :
    ∃ h', HeapM.store (some env) pos (some v) roots h = (.ok (), h') ∧ Stores limit h h' := by
  obtain ⟨f, n, hframe, hnode, hc, h0, hi⟩ := Names.frameAt roots hn
  obtain ⟨h', hset, hstores, -⟩ := hw.setChild roots hnode hc h0 hi hv
  exact ⟨h', by rw [HeapM.store, HeapM.bind_ok hframe, hset], hstores⟩

end Heap

end Tenure
