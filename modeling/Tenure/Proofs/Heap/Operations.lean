import Tenure.Heap.Host
import Tenure.Proofs.Heap.Collection
import Tenure.Proofs.Heap.Create
import Tenure.Proofs.Machine.Arena
import Tenure.Proofs.Safety.Operations

/-!
# The representation of the heap

An operation leaves a heap in order behind if it finds one, `Heap.Orderly`, whether it succeeds or fails, and the pins
are what they were. A collection may come in the middle of an operation; what the operation still needs is pinned or
hangs on something that is, so it is spared: `Heap.Spares`. A heap that has an address for every node and arises from a
new one by operations whose arguments are allocated is therefore consistent throughout: `Heap.Arises.represented`. With
more nodes than addresses the free list may lead an operation out of the arena: `HeapM.Strays`.

The count of slots or frames that an operation is asked for has to stay below the largest 64-bit integer. For the
largest one the size of the node wraps around and passes the limit of sizes: `Heap.environment_overruns`.
-/

set_option autoImplicit false

namespace Tenure

namespace HeapM

variable {α β : Type} {roots : Roots} {h : Heap}

/-- An operation gives a result or fails, but does not crash; either way a condition holds of what it gives and of the
heap that it leaves. -/
def Settles (act : HeapM α) (roots : Roots) (h : Heap) (post : Option α → Heap → Prop) : Prop :=
  (∃ a h', act roots h = (.ok a, h') ∧ post (some a) h') ∨ ∃ e h', act roots h = (.error (.failed e), h') ∧ post none h'

theorem Settles.alive {act : HeapM α} {post : Option α → Heap → Prop} (hact : act.Settles roots h post) (h' : Heap) :
    act roots h ≠ (.error .crashed, h') := by
  obtain ⟨a, h'', hrun, -⟩ | ⟨e, h'', hrun, -⟩ := hact <;> rw [hrun] <;> rintro ⟨⟩

/-- What holds of the heap however the operation ends. -/
theorem Settles.left {act : HeapM α} {p : Heap → Prop} (hact : act.Settles roots h fun _ => p) : p (act roots h).2 := by
  obtain ⟨a, h', hrun, hp⟩ | ⟨e, h', hrun, hp⟩ := hact <;> rw [hrun] <;> exact hp

/-- An operation gives a result or fails, as long as the free list does not lead it out of the arena. -/
def Leads (act : HeapM α) (roots : Roots) (h : Heap) (post : Option α → Heap → Prop) : Prop :=
  act.Strays roots h ∨ act.Settles roots h post

namespace Leads

variable {act : HeapM α} {f : α → HeapM β} {post post' : Option α → Heap → Prop}

theorem of_strays (hact : act.Strays roots h) : act.Leads roots h post := .inl hact

theorem of_ok {a : α} {h' : Heap} (hact : act roots h = (.ok a, h')) (hpost : post (some a) h') :
    act.Leads roots h post := .inr (.inl ⟨a, h', hact, hpost⟩)

theorem of_failed {e : HeapError} {h' : Heap} (hact : act roots h = (.error (.failed e), h')) (hpost : post none h') :
    act.Leads roots h post := .inr (.inr ⟨e, h', hact, hpost⟩)

/-- An operation cannot be led out of an arena that has an address for every node. -/
theorem settles (hact : act.Leads roots h post) (hsize : (act roots h).2.capacity = h.capacity)
    (hfew : h.capacity ≤ Heap.addressable) : act.Settles roots h post := by
  refine hact.resolve_left fun ⟨h', hrun, hmany⟩ => ?_
  rw [hrun] at hsize
  exact absurd (hsize.trans_le hfew) (Nat.not_le.mpr hmany)

theorem imp (hact : act.Leads roots h post) (himp : ∀ r h', post r h' → post' r h') : act.Leads roots h post' := by
  obtain hstrays | ⟨a, h', hrun, hpost⟩ | ⟨e, h', hrun, hpost⟩ := hact
  · exact .of_strays hstrays
  · exact .of_ok hrun (himp _ _ hpost)
  · exact .of_failed hrun (himp _ _ hpost)

theorem bind {post' : Option β → Heap → Prop} (hact : act.Leads roots h post)
    (hnone : ∀ h', post none h' → post' none h') (hf : ∀ a h', post (some a) h' → (f a).Leads roots h' post') :
    (act >>= f).Leads roots h post' := by
  obtain hstrays | ⟨a, h', hrun, hpost⟩ | ⟨e, h', hrun, hpost⟩ := hact
  · exact .of_strays hstrays.bind
  · obtain hstrays | ⟨b, h'', hrest, hpost'⟩ | ⟨e, h'', hrest, hpost'⟩ := hf a h' hpost
    · exact .of_strays (hstrays.after hrun)
    · exact .of_ok ((bind_ok hrun).trans hrest) hpost'
    · exact .of_failed ((bind_ok hrun).trans hrest) hpost'
  · exact .of_failed (bind_error hrun) (hnone h' hpost)

theorem pinning {links : List Link}
    (hact : act.Leads roots { h with pins := h.pins ++ links.toArray }
      fun r h' => post r { h' with pins := h'.pins.extract 0 h.pins.size }) :
    (HeapM.pinning links act).Leads roots h post := by
  obtain hstrays | ⟨a, h', hrun, hpost⟩ | ⟨e, h', hrun, hpost⟩ := hact
  · exact .of_strays hstrays.pinning
  · exact .of_ok (by rw [HeapM.pinning, hrun]) hpost
  · exact .of_failed (by rw [HeapM.pinning, hrun]) hpost

/-- An operation that is not led out of the arena may as well be unpinned in any case. -/
theorem holding {links : List Link} {post : Option α → Heap → Prop} {post' : Option α → Heap → Prop}
    (hact : act.Leads roots { h with pins := h.pins ++ links.toArray } post')
    (hpinning : (HeapM.pinning links act).Leads roots h post) : (HeapM.holding links act).Leads roots h post := by
  obtain ⟨h', hrun, hmany⟩ | hends := hact
  · exact .of_strays ⟨h', by rw [HeapM.holding, hrun], hmany⟩
  · have heq : HeapM.holding links act roots h = HeapM.pinning links act roots h := by
      obtain ⟨a, h', hrun, -⟩ | ⟨e, h', hrun, -⟩ := hends
      · rw [HeapM.holding, HeapM.pinning, hrun]
      · rw [HeapM.holding, HeapM.pinning, hrun]
    rwa [Leads, Strays, Settles, heq]

end Leads

end HeapM

namespace Heap

variable {h h' h₁ h₂ : Heap} {roots : Roots} {a : Address} {n node : Node} {next : Link} {links : List Link}

/-! ## Changes that keep a heap consistent -/

theorem FreeList.congr {nodes nodes' : Array Node} {stop link : Link} {l : List Address}
    (hl : FreeList nodes stop link l) (hn : ∀ a ∈ l, nodes'[a]? = nodes[a]?) : FreeList nodes' stop link l := by
  induction hl with
  | nil => exact .nil
  | @cons b n rest hb hkind _ ih =>
    exact .cons ((hn b (by simp)).trans hb) hkind (ih fun a ha => hn a (by simp [ha]))

theorem Holds.mono {links' : List Link} (hl : h.Holds links) (hsub : ∀ l ∈ links', l ∈ links) : h.Holds links' :=
  fun a ha => hl a (hsub _ ha)

/-- A heap as operations find it and leave it, its pool included. Only with an address for every node does the free list
hold all nodes that are not allocated. -/
structure Orderly (h : Heap) : Prop where
  tidy : h.Tidy
  sound : h.Sound
  slots : ∀ (a : Address) (n : Node), h.nodes[a]? = some n → 0 ≤ n.slots
  listed : h.capacity ≤ addressable → h.Listed

theorem Orderly.consistent (ho : h.Orderly) (hfew : h.capacity ≤ addressable) : h.Consistent :=
  ⟨ho.tidy, hfew, ho.listed hfew⟩

theorem Tidy.with_pool (ht : h.Tidy) (pool : Std.HashMap UInt64 (List Address)) :
    ({ h with pool := pool } : Heap).Tidy :=
  ⟨ht.size, ht.clear, ht.permanent, ht.children, ht.pins, ht.counted⟩

theorem Consistent.with_pool (hc : h.Consistent) (pool : Std.HashMap UInt64 (List Address)) :
    ({ h with pool := pool } : Heap).Consistent :=
  ⟨hc.toTidy.with_pool pool, hc.addresses, hc.free⟩

theorem Orderly.with_pins (ho : h.Orderly) {pins : Array Link} (hp : h.Holds pins.toList) :
    ({ h with pins := pins } : Heap).Orderly where
  tidy := { ho.tidy with pins := hp }
  sound := ⟨ho.sound.size, ho.sound.clear, ho.sound.free, ho.sound.pooled.congr rfl rfl rfl⟩
  slots := ho.slots
  listed := ho.listed

theorem isAllocated_place (hn : h.nodes[a]? = some n) (hcontent : node.content ≠ .free) (b : Address) :
    (h.place a next node).isAllocated b = true ↔ b = a ∨ h.isAllocated b = true := by
  by_cases hba : b = a
  · subst hba
    simpa using isAllocated_iff.mpr ⟨node, getElem?_place_self hn next node, hcontent⟩
  · rw [isAllocated_congr (getElem?_place_ne hba h next node)]
    simp [hba]

theorem population_place (hn : h.nodes[a]? = some n) (hvacant : h.isAllocated a = false)
    (hcontent : node.content ≠ .free) : (h.place a next node).population = h.population + 1 := by
  have hset : {b | (h.place a next node).isAllocated b = true} = insert a {b | h.isAllocated b = true} := by
    ext b
    exact isAllocated_place hn hcontent b
  have hnew : a ∉ {b | h.isAllocated b = true} := by
    rw [Set.mem_ofPred_eq, hvacant]
    exact Bool.false_ne_true
  rw [population, hset, Set.ncard_insert_of_notMem hnew h.finite_allocated, population]

/-- The first node of the free list is not allocated. -/
theorem Listed.first (hl : h.Listed) (hf : h.free = some a) :
    ∃ n, h.nodes[a]? = some n ∧ n.content = .free ∧ h.isAllocated a = false := by
  obtain ⟨l, hl, -, hmem⟩ := hl
  rw [hf] at hl
  cases hl with
  | @cons _ n rest hn _ _ =>
    have hvacant := ((hmem a).mp (by simp)).2
    refine ⟨n, hn, ?_, hvacant⟩
    by_contra hcontent
    rw [isAllocated_iff.mpr ⟨n, hn, hcontent⟩] at hvacant
    cases hvacant

/-- The free list without its first node is the free list once that node is given out. -/
theorem Listed.place (hl : h.Listed) (hf : h.free = some a) (hn : h.nodes[a]? = some n) (hcontent : node.content ≠ .free) :
    (h.place a n.next node).Listed := by
  have hcapacity : (h.place a n.next node).capacity = h.capacity := by simp [capacity, Heap.place]
  obtain ⟨l, hl, hnodup, hmem⟩ := hl
  rw [hf] at hl
  cases hl with
  | @cons _ m rest hm _ hrest =>
    obtain rfl := Option.some.inj (hn.symm.trans hm)
    obtain ⟨hnot, hnodup'⟩ := List.nodup_cons.mp hnodup
    have hne : ∀ b ∈ rest, b ≠ a := fun b hb hba => hnot (hba ▸ hb)
    refine ⟨rest, hrest.congr fun b hb => getElem?_place_ne (hne b hb) h _ node, hnodup', fun b => ?_⟩
    rw [hcapacity, ← Bool.not_eq_true, isAllocated_place hn hcontent, not_or, Bool.not_eq_true]
    constructor
    · intro hb
      obtain ⟨hlt, hfree⟩ := (hmem b).mp (by simp [hb])
      exact ⟨hlt, hne b hb, hfree⟩
    · rintro ⟨hlt, hba, hfree⟩
      exact (List.mem_cons.mp ((hmem b).mpr ⟨hlt, hfree⟩)).resolve_left hba

/-- A heap stays tidy when a node over allocated children is given out. -/
theorem Tidy.place (ht : h.Tidy) (hn : h.nodes[a]? = some n) (hvacant : h.isAllocated a = false)
    (hcontent : node.content ≠ .free) (hover : node.overruns = false) (hheld : h.Holds node.traced) :
    (h.place a next node).Tidy := by
  have hholds : ∀ {links : List Link}, h.Holds links → (h.place a next node).Holds links := fun hl b hb =>
    (isAllocated_place hn hcontent b).mpr (.inr (hl b hb))
  refine ⟨?_, fun b => ?_, fun b hb => ?_, fun b m hm hmc => ?_, hholds ht.pins, ?_⟩
  · simpa [Heap.place, capacity] using ht.size
  · simp only [Heap.place, Array.getElem?_setIfInBounds]
    split
    · split <;> simp
    · exact ht.clear b
  · obtain ⟨m, hm, hmc⟩ := ht.permanent b hb
    have hba : b ≠ a := by
      rintro rfl
      rw [ht.permanent_allocated hb] at hvacant
      cases hvacant
    exact ⟨m, (getElem?_place_ne hba h next node).trans hm, hmc⟩
  · rcases getElem?_place_cases hn next node hm with rfl | hold
    · exact ⟨hover, hholds hheld⟩
    · obtain ⟨hover', hheld'⟩ := ht.children b m hold hmc
      exact ⟨hover', hholds hheld'⟩
  · rw [population_place hn hvacant hcontent]
    change h.stats.allocations + 1 = h.stats.freed + (h.population + 1)
    rw [ht.counted]
    omega

/-- A heap stays consistent when a node over allocated children is given out. -/
theorem Consistent.place (hc : h.Consistent) (hf : h.free = some a) (hn : h.nodes[a]? = some n)
    (hcontent : node.content ≠ .free) (hover : node.overruns = false) (hheld : h.Holds node.traced) :
    (h.place a n.next node).Consistent := by
  obtain ⟨-, -, -, hvacant⟩ := hc.free.first hf
  refine ⟨hc.toTidy.place hn hvacant hcontent hover hheld, ?_, hc.free.place hf hn hcontent⟩
  simpa [capacity, Heap.place] using hc.addresses

/-- A heap stays in order when an allocated node that is no string gets other children that are allocated. -/
theorem Orderly.setNode (ho : h.Orderly) (hn : h.nodes[a]? = some n) (hfree : n.content ≠ .free)
    (hstring : ∀ t, n.content ≠ .string t) (hcontent : node.content = n.content) (hslots : node.slots = n.slots)
    (hheld : h.Holds node.traced) : (h.setNode a node).Orderly := by
  have hlt : a < h.nodes.size := (Array.getElem?_eq_some_iff.mp hn).1
  have hself : (h.setNode a node).nodes[a]? = some node := Array.getElem?_setIfInBounds_self_of_lt hlt
  have hother : ∀ b : Address, b ≠ a → (h.setNode a node).nodes[b]? = h.nodes[b]? := fun b hne =>
    Array.getElem?_setIfInBounds_ne (Ne.symm hne)
  have hcapacity : (h.setNode a node).capacity = h.capacity := by simp [capacity, Heap.setNode]
  have halloc : ∀ b, (h.setNode a node).isAllocated b = h.isAllocated b := by
    intro b
    by_cases hba : b = a
    · subst hba
      rw [isAllocated_iff.mpr ⟨n, hn, hfree⟩, isAllocated_iff.mpr ⟨node, hself, hcontent ▸ hfree⟩]
    · exact isAllocated_congr (hother b hba)
  have hholds : ∀ {links : List Link}, h.Holds links → (h.setNode a node).Holds links := fun hl b hb =>
    (halloc b).trans (hl b hb)
  have hsound : (h.setNode a node).Sound := ho.sound.setNode hn hcontent hfree hstring
  have hchange : ∀ (b : Address) (m : Node), (h.setNode a node).nodes[b]? = some m →
      b = a ∧ m = node ∨ h.nodes[b]? = some m := by
    intro b m hm
    by_cases hba : b = a
    · subst hba
      exact .inl ⟨rfl, Option.some.inj (hm.symm.trans hself)⟩
    · exact .inr ((hother b hba).symm.trans hm)
  refine ⟨⟨hsound.size, hsound.clear, fun b hb => ?_, fun b m hm hmc => ?_, hholds ho.tidy.pins, ?_⟩, hsound,
    fun b m hm => ?_, fun hfew => ?_⟩
  · obtain ⟨m, hm, hmc⟩ := ho.tidy.permanent b hb
    by_cases hba : b = a
    · subst hba
      obtain rfl := Option.some.inj (hn.symm.trans hm)
      exact ⟨node, hself, hcontent.trans hmc⟩
    · exact ⟨m, (hother b hba).trans hm, hmc⟩
  · rcases hchange b m hm with ⟨rfl, rfl⟩ | hold
    · exact ⟨by rw [Node.overruns, hslots]; exact (ho.tidy.children b n hn hfree).1, hholds hheld⟩
    · obtain ⟨hover, hheld'⟩ := ho.tidy.children b m hold hmc
      exact ⟨hover, hholds hheld'⟩
  · have hpopulation : (h.setNode a node).population = h.population := by simp only [population, halloc]
    rw [hpopulation]
    exact ho.tidy.counted
  · rcases hchange b m hm with ⟨rfl, rfl⟩ | hold
    · exact hslots ▸ ho.slots b n hn
    · exact ho.slots b m hold
  · obtain ⟨l, hl, hnodup, hmem⟩ := ho.listed (hcapacity ▸ hfew)
    refine ⟨l, hl.congr fun b hb => hother b ?_, hnodup, fun b => by rw [hmem, hcapacity, halloc]⟩
    rintro rfl
    have hdropped := ((hmem b).mp hb).2
    rw [isAllocated_iff.mpr ⟨n, hn, hfree⟩] at hdropped
    cases hdropped

/-! ## What operations spare -/

/-- A heap in order in which whatever could be reached before is as it was. -/
structure Spares (roots : List Link) (h h' : Heap) : Prop where
  orderly : h'.Orderly
  capacity : h'.capacity = h.capacity
  pins : h'.pins = h.pins
  kept : ∀ a, Reaches h.nodes (h.rootLinks roots) a → h'.nodes[a]? = h.nodes[a]?

/-- What an operation that makes a node leads to: its result, if there is one, is allocated. -/
structure Made (roots : List Link) (h : Heap) (result : Option Address) (h' : Heap) : Prop extends
    Spares roots h h' where
  allocated : ∀ a ∈ result, h'.isAllocated a = true

namespace Spares

variable {held : List Link}

theorem refl (ho : h.Orderly) : Spares held h h := ⟨ho, rfl, rfl, fun _ _ => rfl⟩

theorem made_none (hs : Spares held h h') : Made held h none h' := ⟨hs, by simp⟩

theorem rootLinks (hs : Spares held h h') : h'.rootLinks held = h.rootLinks held := by
  rw [Heap.rootLinks, hs.pins, Heap.rootLinks]

theorem reaches (hs : Spares held h h') (ha : Reaches h.nodes (h.rootLinks held) a) :
    Reaches h'.nodes (h'.rootLinks held) a := by
  rw [hs.rootLinks]
  exact ha.kept hs.kept

theorem trans (hs : Spares held h h₁) (hs' : Spares held h₁ h₂) : Spares held h h₂ :=
  ⟨hs'.orderly, hs'.capacity.trans hs.capacity, hs'.pins.trans hs.pins, fun a ha =>
    (hs'.kept a (hs.reaches ha)).trans (hs.kept a ha)⟩

theorem isAllocated (hs : Spares held h h') (ht : h.Tidy) (hr : h.Holds held)
    (ha : Reaches h.nodes (h.rootLinks held) a) : h'.isAllocated a = true := by
  rw [isAllocated_congr (hs.kept a ha)]
  exact ht.reaches_allocated hr ha

/-- The roots of whoever uses the heap are still allocated. -/
theorem holds (hs : Spares held h h') (ht : h.Tidy) (hr : h.Holds held) : h'.Holds held := fun a ha =>
  hs.isAllocated ht hr (.root (by simp [Heap.rootLinks, ha]))

theorem made_trans {r : Option Address} (hs : Spares held h h₁) (hm : Made held h₁ r h₂) : Made held h r h₂ :=
  ⟨hs.trans hm.toSpares, hm.allocated⟩

end Spares

/-- A heap in order that is about to give out a node. -/
structure Offered (roots : List Link) (h h₁ : Heap) (a : Address) (next : Link) : Prop extends
    Spares roots h h₁ where
  strings : ∀ b t, IsString h₁.nodes b t → IsString h.nodes b t
  free : h₁.free = some a
  vacant : h₁.nodes[a]? = some (.vacant next)
  unreached : ¬ Reaches h.nodes (h.rootLinks roots) a

/-- A collection keeps a heap in order. -/
theorem Orderly.collect {held : List Link} (ho : h.Orderly) (hfew : h.capacity ≤ addressable) (hr : h.Holds held) :
    ∃ freed h', h.collect held = (some freed, h') ∧ Spares held h h' ∧ Collected held h h' := by
  obtain ⟨h', hcollect, hcollects⟩ := (ho.consistent hfew).collect hr
  obtain ⟨freed, h'', hcollect', hcollected⟩ := collect_spec hfew ho.sound (ho.tidy.intact hr).traceable
  obtain ⟨-, rfl⟩ := Prod.ext_iff.mp (hcollect.symm.trans hcollect')
  refine ⟨_, h', hcollect, ⟨⟨hcollects.consistent.toTidy, hcollected.sound, fun a n hn => ?_, fun _ =>
    hcollects.consistent.free⟩, hcollected.size, hcollected.pins, hcollected.kept⟩, hcollected⟩
  by_cases ha : Reaches h.nodes (h.rootLinks held) a
  · exact ho.slots a n ((hcollected.kept a ha).symm.trans hn)
  · obtain ⟨next, hnext⟩ := hcollects.cleared.vacant (hcollected.size ▸ (Array.getElem?_eq_some_iff.mp hn).1) ha
    obtain rfl := Option.some.inj (hn.symm.trans hnext)
    exact Int.le_refl 0

/-- An allocation fails on a heap in order, strays, or puts the node where such a heap has room for it. -/
theorem Orderly.offers (ho : h.Orderly) (hr : h.Holds roots.get) (node : Node) :
    (∃ e h₁, HeapM.allocate node roots h = (.error (.failed e), h₁) ∧ Spares roots.get h h₁) ∨
      (HeapM.allocate node).Strays roots h ∨
      ∃ h₁ a next, HeapM.allocate node roots h = (.ok a, h₁.place a next node) ∧ wordsFor node.slots ≤ nodeWords ∧
        Offered roots.get h h₁ a next := by
  by_cases hwords : (nodeWords : Int) < wordsFor node.slots
  · exact .inl ⟨.tooLarge, h, by simp only [HeapM.allocate, if_pos hwords]; rfl, .refl ho⟩
  have hw := Int.not_lt.mp hwords
  cases hf : h.free with
  | some a =>
    rcases ho.sound.free_cases hf with ⟨next, hn⟩ | ⟨hmany, ha⟩
    · refine .inr (.inr ⟨h, a, next, ?_, hw, .refl ho, fun _ _ hb => hb, hf, hn, (ho.tidy.intact hr).not_vacant hn⟩)
      rw [allocate_of_free hw hf, HeapM.take, take?_eq hf hn]
    · exact .inr (.inl ⟨h, by rw [allocate_of_free hw hf, take_of_outside hf ha], hmany⟩)
  | none =>
    obtain ⟨freed, h', hcollect, hspares, hcollected⟩ := ho.collect (ho.sound.few_of_empty hf) hr
    have halloc : HeapM.allocate node roots h = HeapM.take node roots h' := allocate_of_collect hw hf hcollect
    obtain ⟨l, hl, hmem⟩ := hcollected.chain
    cases hf' : h'.free with
    | none => exact .inl ⟨.exhausted, h', by rw [halloc, take_of_empty hf'], hspares⟩
    | some a =>
      rw [hf'] at hl
      cases hl with
      | @cons _ next rest hn _ =>
        refine .inr (.inr ⟨h', a, next, ?_, hw, hspares, hcollected.strings, hf', hn, ((hmem a).mp (by simp)).2⟩)
        rw [halloc, HeapM.take, take?_eq hf' hn]

/-- A node over children that could be reached, in the place that was offered for it. -/
theorem Offered.made {held : List Link} (hoffer : Offered held h h₁ a next) (ht : h.Tidy) (hr : h.Holds held)
    (hcontent : node.content ≠ .free) (hslots : 0 ≤ node.slots ∧ node.slots ≤ 9)
    (hlinks : ∀ b, some b ∈ node.traced → Reaches h.nodes (h.rootLinks held) b)
    (pool : Std.HashMap UInt64 (List Address)) (hs : ({ h₁.place a next node with pool := pool } : Heap).Sound) :
    Made held h (some a) { h₁.place a next node with pool := pool } := by
  have htidy : (h₁.place a next node).Tidy :=
    hoffer.orderly.tidy.place hoffer.vacant (isAllocated_vacant hoffer.vacant) hcontent
      (decide_eq_false (Int.not_lt.mpr hslots.2)) fun b hb => hoffer.isAllocated ht hr (hlinks b hb)
  have hcapacity : (h₁.place a next node).capacity = h₁.capacity := by simp [Heap.capacity, place]
  refine ⟨⟨⟨htidy.with_pool pool, hs, fun b m hm => ?_, fun hfew => ?_⟩, hcapacity.trans hoffer.capacity, hoffer.pins,
    fun b hb => ?_⟩, ?_⟩
  · rcases getElem?_place_cases hoffer.vacant next node hm with rfl | hold
    · exact hslots.1
    · exact hoffer.orderly.slots b m hold
  · exact (hoffer.orderly.listed (hcapacity ▸ hfew)).place hoffer.free hoffer.vacant hcontent
  · have hba : b ≠ a := by
      rintro rfl
      exact hoffer.unreached hb
    exact (getElem?_place_ne hba h₁ next node).trans (hoffer.kept b hb)
  · rintro b ⟨⟩
    show (h₁.place a next node).isAllocated a = true
    exact (isAllocated_place hoffer.vacant hcontent a).mpr (.inl rfl)

/-! ## Operations that make nodes -/

/-- The largest number of children that a node can be asked for without its size wrapping around. -/
theorem slots_le_of_words {slots : Int} (h0 : 0 ≤ slots) (hlt : slots < 0x7fffffffffffffff)
    (hw : wordsFor slots ≤ nodeWords) : slots ≤ 9 := by
  rw [wordsFor, oneMore, Int.bmod_def, nodeWords] at hw
  omega

/-- Allocation of a node whose children can be reached. -/
theorem Orderly.allocate (ho : h.Orderly) (hr : h.Holds roots.get) (hfree : node.content ≠ .free)
    (hstring : ∀ t, node.content ≠ .string t) (hslots : 0 ≤ node.slots ∧ node.slots < 0x7fffffffffffffff)
    (hlinks : ∀ b, some b ∈ node.traced → Reaches h.nodes (h.rootLinks roots.get) b) :
    (HeapM.allocate node).Leads roots h (Made roots.get h) := by
  rcases ho.offers hr node with ⟨e, h₁, hrun, hspares⟩ | hstrays | ⟨h₁, a, next, hrun, hw, hoffer⟩
  · exact .of_failed hrun hspares.made_none
  · exact .of_strays hstrays
  · exact .of_ok hrun (hoffer.made ho.tidy hr hfree ⟨hslots.1, slots_le_of_words hslots.1 hslots.2 hw⟩ hlinks _
      (hoffer.orderly.sound.place hoffer.free hoffer.vacant hstring))

/-- Allocation of a node without children. -/
theorem Orderly.leaf (ho : h.Orderly) (hr : h.Holds roots.get) {content : Content} (hfree : content ≠ .free)
    (hstring : ∀ t, content ≠ .string t) :
    (HeapM.allocate (.fresh content 0)).Leads roots h (Made roots.get h) :=
  ho.allocate hr hfree hstring (by simp [Node.fresh]) (by simp [Node.fresh, Node.traced])

/-- An operation with links pinned meanwhile spares what hangs on them. -/
theorem Orderly.pinning (ho : h.Orderly) (hr : h.Holds roots.get) (hl : h.Holds links) {act : HeapM Address}
    (hact : ({ h with pins := h.pins ++ links.toArray } : Heap).Orderly →
      act.Leads roots { h with pins := h.pins ++ links.toArray }
        (Made roots.get { h with pins := h.pins ++ links.toArray })) :
    (HeapM.pinning links act).Leads roots h fun r h' => Made roots.get h r h' ∧ h'.Holds links := by
  have hpinned : ({ h with pins := h.pins ++ links.toArray } : Heap).Orderly :=
    ho.with_pins (by simpa using Holds.append ho.tidy.pins hl)
  refine .pinning ((hact hpinned).imp fun r h' hm => ?_)
  have hpins : h'.pins.extract 0 h.pins.size = h.pins := by
    rw [hm.pins]
    simp
  have hmore : ∀ {a}, Reaches h.nodes (h.rootLinks roots.get) a →
      Reaches h.nodes (({ h with pins := h.pins ++ links.toArray } : Heap).rootLinks roots.get) a := fun ha =>
    ha.mono fun l hl => by
      simp only [rootLinks, Array.toList_append, List.mem_append] at hl ⊢
      tauto
  refine ⟨⟨⟨hm.orderly.with_pins ?_, hm.capacity, hpins, fun a ha => hm.kept a (hmore ha)⟩, hm.allocated⟩,
    fun a ha => ?_⟩
  · refine hm.orderly.tidy.pins.mono fun l hl => ?_
    rw [hpins] at hl
    rw [hm.pins]
    simp [hl]
  · refine hm.isAllocated hpinned.tidy hr (.root ?_)
    simp [rootLinks, ha]

/-- Allocation of a node over links that are pinned meanwhile. -/
theorem Orderly.allocateOver (ho : h.Orderly) (hr : h.Holds roots.get) (hl : h.Holds links) {content : Content}
    (hfree : content ≠ .free) (hstring : ∀ t, content ≠ .string t) (hroom : links.length ≤ 9) :
    (HeapM.allocateOver content links.length links).Leads roots h (Made roots.get h) := by
  refine (ho.pinning hr hl fun hp => ?_).imp fun r h' hm => hm.1
  refine hp.allocate hr hfree hstring ⟨Int.natCast_nonneg _, ?_⟩ fun b hb => .root ?_
  · change (links.length : Int) < 0x7fffffffffffffff
    omega
  · rw [Node.traced_withChildren content links hroom] at hb
    simp [rootLinks, hb]

/-- The node of a text is there already or is made. -/
theorem Orderly.string (ho : h.Orderly) (hr : h.Holds roots.get) (t : Text) :
    (HeapM.string t).Leads roots h (Made roots.get h) := by
  cases hfind : h.findText? t with
  | some a =>
    obtain ⟨n, hn, hc⟩ := ho.sound.pooled.isString_of_findText? hfind
    have hrun : HeapM.string t roots h = (.ok a, h) := by simp [HeapM.string, hfind]
    refine .of_ok hrun ⟨.refl ho, ?_⟩
    rintro _ ⟨⟩
    exact isAllocated_iff.mpr ⟨n, hn, by simp [hc]⟩
  | none =>
    have hrun : HeapM.string t roots h = (HeapM.allocate (.fresh (.string t) 0) >>= fun a => do
        modify fun h => h.remember t a
        pure a) roots h := by simp [HeapM.string, hfind]
    rcases ho.offers hr (.fresh (.string t) 0) with ⟨e, h₁, halloc, hspares⟩ | ⟨h₁, halloc, hmany⟩ |
        ⟨h₁, a, next, halloc, -, hoffer⟩
    · exact .of_failed (hrun.trans (HeapM.bind_error halloc)) hspares.made_none
    · exact .of_strays ⟨h₁, hrun.trans (HeapM.bind_error halloc), hmany⟩
    · refine .of_ok (hrun.trans (HeapM.bind_ok halloc)) ?_
      exact hoffer.made ho.tidy hr (by simp [Node.fresh]) (by simp [Node.fresh])
        (by simp [Node.fresh, Node.traced]) _ (hoffer.orderly.sound.place_string hoffer.free hoffer.vacant fun b hb =>
          ho.sound.pooled.findText?_none hfind b (hoffer.strings b t hb))

/-- A frame with unassigned slots. -/
theorem Orderly.frame (ho : h.Orderly) (hr : h.Holds roots.get) {slots : Int} (h0 : 0 ≤ slots)
    (hlt : slots < 0x7fffffffffffffff) : (HeapM.frame slots).Leads roots h (Made roots.get h) := by
  generalize hnode : (Node.fresh .frame slots).withChildren
    (List.replicate (min slots.toNat maxChildren) (some Heap.unassigned)) = node
  have hcontent : node.content = .frame := by rw [← hnode]; rfl
  have hslots : node.slots = slots := by rw [← hnode]; rfl
  have hframe : HeapM.frame slots = HeapM.allocate node >>= fun a => if node.overruns then HeapM.crash else pure a := by
    rw [HeapM.frame, hnode]
  rw [hframe]
  rcases ho.offers hr node with ⟨e, h₁, hrun, hspares⟩ | hstrays | ⟨h₁, a, next, hrun, hw, hoffer⟩
  · exact .of_failed (HeapM.bind_error hrun) hspares.made_none
  · exact .of_strays hstrays.bind
  have h9 : slots ≤ 9 := slots_le_of_words h0 hlt (hslots ▸ hw)
  have hover : node.overruns = false := decide_eq_false (Int.not_lt.mpr (hslots ▸ h9))
  have htraced : node.traced = List.replicate slots.toNat (some Heap.unassigned) := by
    obtain ⟨k, rfl⟩ := Int.eq_ofNat_of_zero_le h0
    have hmin : min (k : Int).toNat maxChildren = k := Nat.min_eq_left (by rw [maxChildren]; omega)
    have := Node.traced_withChildren .frame (List.replicate k (some Heap.unassigned)) (by simp [maxChildren]; omega)
    rw [← hnode, hmin]
    simpa using this
  have hgiven : (if node.overruns then HeapM.crash else pure a : HeapM Address) roots (h₁.place a next node) =
      (.ok a, h₁.place a next node) := by
    rw [hover]
    rfl
  have hs : (h₁.place a next node).Sound :=
    hoffer.orderly.sound.place hoffer.free hoffer.vacant (by simp [hcontent])
  refine .of_ok ((HeapM.bind_ok hrun).trans hgiven) (hoffer.made ho.tidy hr (by simp [hcontent])
    ⟨hslots ▸ h0, hslots ▸ h9⟩ (fun b hb => ?_) _ hs)
  obtain rfl : b = Heap.unassigned := by
    rw [htraced] at hb
    exact Option.some.inj (List.eq_of_mem_replicate hb)
  exact reaches_permanent h _ (by decide)

theorem Orderly.environment (ho : h.Orderly) (hr : h.Holds roots.get) {frames : Int} (h0 : 0 ≤ frames)
    (hlt : frames < 0x7fffffffffffffff) : (HeapM.environment frames).Leads roots h (Made roots.get h) := by
  refine ho.allocate hr (by simp [Node.fresh]) (by simp [Node.fresh]) ⟨h0, hlt⟩ fun b hb => ?_
  have hnone : some b ∈ Node.noChildren.toList := List.mem_of_mem_take hb
  simp [Node.noChildren] at hnone

theorem setNode_place (h : Heap) (a : Address) (next : Link) (node node' : Node) :
    (h.place a next node).setNode a node' = h.place a next node' := by
  simp [Heap.setNode, place]

/-- An environment with one more frame inside it. -/
theorem Orderly.extend (ho : h.Orderly) (hr : h.Holds roots.get) {frame : Link} (hframe : h.Holds [frame])
    {env : Address} (henv : h.nodes[env]? = some n) (hcontent : n.content = .environment) :
    (HeapM.extend frame (some env)).Leads roots h (Made roots.get h) := by
  have halloc : h.isAllocated env = true := isAllocated_iff.mpr ⟨n, henv, by simp [hcontent]⟩
  have hl : h.Holds [frame, some env] := Holds.append hframe (fun a ha => by simp_all)
  refine (ho.pinning hr hl fun hp => ?_).imp fun r h' hm => hm.1
  have hpin : ∀ b, some b = frame ∨ b = env → Reaches h.nodes
      (({ h with pins := h.pins ++ [frame, some env].toArray } : Heap).rootLinks roots.get) b := fun b hb => by
    refine .root ?_
    simp only [rootLinks, Array.toList_append, List.mem_append, List.mem_cons, Option.some.injEq]
    tauto
  have h0 : 0 ≤ n.slots := ho.slots env n henv
  have hover : n.overruns = false := (ho.tidy.children env n henv (by simp [hcontent])).1
  have h9 : n.slots ≤ 9 := Int.not_lt.mp (of_decide_eq_false hover)
  have hmore := oneMore_eq h0 (by omega)
  have hlength : (n.traced ++ [frame]).length = (n.slots + 1).toNat := by
    simp only [Node.traced, List.length_append, List.length_take, Vector.length_toList, List.length_singleton]
    omega
  have hfollow : (HeapM.follow (some env)).Leads roots { h with pins := h.pins ++ [frame, some env].toArray }
      fun r h' => r = some n ∧ h' = { h with pins := h.pins ++ [frame, some env].toArray } :=
    .of_ok (HeapM.follow_apply henv) ⟨rfl, rfl⟩
  refine hfollow.bind (by simp) ?_
  rintro _ _ ⟨⟨⟩, rfl⟩
  rcases hp.offers hr (.fresh .environment (oneMore n.slots)) with ⟨e, h₁, hrun, hspares⟩ | hstrays |
      ⟨h₁, a, next, hrun, hw, hoffer⟩
  · exact .of_failed (HeapM.bind_error hrun) hspares.made_none
  · exact .of_strays hstrays.bind
  have hroom : n.slots + 1 ≤ 9 := slots_le_of_words (by omega) (by omega) (hmore ▸ hw)
  have htraced : ((Node.fresh .environment (oneMore n.slots)).withChildren (n.traced ++ [frame])).traced =
      n.traced ++ [frame] := by
    have := Node.traced_withChildren .environment (n.traced ++ [frame]) (by rw [hlength, maxChildren]; omega)
    rwa [hlength, show (((n.slots + 1).toNat : Nat) : Int) = oneMore n.slots by omega] at this
  have hself := getElem?_place_self hoffer.vacant next (.fresh .environment (oneMore n.slots))
  generalize hnode : (Node.fresh .environment (oneMore n.slots)).withChildren (n.traced ++ [frame]) = node at htraced
  have hcontent' : node.content = .environment := by rw [← hnode]; rfl
  have hs : (h₁.place a next node).Sound :=
    hoffer.orderly.sound.place hoffer.free hoffer.vacant (by simp [hcontent'])
  have hslots : node.slots = n.slots + 1 := by
    rw [← hnode]
    exact hmore
  refine .of_ok ((HeapM.bind_ok hrun).trans (?_ : _ = (Except.ok a, h₁.place a next node)))
    (hoffer.made hp.tidy hr (by simp [hcontent']) (by omega) (fun b hb => ?_) _ hs)
  · rw [if_neg (by simp [hover, h0]), HeapM.modify_bind_apply, node?, hself, HeapM.pure_apply]
    simp only [setNode_place, hnode]
  · -- the environment is pinned, and so its frames can be reached
    rw [htraced] at hb
    rcases List.mem_append.mp hb with hb | hb
    · exact (hpin env (.inr rfl)).child henv hb
    · exact hpin b (.inl (by simpa using hb))

/-- The values that exist once need not be made. -/
theorem Orderly.permanent (ho : h.Orderly) (ha : a < bottom) :
    (pure a : HeapM Address).Leads roots h (Made roots.get h) := by
  refine .of_ok (HeapM.pure_apply a) ⟨.refl ho, ?_⟩
  rintro _ ⟨⟩
  exact ho.tidy.permanent_allocated ha

theorem ofBool_lt (b : Bool) : ofBool b < bottom := by cases b <;> decide

/-- The heap form of a host value is made part by part. -/
theorem Orderly.ofHost (ho : h.Orderly) (hr : h.Holds roots.get) (v : Host) :
    (HeapM.ofHost v).Leads roots h (Made roots.get h) := by
  induction v generalizing h with
  | null => exact ho.permanent (by decide)
  | undefined => exact ho.permanent (by decide)
  | bool b => exact ho.permanent (ofBool_lt b)
  | int _ => exact ho.leaf hr (by simp) (by simp)
  | word _ => exact ho.leaf hr (by simp) (by simp)
  | float _ => exact ho.leaf hr (by simp) (by simp)
  | single _ => exact ho.leaf hr (by simp) (by simp)
  | charCode _ => exact ho.leaf hr (by simp) (by simp)
  | str t => exact ho.string hr t
  | pair head tail ihhead ihtail =>
    refine (ihhead ho hr).bind (fun _ hm => ⟨hm.toSpares, by simp⟩) fun a h₁ hhead => ?_
    have hr₁ := hhead.holds ho.tidy hr
    have ha : h₁.Holds [some a] := fun b hb => hhead.allocated b (by simp_all)
    -- the head is pinned while the tail is made
    have hpinned : ({ h₁ with pins := h₁.pins ++ [some a].toArray } : Heap).Orderly :=
      hhead.orderly.with_pins (by simpa using Holds.append hhead.orderly.tidy.pins ha)
    refine ((ihtail hpinned hr₁).holding (hhead.orderly.pinning hr₁ ha fun hp => ihtail hp hr₁)).bind
      (fun _ htail => hhead.made_trans ⟨htail.1.toSpares, by simp⟩) fun b h₂ htail => ?_
    have hspares := hhead.toSpares.trans htail.1.toSpares
    have hb : h₂.Holds [some b] := fun c hc => htail.1.allocated c (by simp_all)
    exact (htail.1.orderly.allocateOver (hspares.holds ho.tidy hr) (htail.2.append hb) (by simp) (by simp)
      (by simp)).imp fun r h' hm => hspares.made_trans hm
  | ref _ _ _ => exact .of_failed rfl (Spares.refl ho).made_none

theorem Orderly.ofLiteral (ho : h.Orderly) (hr : h.Holds roots.get) (l : Literal) :
    (HeapM.ofLiteral l).Leads roots h (Made roots.get h) := by
  unfold HeapM.ofLiteral
  split_ifs
  · exact ho.permanent (by decide)
  · exact ho.permanent (ofBool_lt l.bool)
  · exact ho.leaf hr (by simp) (by simp)
  · exact ho.leaf hr (by simp) (by simp)
  · exact ho.leaf hr (by simp) (by simp)
  · exact ho.string hr l.str
  · exact .of_failed rfl (Spares.refl ho).made_none

/-! ## Operations that change nodes -/

/-- An allocated node has a child of a number. -/
def HasChild (h : Heap) (a : Address) (i : Int) : Prop :=
  ∃ n, h.nodes[a]? = some n ∧ n.content ≠ .free ∧ 0 ≤ i ∧ i < n.slots

/-- A heap in order with the pins of another one. -/
structure Follows (h h' : Heap) : Prop where
  orderly : h'.Orderly
  pins : h'.pins = h.pins

theorem Spares.follows {held : List Link} (hs : Spares held h h') : Follows h h' := ⟨hs.orderly, hs.pins⟩

/-- A string has no children, so no child of it is ever written. -/
theorem Orderly.setChild (roots : Roots) (ho : h.Orderly) {i : Int} (hchild : h.HasChild a i) {v : Link} (hv : h.Holds [v]) :
    ∃ h', HeapM.setChild a i v roots h = (.ok (), h') ∧ Follows h h' := by
  obtain ⟨n, hn, hfree, h0, hi⟩ := hchild
  obtain ⟨hover, hheld⟩ := ho.tidy.children a n hn hfree
  have h9 : n.slots ≤ 9 := Int.not_lt.mp (of_decide_eq_false hover)
  have hset : n.setChild? i v = some { n with children := n.children.setIfInBounds i.toNat v } := by
    rw [Node.setChild?, if_pos ⟨h0, by omega⟩]
  have hrun : HeapM.setChild a i v roots h =
      (.ok (), h.setNode a { n with children := n.children.setIfInBounds i.toNat v }) := by
    rw [HeapM.setChild, HeapM.bind_ok (HeapM.nodeAt_apply hn), hset]
    rfl
  refine ⟨_, hrun, ho.setNode hn hfree (fun t ht => ?_) rfl rfl fun b hb => ?_, rfl⟩
  · have := ho.sound.pooled.leaf a n t hn ht
    omega
  · simp only [Node.traced, Vector.toList_setIfInBounds, List.take_set] at hb
    rcases List.mem_or_eq_of_mem_set hb with hb | rfl
    · exact hheld b hb
    · exact hv b (by simp)

/-- The node that a child of an environment leads to gets another child. -/
theorem Orderly.store (roots : Roots) (ho : h.Orderly) {env f : Address} {pos : Position} (henv : h.nodes[env]? = some n)
    (hf : n.child? pos.frame = some (some f)) (hslot : h.HasChild f pos.slot) {v : Link} (hv : h.Holds [v]) :
    ∃ h', HeapM.store (some env) pos v roots h = (.ok (), h') ∧ Follows h h' := by
  have hframe : HeapM.frameAt (some env) pos roots h = (.ok f, h) := by
    rw [HeapM.frameAt, HeapM.bind_ok (HeapM.follow_apply henv), hf]
    rfl
  obtain ⟨h', hrun, hfollows⟩ := ho.setChild roots hslot hv
  exact ⟨h', (HeapM.bind_ok hframe).trans hrun, hfollows⟩

/-! ## Runs of operations -/

/-- An operation on a heap, with its arguments. -/
inductive Action where
  | number (v : Number)
  | char (code : Int)
  | string (t : Text)
  | pair (head tail : Link)
  | frame (slots : Int)
  | environment (frames : Int)
  | extend (frame env : Link)
  | closure (arity entry : Int) (env : Link)
  | blockframe (env : Link)
  | callframe (env : Link) (back height : Int)
  | reference (pos : Position) (mutable : Bool) (env : Link)
  | builtin (id : Int)
  | ofHost (v : Host)
  | ofLiteral (l : Literal)
  | setChild (a : Address) (i : Int) (v : Link)
  | store (env : Link) (pos : Position) (v : Link)
  | collect

namespace Action

/-- An operation for its effect on the heap. -/
def effect {α : Type} (act : HeapM α) : HeapM Unit := do
  let _ ← act
  pure ()

/-- Runs the operation. -/
def perform : Action → HeapM Unit
  | .number v => effect (HeapM.number v)
  | .char code => effect (HeapM.char code)
  | .string t => effect (HeapM.string t)
  | .pair head tail => effect (HeapM.pair head tail)
  | .frame slots => effect (HeapM.frame slots)
  | .environment frames => effect (HeapM.environment frames)
  | .extend inner env => effect (HeapM.extend inner env)
  | .closure arity entry env => effect (HeapM.closure arity entry env)
  | .blockframe env => effect (HeapM.blockframe env)
  | .callframe env back height => effect (HeapM.callframe env back height)
  | .reference pos mutable env => effect (HeapM.reference pos mutable env)
  | .builtin id => effect (HeapM.builtin id)
  | .ofHost v => effect (HeapM.ofHost v)
  | .ofLiteral l => effect (HeapM.ofLiteral l)
  | .setChild a i v => HeapM.setChild a i v
  | .store env pos v => HeapM.store env pos v
  | .collect => effect HeapM.collect

/-- The arguments of an operation fit a heap: addresses are allocated, a count is not negative and one more than it is
still a 64-bit integer, an environment that is extended is one, and a child that is written is there. -/
def Admissible (h : Heap) : Action → Prop
  | .pair head tail => h.Holds [head, tail]
  | .frame count | .environment count => 0 ≤ count ∧ count < 0x7fffffffffffffff
  | .extend inner env => h.Holds [inner] ∧ ∃ e n, env = some e ∧ h.nodes[e]? = some n ∧ n.content = .environment
  | .closure _ _ env | .blockframe env | .callframe env _ _ | .reference _ _ env => h.Holds [env]
  | .setChild a i v => h.Holds [v] ∧ h.HasChild a i
  | .store env pos v =>
    h.Holds [v] ∧ ∃ e n f, env = some e ∧ h.nodes[e]? = some n ∧ n.content = .environment ∧ h.HasChild e pos.frame ∧
      n.child? pos.frame = some (some f) ∧ h.HasChild f pos.slot
  | .number _ | .char _ | .string _ | .builtin _ | .ofHost _ | .ofLiteral _ | .collect => True

theorem effect_leads {α : Type} {act : HeapM α} {post : Option α → Heap → Prop} {p : Heap → Prop}
    (hact : act.Leads roots h post) (hp : ∀ r h', post r h' → p h') : (effect act).Leads roots h fun _ => p :=
  hact.bind (hp none) fun a h' hpost => .of_ok (HeapM.pure_apply ()) (hp (some a) h' hpost)

/-- Every operation, whatever its arguments are. -/
theorem perform_keeps {P : Heap → Prop} {Admits : Content → Prop} (hP : Kept P Admits)
    (hnumber : ∀ n, Admits (.number n)) (action : Action) : action.perform.Keeps P := by
  have heffect : ∀ {α : Type} {act : HeapM α}, act.Keeps P → (effect act).Keeps P :=
    fun hact => .bind hact fun _ => .pure ()
  cases action with
  | number v => exact heffect (.number hP (hnumber v))
  | char code => exact heffect (.char hP code)
  | string t => exact heffect (.string hP t)
  | pair head tail => exact heffect (.pair hP head tail)
  | frame slots => exact heffect (.frame hP slots)
  | environment frames => exact heffect (.environment hP frames)
  | extend inner env => exact heffect (.extend hP inner env)
  | closure arity entry env => exact heffect (.closure hP arity entry env)
  | blockframe env => exact heffect (.blockframe hP env)
  | callframe env back height => exact heffect (.callframe hP env back height)
  | reference pos mutable env => exact heffect (.reference hP pos mutable env)
  | builtin id => exact heffect (.builtin hP id)
  | ofHost v => exact heffect (.ofHost hP hnumber v)
  | ofLiteral l => exact heffect (.ofLiteral hP (hnumber _))
  | setChild a i v => exact .setChild hP a i v
  | store env pos v => exact .store hP env pos v
  | collect => exact heffect (.collect hP.collect)

/-- One operation on a heap that has an address for every node. -/
theorem settles (ho : h.Orderly) (hfew : h.capacity ≤ addressable) (hr : h.Holds roots.get) {action : Action}
    (hadm : action.Admissible h) : action.perform.Settles roots h fun _ => Follows h := by
  refine HeapM.Leads.settles ?_ (perform_keeps (sized_kept _) (fun _ => trivial) action roots h rfl) hfew
  have hmakes : ∀ {act : HeapM Address}, act.Leads roots h (Made roots.get h) →
      (effect act).Leads roots h fun _ => Follows h := fun hact => effect_leads hact fun _ _ hm => hm.follows
  cases action with
  | number v => exact hmakes (ho.leaf hr (by simp) (by simp))
  | char code => exact hmakes (ho.leaf hr (by simp) (by simp))
  | string t => exact hmakes (ho.string hr t)
  | pair head tail => exact hmakes (ho.allocateOver hr hadm (by simp) (by simp) (by simp))
  | frame slots => exact hmakes (ho.frame hr hadm.1 hadm.2)
  | environment frames => exact hmakes (ho.environment hr hadm.1 hadm.2)
  | extend inner env =>
    obtain ⟨hinner, e, n, rfl, hn, hcontent⟩ := hadm
    exact hmakes (ho.extend hr hinner hn hcontent)
  | closure arity entry env => exact hmakes (ho.allocateOver hr hadm (by simp) (by simp) (by simp))
  | blockframe env => exact hmakes (ho.allocateOver hr hadm (by simp) (by simp) (by simp))
  | callframe env back height => exact hmakes (ho.allocateOver hr hadm (by simp) (by simp) (by simp))
  | reference pos mutable env => exact hmakes (ho.allocateOver hr hadm (by simp) (by simp) (by simp))
  | builtin id => exact hmakes (ho.leaf hr (by simp) (by simp))
  | ofHost v => exact hmakes (ho.ofHost hr v)
  | ofLiteral l => exact hmakes (ho.ofLiteral hr l)
  | setChild a i v =>
    obtain ⟨h', hrun, hfollows⟩ := ho.setChild roots hadm.2 hadm.1
    exact .of_ok hrun hfollows
  | store env pos v =>
    obtain ⟨hv, e, n, f, rfl, hn, -, -, hf, hslot⟩ := hadm
    obtain ⟨h', hrun, hfollows⟩ := ho.store roots hn hf hslot hv
    exact .of_ok hrun hfollows
  | collect =>
    obtain ⟨freed, h', hcollect, hspares, -⟩ := ho.collect hfew hr
    have hrun : HeapM.collect roots h = (.ok freed, h') := by rw [HeapM.collect, hcollect]
    have hleads : HeapM.collect.Leads roots h fun _ => Follows h := .of_ok hrun hspares.follows
    exact effect_leads hleads fun _ _ hf => hf

end Action

/-- A new heap is in order, also if it has more nodes than addresses. -/
theorem new_orderly (digest : Text → UInt64) {n : Nat} (hn : n > bottom) (hmax : n ≤ maxNodes) :
    (new digest n).Orderly := by
  have hsize : (new digest n).nodes.size = n := by simp [new]
  have hnode : ∀ (a : Address) (node : Node), (new digest n).nodes[a]? = some node →
      a < n ∧ node = initialNode n a := by
    intro a node ha
    have hlt : a < n := hsize ▸ (Array.getElem?_eq_some_iff.mp ha).1
    exact ⟨hlt, Option.some.inj (ha.symm.trans (getElem?_new hlt))⟩
  have hslots : ∀ (a : Address), (initialNode n a).slots = 0 := by
    intro a
    unfold initialNode
    split <;> rfl
  have halloc : ∀ a : Nat, (new digest n).isAllocated a = true ↔ a < bottom := by
    intro a
    rw [isAllocated_iff]
    constructor
    · rintro ⟨node, ha, hcontent⟩
      obtain ⟨-, rfl⟩ := hnode a node ha
      by_contra hlow
      exact hcontent (by rw [initialNode, if_neg hlow]; rfl)
    · intro hlow
      refine ⟨_, getElem?_new (Nat.lt_trans hlow hn), ?_⟩
      have hfive : a < 5 := hlow
      interval_cases a <;> simp [initialNode, bottom, initialContent, Node.fresh]
  have hsound := new_sound digest hn hmax
  refine ⟨⟨hsound.size, hsound.clear, fun a ha => ?_, fun a node ha _ => ?_, by simp [new, Holds], ?_⟩, hsound,
    fun a node ha => ?_, fun hfew => ?_⟩
  · exact ⟨_, getElem?_new (Nat.lt_trans ha hn), by rw [initialNode, if_pos ha]; rfl⟩
  · obtain ⟨-, rfl⟩ := hnode a node ha
    exact ⟨by simp [Node.overruns, hslots], by simp [Holds, Node.traced, hslots]⟩
  · have hset : {a | (new digest n).isAllocated a = true} = (Finset.range bottom : Set Nat) := by
      ext a
      simpa using halloc a
    rw [population, hset, Set.ncard_coe_finset, Finset.card_range]
    rfl
  · obtain ⟨-, rfl⟩ := hnode a node ha
    exact (hslots a).ge
  · obtain ⟨k, rfl⟩ : ∃ k, n = bottom + k + 1 := ⟨n - bottom - 1, by omega⟩
    refine ⟨_, (new_free rfl (hsize ▸ hfew)).freeList, List.nodup_range', fun (a : Nat) => ?_⟩
    rw [List.mem_range'_1, ← Bool.not_eq_true, halloc, capacity, hsize]
    change 5 ≤ a ∧ a < 5 + (k + 1) ↔ a < 5 + k + 1 ∧ ¬ a < 5
    omega

/-- The heaps with an address for every node that arise from a new one by operations with admissible arguments, each with
roots that are allocated. -/
inductive Arises : Heap → Prop where
  | create {h : Heap} {digest : Text → UInt64} {words : Int} (hcreate : create digest words = .ok h)
    (hfew : h.capacity ≤ addressable) : Arises h
  | perform {h : Heap} (ha : Arises h) (roots : Roots) (hr : h.Holds roots.get) (action : Action)
    (hadm : action.Admissible h) : Arises (action.perform roots h).2

theorem Arises.few (ha : Arises h) : h.capacity ≤ addressable := by
  induction ha with
  | create _ hfew => exact hfew
  | @perform h _ roots _ action _ ih => exact (Action.perform_keeps (sized_kept _) (fun _ => trivial) action roots h rfl).trans_le ih

theorem Arises.orderly (ha : Arises h) : h.Orderly := by
  induction ha with
  | @create h digest words hcreate =>
    rw [create_eq] at hcreate
    split_ifs at hcreate with hsmall hlarge
    exact Except.ok.inj hcreate ▸ new_orderly digest (Nat.not_le.mp hsmall) (Nat.not_lt.mp hlarge)
  | @perform h ha roots hr action hadm ih =>
    exact (Action.settles ih ha.few hr hadm).left.orderly

/-- Whatever operations a heap has gone through, it is consistent; and no further operation crashes or leaves other pins
than it found, also when it fails. -/
theorem Arises.represented (ha : Arises h) :
    h.Consistent ∧ ∀ (roots : Roots) (action : Action), h.Holds roots.get → action.Admissible h →
      (∀ h', action.perform roots h ≠ (.error .crashed, h')) ∧ (action.perform roots h).2.pins = h.pins ∧
        (action.perform roots h).2.Consistent := by
  refine ⟨ha.orderly.consistent ha.few, fun roots action hr hadm => ?_⟩
  have hsettles := Action.settles ha.orderly ha.few hr hadm
  have hlater := ha.perform roots hr action hadm
  exact ⟨hsettles.alive, hsettles.left.pins, hlater.orderly.consistent hlater.few⟩

/-- A new heap of eight nodes with an empty environment and a frame of one slot. -/
def furnished : Heap :=
  ((Action.frame 1).perform (Thunk.pure [some 5])
    ((Action.environment 0).perform (Thunk.pure []) (new defaultDigest 8)).2).2

theorem furnished_arises : Arises furnished := by
  have hcreate : create defaultDigest 80 = .ok (new defaultDigest 8) := rfl
  have henvironment := (Arises.create hcreate (by decide)).perform (Thunk.pure [])
    (fun a ha => by simp [Thunk.get, Thunk.pure] at ha) (.environment 0) ⟨by decide, by decide⟩
  refine henvironment.perform (Thunk.pure [some 5]) (fun a ha => ?_) (.frame 1) ⟨by decide, by decide⟩
  obtain rfl : a = 5 := by simpa [Thunk.get, Thunk.pure] using ha
  decide

/-- The environment of a heap that arose is extended by the frame that is there. -/
theorem Arises.represented_furnished :
    Arises furnished ∧ furnished.Holds [some 5, some 6] ∧ (Action.extend (some 6) (some 5)).Admissible furnished ∧
      furnished.Consistent ∧
      ((Action.extend (some 6) (some 5)).perform (Thunk.pure [some 5, some 6]) furnished).2.Consistent ∧
      ((Action.extend (some 6) (some 5)).perform (Thunk.pure [some 5, some 6]) furnished).2.isAllocated 7 = true := by
  have h5 : furnished.isAllocated 5 = true := by decide
  have h6 : furnished.isAllocated 6 = true := by decide
  have hr : furnished.Holds [some 5, some 6] := fun a ha => by
    rcases List.mem_pair.mp ha with hb | hb <;> cases hb <;> assumption
  have hadm : (Action.extend (some 6) (some 5)).Admissible furnished :=
    ⟨hr.mono (by simp), 5, _, rfl, rfl, rfl⟩
  obtain ⟨hc, hrun⟩ := Arises.represented furnished_arises
  exact ⟨furnished_arises, hr, hadm, hc, (hrun (Thunk.pure [some 5, some 6]) _ hr hadm).2.2, by decide⟩

/-- The size of an environment that is asked for the largest count of frames wraps around. The environment is made, and
a collection that reaches it crashes and leaves marks. -/
theorem environment_overruns :
    create defaultDigest 60 = .ok (new defaultDigest 6) ∧
    ∃ h' h'', HeapM.environment 0x7fffffffffffffff (Thunk.pure []) (new defaultDigest 6) = (.ok 5, h') ∧
      h'.isAllocated 5 = true ∧ ¬ h'.Consistent ∧
      HeapM.collect (Thunk.pure [some 5]) h' = (.error .crashed, h'') ∧
      h''.marked[5]? = some true ∧ ¬ h''.Consistent := by
  refine ⟨rfl, _, _, rfl, by decide, fun hc => ?_, rfl, by decide, fun hc => ?_⟩
  · have hover := (hc.children 5 _ rfl (by decide)).1
    exact absurd hover (by decide)
  · exact hc.clear 5 (by decide)

end Heap

end Tenure
