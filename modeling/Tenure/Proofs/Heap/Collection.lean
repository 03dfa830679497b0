import Mathlib.Data.Set.Card
import Mathlib.Tactic.FinCases
import Tenure.Proofs.Heap.Allocate

/-!
# Collections are exact

The representation of a heap between operations is `Heap.Consistent`: every node has an address, the free list holds
exactly the nodes that are not allocated, allocated nodes lead to allocated nodes only, no mark is set, and the counters
of allocations and of freed nodes differ by the number of allocated nodes. On such a heap a collection frees exactly what
cannot be reached and counts it, and an allocation fails exactly if everything can be reached:
`Heap.Consistent.collection_exact`. Nothing is asked of the pool of strings, or of what the nodes of the free list hold
besides their links.
-/

set_option autoImplicit false

namespace Tenure.Heap

/-! ## The representation -/

/-- The free list from a link on: nodes of the free kind, each with the link to the next one, up to the link where it
stops. -/
inductive FreeList (nodes : Array Node) (stop : Link) : Link → List Address → Prop where
  | nil : FreeList nodes stop stop []
  | cons {a : Address} {n : Node} {rest : List Address} (ha : nodes[a]? = some n) (hkind : n.kind = .free)
    (hrest : FreeList nodes stop n.next rest) : FreeList nodes stop (some a) (a :: rest)

/-- Links that lead to allocated nodes, if they lead anywhere. -/
def Holds (h : Heap) (links : List Link) : Prop := ∀ a, some a ∈ links → h.isAllocated a = true

/-- The number of allocated nodes. -/
noncomputable def population (h : Heap) : Nat := {a | h.isAllocated a = true}.ncard

/-- A heap as operations find it and leave it, whatever its free list looks like. -/
structure Tidy (h : Heap) : Prop where
  size : h.marked.size = h.capacity
  clear : ∀ a : Address, h.marked[a]? ≠ some true
  /-- The values that exist once are in their places. -/
  permanent : ∀ a < bottom, ∃ n, h.nodes[a]? = some n ∧ n.content = initialContent a
  /-- An allocated node has all the children it is meant to have, and they lead to allocated nodes. -/
  children : ∀ (a : Address) (n : Node), h.nodes[a]? = some n → n.content ≠ .free →
    n.overruns = false ∧ h.Holds n.traced
  pins : h.Holds h.pins.toList
  counted : h.stats.allocations = h.stats.freed + h.population

/-- The free list comes to an end, repeats no node and holds exactly the nodes that are not allocated. -/
def Listed (h : Heap) : Prop :=
  ∃ l, FreeList h.nodes none h.free l ∧ l.Nodup ∧ ∀ a, a ∈ l ↔ a < h.capacity ∧ h.isAllocated a = false

/-- A heap as operations find it and leave it when every node has an address. -/
structure Consistent (h : Heap) : Prop extends Tidy h where
  addresses : h.capacity ≤ addressable
  free : h.Listed

variable {h h' : Heap} {roots : List Link} {a : Address} {n : Node}

theorem Chain.freeList {nodes : Array Node} {stop link : Link} {l : List Address} (hl : Chain nodes stop link l) :
    FreeList nodes stop link l := by
  induction hl with
  | nil => exact .nil
  | cons ha _ ih => exact .cons ha rfl ih

theorem isAllocated_iff : h.isAllocated a = true ↔ ∃ n, h.nodes[a]? = some n ∧ n.content ≠ .free := by
  have hkind : ∀ c : Content, c.kind = .free ↔ c = .free := by
    intro c
    cases c <;> simp [Content.kind]
  unfold isAllocated node?
  cases hn : h.nodes[a]? with
  | none => simp
  | some n => simp [Node.kind, hkind]

theorem lt_of_isAllocated (ha : h.isAllocated a = true) : a < h.capacity := by
  obtain ⟨n, hn, -⟩ := isAllocated_iff.mp ha
  exact (Array.getElem?_eq_some_iff.mp hn).1

theorem isAllocated_vacant {next : Link} (hn : h.nodes[a]? = some (.vacant next)) : h.isAllocated a = false := by
  simp [isAllocated, node?, hn, Node.vacant, Node.kind, Content.kind]

/-- Whether a node is allocated depends on the node alone. -/
theorem isAllocated_congr (hn : h'.nodes[a]? = h.nodes[a]?) : h'.isAllocated a = h.isAllocated a := by
  rw [isAllocated, node?, hn, isAllocated, node?]

theorem finite_allocated (h : Heap) : {a | h.isAllocated a = true}.Finite :=
  (Set.finite_lt_nat h.capacity).subset fun _ ha => lt_of_isAllocated ha

theorem Holds.append {links links' : List Link} (hl : h.Holds links) (hl' : h.Holds links') :
    h.Holds (links ++ links') := fun a ha => (List.mem_append.mp ha).elim (hl a) (hl' a)

namespace Tidy

theorem permanent_allocated (hc : h.Tidy) (ha : a < bottom) : h.isAllocated a = true := by
  obtain ⟨n, hn, hcontent⟩ := hc.permanent a ha
  refine isAllocated_iff.mpr ⟨n, hn, ?_⟩
  rw [hcontent]
  have hfive : a < 5 := ha
  interval_cases a <;> simp [initialContent]

theorem holds_rootLinks (hc : h.Tidy) (hr : h.Holds roots) : h.Holds (h.rootLinks roots) := by
  refine Holds.append (Holds.append (fun a ha => hc.permanent_allocated ?_) hc.pins) hr
  simp only [permanentLinks, List.mem_cons, Option.some.injEq, List.not_mem_nil, or_false] at ha
  rcases ha with rfl | rfl | rfl | rfl | rfl <;> decide

/-- Whatever can be reached is allocated. -/
theorem reaches_allocated (hc : h.Tidy) (hr : h.Holds roots) (ha : Reaches h.nodes (h.rootLinks roots) a) :
    h.isAllocated a = true := by
  induction ha with
  | root hmem => exact hc.holds_rootLinks hr _ hmem
  | child _ hn hb ih =>
    obtain ⟨n', hn', hcontent⟩ := isAllocated_iff.mp ih
    obtain rfl := Option.some.inj (hn.symm.trans hn')
    exact (hc.children _ _ hn hcontent).2 _ hb

theorem intact (hc : h.Tidy) (hr : h.Holds roots) : Intact h.nodes (h.rootLinks roots) := by
  intro a ha
  obtain ⟨n, hn, hcontent⟩ := isAllocated_iff.mp (hc.reaches_allocated hr ha)
  exact ⟨n, hn, (hc.children a n hn hcontent).1, hcontent⟩

end Tidy

/-! ## Counting -/

/-- The numbers from a lower end on, up to a number of them, that have a property. -/
def upTo (low k : Nat) (p : Nat → Prop) : Set Nat := {a | low ≤ a ∧ a < low + k ∧ p a}

variable {low k : Nat} {p q : Nat → Prop}

theorem finite_upTo (low k : Nat) (p : Nat → Prop) : (upTo low k p).Finite :=
  (Set.finite_lt_nat (low + k)).subset fun _ ha => ha.2.1

theorem upTo_zero (low : Nat) (p : Nat → Prop) : upTo low 0 p = ∅ := by
  ext a
  simp only [upTo, Set.mem_ofPred_eq, Set.mem_empty_iff_false, iff_false]
  omega

theorem ncard_upTo_succ_of (hp : p (low + k)) : (upTo low (k + 1) p).ncard = (upTo low k p).ncard + 1 := by
  have hinsert : upTo low (k + 1) p = insert (low + k) (upTo low k p) := by
    ext a
    simp only [upTo, Set.mem_ofPred_eq, Set.mem_insert_iff]
    constructor
    · rintro ⟨hlow, hup, hpa⟩
      by_cases ha : a = low + k
      · exact .inl ha
      · exact .inr ⟨hlow, by omega, hpa⟩
    · rintro (rfl | ⟨hlow, hup, hpa⟩)
      · exact ⟨by omega, by omega, hp⟩
      · exact ⟨hlow, by omega, hpa⟩
  rw [hinsert, Set.ncard_insert_of_notMem (fun hmem => absurd hmem.2.1 (lt_irrefl _)) (finite_upTo low k p)]

theorem upTo_succ_of_not (hp : ¬ p (low + k)) : upTo low (k + 1) p = upTo low k p := by
  ext a
  simp only [upTo, Set.mem_ofPred_eq]
  refine ⟨fun ⟨hlow, hup, hpa⟩ => ⟨hlow, ?_, hpa⟩, fun ⟨hlow, hup, hpa⟩ => ⟨hlow, by omega, hpa⟩⟩
  have hne : a ≠ low + k := by
    rintro rfl
    exact hp hpa
  omega

theorem upTo_congr (hpq : ∀ a < low + k, p a ↔ q a) : upTo low k p = upTo low k q := by
  ext a
  simp only [upTo, Set.mem_ofPred_eq]
  exact and_congr_right fun _ => and_congr_right fun hup => hpq a hup

/-- A node that a sweep will free: it is allocated and not marked. -/
def Dropped (h : Heap) (a : Address) : Prop := h.marked[a]? ≠ some true ∧ h.isAllocated a = true

/-- A sweep of one node leaves all others alone. -/
theorem Sweep.step_frame (s : Sweep) (a : Address) :
    (s.step a).heap.stats = s.heap.stats ∧
      ∀ b : Address, b ≠ a → (s.step a).heap.nodes[b]? = s.heap.nodes[b]? ∧
        (s.step a).heap.marked[b]? = s.heap.marked[b]? := by
  obtain ⟨h, freed, live⟩ := s
  unfold Sweep.step
  simp only
  split
  · exact ⟨rfl, fun b hb => ⟨rfl, Array.getElem?_setIfInBounds_ne (Ne.symm hb)⟩⟩
  · obtain ⟨pool, hpool⟩ := h.forgetAt_eq a
    refine ⟨by simp [reclaim, hpool], fun b hb => ⟨?_, by simp [reclaim, hpool]⟩⟩
    simp [reclaim, hpool, Array.getElem?_setIfInBounds_ne (Ne.symm hb)]

theorem Sweep.step_of_marked {s : Sweep} (hmark : s.heap.marked[a]? = some true) :
    (s.step a).freed = s.freed ∧ (s.step a).live = s.live + 1 := by
  obtain ⟨h, freed, live⟩ := s
  simp only at hmark
  simp [Sweep.step, hmark]

theorem Sweep.step_of_unmarked {s : Sweep} (hmark : s.heap.marked[a]? ≠ some true) :
    (s.step a).freed = (if s.heap.isAllocated a then s.freed + 1 else s.freed) ∧ (s.step a).live = s.live := by
  obtain ⟨h, freed, live⟩ := s
  have hget : h.marked[a]?.getD false = false := by
    cases hm : h.marked[a]? with
    | none => rfl
    | some b =>
      cases b with
      | false => rfl
      | true => exact absurd hm hmark
  simp [Sweep.step, hget]

/-- A sweep counts the nodes it frees and those it keeps. -/
theorem Sweep.down_counts (k : Nat) (s : Sweep) :
    (Sweep.down k s).freed = s.freed + (upTo bottom k s.heap.Dropped).ncard ∧
      (Sweep.down k s).live = s.live + (upTo bottom k fun a => s.heap.marked[a]? = some true).ncard ∧
      (Sweep.down k s).heap.stats = s.heap.stats := by
  induction k generalizing s with
  | zero => simp [Sweep.down, upTo_zero]
  | succ k ih =>
    obtain ⟨hstats, hframe⟩ := s.step_frame (bottom + k)
    obtain ⟨hfreed, hlive, hrest⟩ := ih (s.step (bottom + k))
    -- the nodes below are swept later and are still as they were
    have hmarked : (upTo bottom k fun a => (s.step (bottom + k)).heap.marked[a]? = some true) =
        upTo bottom k fun a => s.heap.marked[a]? = some true :=
      upTo_congr fun a ha => by rw [(hframe a (Nat.ne_of_lt ha)).2]
    have hdropped : upTo bottom k (s.step (bottom + k)).heap.Dropped = upTo bottom k s.heap.Dropped :=
      upTo_congr fun a ha => by
        rw [Dropped, (hframe a (Nat.ne_of_lt ha)).2, isAllocated_congr (hframe a (Nat.ne_of_lt ha)).1, Dropped]
    rw [hdropped] at hfreed
    rw [hmarked] at hlive
    rw [Sweep.down]
    refine ⟨?_, ?_, hrest.trans hstats⟩
    · rw [hfreed]
      by_cases hmark : s.heap.marked[bottom + k]? = some true
      · rw [(Sweep.step_of_marked hmark).1, upTo_succ_of_not fun hd => hd.1 hmark]
      · rw [(Sweep.step_of_unmarked hmark).1]
        split
        next halloc => rw [ncard_upTo_succ_of ⟨hmark, halloc⟩]; omega
        next halloc => rw [upTo_succ_of_not fun hd => halloc hd.2]
    · rw [hlive]
      by_cases hmark : s.heap.marked[bottom + k]? = some true
      · rw [(Sweep.step_of_marked hmark).2, ncard_upTo_succ_of hmark]
        omega
      · rw [(Sweep.step_of_unmarked hmark).2, upTo_succ_of_not hmark]

/-- A collection counts the allocated nodes that cannot be reached, and those above the bottom that can. -/
theorem swept_counts (hfew : h.nodes.size ≤ addressable) (hsize : h.marked.size = h.nodes.size)
    (hclear : ∀ a : Address, h.marked[a]? ≠ some true) (ht : Traceable h.nodes (h.rootLinks roots)) :
    (h.swept roots).freed = {a | h.isAllocated a = true ∧ ¬ Reaches h.nodes (h.rootLinks roots) a}.ncard ∧
      (h.swept roots).live = {a | bottom ≤ a ∧ Reaches h.nodes (h.rootLinks roots) a}.ncard ∧
      (h.swept roots).heap.stats = h.stats := by
  obtain ⟨-, -, -, hmarked⟩ := mark_spec hfew hsize hclear ht
  have hupper : bottom + (h.nodes.size - bottom) = h.nodes.size := Nat.add_sub_cancel' (bottom_le_of_traceable ht)
  obtain ⟨hfreed, hlive, hstats⟩ := Sweep.down_counts (h.nodes.size - bottom)
    ⟨{ h with marked := (h.mark roots).marked, free := none }, 0, 0⟩
  simp only [Nat.zero_add] at hfreed hlive
  refine ⟨hfreed.trans (congrArg Set.ncard ?_), hlive.trans (congrArg Set.ncard ?_), hstats⟩
  · ext a
    simp only [upTo, Dropped, ne_eq, hmarked, hupper, Set.mem_ofPred_eq]
    refine ⟨fun hd => ⟨hd.2.2.2, hd.2.2.1⟩, fun ⟨halloc, hr⟩ => ⟨?_, lt_of_isAllocated halloc, hr, halloc⟩⟩
    by_contra hlow
    exact hr (reaches_permanent h roots (Nat.not_le.mp hlow))
  · ext a
    simp only [upTo, hmarked, hupper, Set.mem_ofPred_eq]
    refine and_congr_right fun _ => ⟨And.right, fun hr => ⟨?_, hr⟩⟩
    obtain ⟨n, hn, -⟩ := ht a hr
    exact (Array.getElem?_eq_some_iff.mp hn).1

/-! ## Collections -/

/-- After a collection exactly that is allocated which could be reached. -/
theorem Cleared.isAllocated_iff_reaches (hc : h.Tidy) (hr : h.Holds roots) (hcleared : Cleared roots h h') :
    h'.isAllocated a = true ↔ Reaches h.nodes (h.rootLinks roots) a := by
  constructor
  · intro halloc
    by_contra hnot
    obtain ⟨next, hnext⟩ := hcleared.vacant (hcleared.size ▸ lt_of_isAllocated halloc) hnot
    rw [isAllocated_vacant hnext] at halloc
    cases halloc
  · intro ha
    rw [isAllocated_congr (hcleared.kept a ha)]
    exact hc.reaches_allocated hr ha

/-- Allocated nodes are those that can be reached and those that cannot. -/
theorem Tidy.population_eq (hc : h.Tidy) (hr : h.Holds roots) :
    h.population = {a | h.isAllocated a = true ∧ ¬ Reaches h.nodes (h.rootLinks roots) a}.ncard +
      {a | Reaches h.nodes (h.rootLinks roots) a}.ncard := by
  have hsplit : {a | h.isAllocated a = true} =
      {a | h.isAllocated a = true ∧ ¬ Reaches h.nodes (h.rootLinks roots) a} ∪
        {a | Reaches h.nodes (h.rootLinks roots) a} := by
    ext a
    simp only [Set.mem_ofPred_eq, Set.mem_union]
    refine ⟨fun ha => ?_, fun ha => ha.elim And.left (hc.reaches_allocated hr)⟩
    by_cases hreach : Reaches h.nodes (h.rootLinks roots) a
    · exact .inr hreach
    · exact .inl ⟨ha, hreach⟩
  rw [population, hsplit]
  exact Set.ncard_union_eq (Set.disjoint_left.mpr fun a ha hreach => ha.2 hreach)
    (h.finite_allocated.subset fun a ha => ha.1) (h.finite_allocated.subset fun a ha => hc.reaches_allocated hr ha)

/-- What a collection of a consistent heap leads to. -/
structure Consistent.Collects (roots : List Link) (h h' : Heap) : Prop where
  cleared : Cleared roots h h'
  consistent : h'.Consistent
  live : h'.stats.live = {a | bottom ≤ a ∧ Reaches h.nodes (h.rootLinks roots) a}.ncard

/-- A collection keeps a heap consistent and says how many nodes it freed. -/
theorem Consistent.collect (hc : h.Consistent) (hr : h.Holds roots) :
    ∃ h', h.collect roots =
        (some {a | h.isAllocated a = true ∧ ¬ Reaches h.nodes (h.rootLinks roots) a}.ncard, h') ∧
      Consistent.Collects roots h h' := by
  have ht := (hc.intact hr).traceable
  obtain ⟨halive, -⟩ := mark_spec hc.addresses hc.size hc.clear ht
  obtain ⟨hfreed, hlive, hstats⟩ := swept_counts hc.addresses hc.size hc.clear ht
  obtain ⟨h', hcollect, hcleared⟩ := collect_cleared hc.addresses hc.size hc.clear ht
  have hh' := congrArg (fun r => r.2.stats) ((collect_eq halive).symm.trans hcollect)
  simp only at hh'
  have hstats' : h'.stats = { h.stats with
      live := (h.swept roots).live
      collections := h.stats.collections + 1
      freed := h.stats.freed + (h.swept roots).freed } := by
    rw [← hh', hstats]
  have halloc : ∀ a, h'.isAllocated a = true ↔ Reaches h.nodes (h.rootLinks roots) a := fun a =>
    hcleared.isAllocated_iff_reaches hc.toTidy hr
  refine ⟨h', hfreed ▸ hcollect, hcleared, ?_, by rw [hstats', hlive]⟩
  obtain ⟨l, hl, hnodup, hmem⟩ := hcleared.chain
  refine ⟨⟨hcleared.marks, hcleared.clear, fun a ha => ?_, fun a n hn hcontent => ?_, fun a ha => ?_, ?_⟩,
    hcleared.size.trans_le hc.addresses, l, hl.freeList, hnodup, fun a => ?_⟩
  · obtain ⟨n, hn, hcontent⟩ := hc.permanent a ha
    exact ⟨n, (hcleared.kept a (reaches_permanent h roots ha)).trans hn, hcontent⟩
  · have ha := (halloc a).mp (isAllocated_iff.mpr ⟨n, hn, hcontent⟩)
    have hn' := (hcleared.kept a ha).symm.trans hn
    exact ⟨(hc.children a n hn' hcontent).1, fun b hb => (halloc b).mpr (ha.child hn' hb)⟩
  · rw [hcleared.pins] at ha
    exact (halloc a).mpr (.root (by simp [rootLinks, ha]))
  · have hpop : h'.population = {a | Reaches h.nodes (h.rootLinks roots) a}.ncard :=
      congrArg Set.ncard (Set.ext halloc)
    rw [hstats', hpop]
    simp only
    rw [hc.counted, hc.population_eq hr, hfreed]
    omega
  · rw [hmem, ← halloc, Bool.not_eq_true, show h'.capacity = h.nodes.size from hcleared.size]

/-! ## Allocations -/

theorem take_of_free (node : Node) (roots : Roots) (hf : h.free = some a) (hn : h.nodes[a]? = some n) :
    ∃ h', HeapM.take node roots h = (.ok a, h') := by
  simp [HeapM.take, take?, hf, node?, hn]

/-- An allocation gives out a node that could not be reached, or fails because every node can be. -/
theorem Consistent.allocate_cases {node : Node} {roots : Roots} (hc : h.Consistent) (hr : h.Holds roots.get)
    (hw : wordsFor node.slots ≤ nodeWords) :
    (∃ a h', HeapM.allocate node roots h = (.ok a, h') ∧ a < h.capacity ∧
        ¬ Reaches h.nodes (h.rootLinks roots.get) a) ∨
      (∃ h', HeapM.allocate node roots h = (.error (.failed .exhausted), h')) ∧
        ∀ a < h.capacity, Reaches h.nodes (h.rootLinks roots.get) a := by
  cases hf : h.free with
  | some a =>
    obtain ⟨l, hl, -, hmem⟩ := hc.free
    rw [hf] at hl
    cases hl with
    | @cons _ n rest hn hkind hrest =>
      obtain ⟨hlt, hfree⟩ := (hmem a).mp (by simp)
      obtain ⟨h', htake⟩ := take_of_free node roots hf hn
      refine .inl ⟨a, h', (allocate_of_free hw hf).trans htake, hlt, fun hreach => ?_⟩
      rw [hc.reaches_allocated hr hreach] at hfree
      cases hfree
  | none =>
    obtain ⟨h', hcollect, hcollects⟩ := hc.collect hr
    obtain ⟨l, hl, -, hmem⟩ := hcollects.cleared.chain
    have halloc : HeapM.allocate node roots h = HeapM.take node roots h' := allocate_of_collect hw hf hcollect
    cases hf' : h'.free with
    | none =>
      refine .inr ⟨⟨h', halloc.trans (take_of_empty hf' node roots)⟩, fun a ha => ?_⟩
      rw [hf'] at hl
      cases hl
      by_contra hnot
      exact absurd ((hmem a).mpr ⟨ha, hnot⟩) (by simp)
    | some a =>
      rw [hf'] at hl
      cases hl with
      | @cons _ next rest hn hrest =>
        obtain ⟨hlt, hnot⟩ := (hmem a).mp (by simp)
        obtain ⟨h₁, htake⟩ := take_of_free node roots hf' hn
        exact .inl ⟨a, h₁, halloc.trans htake, hlt, hnot⟩

/-- Collection is exact. On a consistent heap whose roots are allocated, the marking comes to its end with nothing left
to visit; afterwards a node above the bottom is free exactly if it could not be reached, and what could be reached is as
before; the collection says how many allocated nodes could not be reached, and records how many above the bottom could.
An allocation that fits in a node fails exactly if every node can be reached, and otherwise gives out a node that could
not. -/
theorem Consistent.collection_exact {roots : Roots} (hc : h.Consistent) (hr : h.Holds roots.get) :
    ((h.mark roots.get).work = [] ∧ (h.mark roots.get).crashed = false) ∧
    (∃ h', HeapM.collect roots h =
        (.ok {a | h.isAllocated a = true ∧ ¬ Reaches h.nodes (h.rootLinks roots.get) a}.ncard, h') ∧
      h'.capacity = h.capacity ∧
      (∀ a, bottom ≤ a → a < h.capacity →
        (h'.isAllocated a = false ↔ ¬ Reaches h.nodes (h.rootLinks roots.get) a)) ∧
      (∀ a, Reaches h.nodes (h.rootLinks roots.get) a →
        h'.nodes[a]? = h.nodes[a]? ∧ h'.marked[a]? = h.marked[a]?) ∧
      h'.stats.live = {a | bottom ≤ a ∧ Reaches h.nodes (h.rootLinks roots.get) a}.ncard) ∧
    ∀ node : Node, wordsFor node.slots ≤ nodeWords →
      ((∃ h', HeapM.allocate node roots h = (.error (.failed .exhausted), h')) ↔
        ∀ a < h.capacity, Reaches h.nodes (h.rootLinks roots.get) a) ∧
      ((∃ a < h.capacity, ¬ Reaches h.nodes (h.rootLinks roots.get) a) →
        ∃ a h', HeapM.allocate node roots h = (.ok a, h') ∧ a < h.capacity ∧
          ¬ Reaches h.nodes (h.rootLinks roots.get) a) := by
  have ht := (hc.intact hr).traceable
  obtain ⟨halive, hwork, -⟩ := mark_spec hc.addresses hc.size hc.clear ht
  obtain ⟨h', hcollect, hcollects⟩ := hc.collect hr
  have hcleared := hcollects.cleared
  refine ⟨⟨hwork, halive⟩, ⟨h', by rw [HeapM.collect, hcollect], hcleared.size, fun a _ _ => ?_,
    fun a ha => ⟨hcleared.kept a ha, ?_⟩,
    hcollects.live⟩, fun node hw => ?_⟩
  · rw [← hcleared.isAllocated_iff_reaches hc.toTidy hr, Bool.not_eq_true]
  · -- no mark is set before or after, and both have a mark for every node
    have hlt : a < h.capacity := lt_of_isAllocated (hc.reaches_allocated hr ha)
    have hunmarked : ∀ marked : Array Bool, a < marked.size → marked[a]? ≠ some true → marked[a]? = some false := by
      intro marked hsize hmark
      rw [Array.getElem?_eq_getElem hsize] at hmark ⊢
      simpa using hmark
    have hsize' : h'.marked.size = h.capacity := hcleared.marks.trans hcleared.size
    rw [hunmarked h'.marked (hsize' ▸ hlt) (hcleared.clear a), hunmarked h.marked (hc.size ▸ hlt) (hc.clear a)]
  · rcases hc.allocate_cases hr hw with ⟨a, h₁, hrun, hlt, hnot⟩ | ⟨⟨h₁, hrun⟩, hall⟩
    · refine ⟨⟨?_, fun hall => absurd (hall a hlt) hnot⟩, fun _ => ⟨a, h₁, hrun, hlt, hnot⟩⟩
      rintro ⟨h₂, hfail⟩
      rw [hrun] at hfail
      cases hfail
    · refine ⟨⟨fun _ => hall, fun _ => ⟨h₁, hrun⟩⟩, ?_⟩
      rintro ⟨a, hlt, hnot⟩
      exact absurd (hall a hlt) hnot

/-! A collection at work: two knots, one of which is held. -/

/-- A heap with two numbers and two pairs: the first pair holds the first number and itself, the second pair the second
number and itself. One node is free. -/
def knots : Heap where
  nodes := #[.fresh .falsity 0, .fresh .truth 0, .fresh .null 0, .fresh .unassigned 0, .fresh .undefined 0,
    .fresh (.number (.int 1)) 0, .fresh (.number (.int 2)) 0, (Node.fresh .pair 2).withChildren [some 5, some 7],
    (Node.fresh .pair 2).withChildren [some 6, some 8], .vacant none]
  marked := Array.replicate 10 false
  free := some 9
  pins := #[]
  digest := defaultDigest
  pool := ∅
  stats := { allocations := 9 }

theorem knots_isAllocated (a : Nat) : knots.isAllocated a = true ↔ a < 9 := by
  by_cases ha : a < 10
  · have hall : ∀ a < 10, (knots.isAllocated a = true ↔ a < 9) := by decide
    exact hall a ha
  · have hnone : knots.nodes[a]? = none := Array.getElem?_eq_none (Nat.not_lt.mp ha)
    simp only [isAllocated, node?, hnone, Bool.false_eq_true, false_iff]
    omega

theorem knots_consistent : knots.Consistent where
  size := rfl
  addresses := by decide
  clear a := by simp [knots, Array.getElem?_replicate]
  free := by
    refine ⟨[9], .cons (n := .vacant none) rfl rfl .nil, List.nodup_singleton 9, fun (a : Nat) => ?_⟩
    rw [List.mem_singleton, ← Bool.not_eq_true, knots_isAllocated]
    change a = 9 ↔ a < 10 ∧ ¬ a < 9
    omega
  permanent a ha := by
    have hfive : a < 5 := ha
    interval_cases a <;> exact ⟨_, rfl, rfl⟩
  children a n hn _ := by
    have hall : ∀ n ∈ knots.nodes, n.overruns = false ∧ ∀ l ∈ n.traced, ∀ b, l = some b → b < 9 := by
      decide
    obtain ⟨hover, hlt⟩ := hall n (Array.mem_of_getElem? hn)
    exact ⟨hover, fun b hb => (knots_isAllocated b).mpr (hlt _ hb b rfl)⟩
  pins a ha := by simp [knots] at ha
  counted := by
    have hset : {a | knots.isAllocated a = true} = (Finset.range 9 : Set Nat) := by
      ext a
      simpa using knots_isAllocated a
    rw [population, hset, Set.ncard_coe_finset, Finset.card_range]
    rfl

theorem knots_reaches (a : Nat) :
    Reaches knots.nodes (knots.rootLinks [some 7]) a ↔ a ∈ ({0, 1, 2, 3, 4, 5, 7} : Finset Nat) := by
  constructor
  · intro ha
    induction ha with
    | @root a hmem =>
      have hall : ∀ l ∈ knots.rootLinks [some 7], ∀ b, l = some b → b ∈ ({0, 1, 2, 3, 4, 5, 7} : Finset Nat) := by
        decide
      exact hall _ hmem a rfl
    | @child a b n _ hn hb ih =>
      have hall : ∀ a ∈ ({0, 1, 2, 3, 4, 5, 7} : Finset Nat), ∀ n, knots.nodes[a]? = some n →
          ∀ l ∈ n.traced, ∀ b, l = some b → b ∈ ({0, 1, 2, 3, 4, 5, 7} : Finset Nat) := by decide
      exact hall a ih n hn _ hb b rfl
  · intro ha
    have hpair : Reaches knots.nodes (knots.rootLinks [some 7]) 7 := .root (by decide)
    fin_cases ha
    · exact reaches_permanent knots _ (by decide)
    · exact reaches_permanent knots _ (by decide)
    · exact reaches_permanent knots _ (by decide)
    · exact reaches_permanent knots _ (by decide)
    · exact reaches_permanent knots _ (by decide)
    · exact hpair.child rfl (by decide)
    · exact hpair

/-- Of two knots, the one that is not held is freed. -/
theorem Consistent.collection_exact_knots :
    knots.Consistent ∧ knots.Holds [some 7] ∧
      ∃ h', HeapM.collect (Thunk.pure [some 7]) knots = (.ok 2, h') ∧ h'.isAllocated 8 = false ∧
        h'.nodes[7]? = knots.nodes[7]? ∧ h'.stats.live = 2 := by
  have hr : knots.Holds (Thunk.pure [some 7]).get := fun a ha => (knots_isAllocated a).mpr (by
    obtain rfl : a = 7 := by simpa [Thunk.get, Thunk.pure] using ha
    decide)
  obtain ⟨-, ⟨h', hcollect, -, hfree, hkept, hlive⟩, -⟩ :=
    Consistent.collection_exact knots_consistent hr
  have hreach : ∀ a : Nat, Reaches knots.nodes (knots.rootLinks (Thunk.pure [some 7]).get) a ↔
      a ∈ ({0, 1, 2, 3, 4, 5, 7} : Finset Nat) := knots_reaches
  have hdropped :
      {a | knots.isAllocated a = true ∧ ¬ Reaches knots.nodes (knots.rootLinks (Thunk.pure [some 7]).get) a} =
        ({6, 8} : Finset Nat) := by
    ext a
    simp only [Set.mem_ofPred_eq, knots_isAllocated, hreach, Finset.mem_coe]
    refine ⟨fun ⟨hlt, hnot⟩ => ?_, fun ha => ?_⟩
    · interval_cases a <;> first | decide | exact absurd (by decide) hnot
    · fin_cases ha <;> decide
  have hheld : {a | bottom ≤ a ∧ Reaches knots.nodes (knots.rootLinks (Thunk.pure [some 7]).get) a} =
      ({5, 7} : Finset Nat) := by
    ext a
    simp only [Set.mem_ofPred_eq, hreach, Finset.mem_coe]
    refine ⟨fun ⟨hlow, hmem⟩ => ?_, fun ha => ?_⟩
    · fin_cases hmem <;> first | decide | exact absurd hlow (by decide)
    · fin_cases ha <;> decide
  rw [hdropped, Set.ncard_coe_finset] at hcollect
  rw [hheld, Set.ncard_coe_finset] at hlive
  refine ⟨knots_consistent, hr, h', hcollect, (hfree 8 (by decide) (by decide)).mpr ?_, (hkept 7 ?_).1, hlive⟩
  · rw [hreach]
    decide
  · rw [hreach]
    decide

end Tenure.Heap
