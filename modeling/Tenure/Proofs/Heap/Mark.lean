import Mathlib.Data.List.Count
import Tenure.Heap.Collect

/-!
# Marking

A collection marks exactly the nodes that can be reached: `Heap.mark_spec`. Visiting keeps the marks within what can be
reached and puts every newly marked node onto the work list; a marked node that is no longer on the list has only
marked children. Every round takes one node off the list, and a node gets onto it only when its mark is set, so there
are enough rounds.
-/

set_option autoImplicit false

namespace Tenure.Heap

/-- The nodes that can be reached from links. -/
inductive Reaches (nodes : Array Node) (links : List Link) : Address → Prop where
  | root {a : Address} (h : some a ∈ links) : Reaches nodes links a
  | child {a b : Address} {n : Node} (ha : Reaches nodes links a) (hn : nodes[a]? = some n)
    (hb : some b ∈ n.traced) : Reaches nodes links b

/-- Every node that can be reached is there and has no more children than child words. -/
def Traceable (nodes : Array Node) (links : List Link) : Prop :=
  ∀ a, Reaches nodes links a → ∃ n, nodes[a]? = some n ∧ n.overruns = false

namespace Marking

/-- The node at an address is marked. -/
def Marked (m : Marking) (a : Address) : Prop := m.marked[a]? = some true

/-- How many nodes are still to be visited: the unmarked ones and those on the work list. -/
def pending (m : Marking) : Nat := m.marked.count false + m.work.length

/-- A marking in progress that has marked only what can be reached. -/
structure Good (nodes : Array Node) (links : List Link) (m : Marking) : Prop where
  size : m.marked.size = nodes.size
  alive : m.crashed = false
  sound : ∀ a, m.Marked a → Reaches nodes links a
  work : ∀ a ∈ m.work, m.Marked a

/-- What visiting leads to: more marks, and the newly marked nodes on the work list. -/
structure Later (m m' : Marking) : Prop where
  marked : ∀ a, m.Marked a → m'.Marked a
  settled : ∀ a, m'.Marked a → a ∉ m'.work → m.Marked a ∧ a ∉ m.work
  pending : m'.pending = m.pending

variable {nodes : Array Node} {links : List Link} {m m' m'' : Marking}

theorem mark?_of_lt {a : Address} (ha : a < addressable) : m.mark? a = m.marked[a]? := if_pos ha

theorem Later.refl (m : Marking) : m.Later m := ⟨fun _ h => h, fun _ h hw => ⟨h, hw⟩, rfl⟩

theorem Later.trans (h : m.Later m') (h' : m'.Later m'') : m.Later m'' where
  marked a ha := h'.marked a (h.marked a ha)
  settled a ha hw := by
    obtain ⟨ha', hw'⟩ := h'.settled a ha hw
    exact h.settled a ha' hw'
  pending := h'.pending.trans h.pending

/-- Visiting a link to a node that can be reached marks that node. -/
theorem visit_spec (hfew : nodes.size ≤ addressable) (hm : m.Good nodes links) (ht : Traceable nodes links) {l : Link}
    (hl : ∀ a, l = some a → Reaches nodes links a) :
    (m.visit l).Good nodes links ∧ m.Later (m.visit l) ∧ ∀ a, l = some a → (m.visit l).Marked a := by
  cases l with
  | none => exact ⟨hm, .refl m, by simp⟩
  | some a =>
    obtain ⟨n, hn, -⟩ := ht a (hl a rfl)
    have hlt : a < m.marked.size := hm.size ▸ (Array.getElem?_eq_some_iff.mp hn).1
    have halive : m.crashed ≠ true := by simp [hm.alive]
    have haddress : a < addressable := Nat.lt_of_lt_of_le (hm.size ▸ hlt) hfew
    rw [visit, if_neg halive, mark?_of_lt haddress]
    cases hmark : m.marked[a] with
    | true =>
      have hget : m.marked[a]? = some true := by rw [Array.getElem?_eq_getElem hlt, hmark]
      simp only [hget]
      exact ⟨hm, .refl m, by simp [Marked, hget]⟩
    | false =>
      have hget : m.marked[a]? = some false := by rw [Array.getElem?_eq_getElem hlt, hmark]
      simp only [hget]
      have hset : ∀ b, (m.marked.setIfInBounds a true)[b]? = some true ↔ b = a ∨ m.marked[b]? = some true := by
        intro b
        rw [Array.getElem?_setIfInBounds]
        by_cases hab : a = b
        · simp [hab, hab ▸ hlt]
        · simp [hab, Ne.symm hab]
      refine ⟨⟨by simpa using hm.size, hm.alive, ?_, ?_⟩, ⟨?_, ?_, ?_⟩, ?_⟩
      · intro b hb
        rcases (hset b).mp hb with rfl | hb
        · exact hl b rfl
        · exact hm.sound b hb
      · intro b hb
        rcases List.mem_cons.mp hb with rfl | hb
        · exact (hset b).mpr (.inl rfl)
        · exact (hset b).mpr (.inr (hm.work b hb))
      · intro b hb
        exact (hset b).mpr (.inr hb)
      · intro b hb hw
        simp only [List.mem_cons, not_or] at hw
        exact ⟨((hset b).mp hb).resolve_left hw.1, hw.2⟩
      · have hpos : 0 < m.marked.count false := by
          rw [Array.count_pos_iff]
          exact hmark ▸ Array.getElem_mem hlt
        simp only [pending, Array.setIfInBounds_def, dif_pos hlt, Array.count_set, hmark, List.length_cons]
        simp
        omega
      · rintro b h
        cases h
        exact (hset a).mpr (.inl rfl)

/-- Visiting links to nodes that can be reached marks those nodes. -/
theorem visitAll_spec (hfew : nodes.size ≤ addressable) (hm : m.Good nodes links) (ht : Traceable nodes links)
    (ls : List Link) (hl : ∀ a, some a ∈ ls → Reaches nodes links a) :
    (m.visitAll ls).Good nodes links ∧ m.Later (m.visitAll ls) ∧ ∀ a, some a ∈ ls → (m.visitAll ls).Marked a := by
  induction ls generalizing m with
  | nil => exact ⟨hm, .refl m, by simp⟩
  | cons l rest ih =>
    obtain ⟨hgood, hlater, hmarked⟩ := visit_spec hfew hm ht (l := l) (fun a ha => hl a (by simp [ha]))
    obtain ⟨hgood', hlater', hmarked'⟩ := ih hgood (fun a ha => hl a (by simp [ha]))
    refine ⟨hgood', hlater.trans hlater', fun a ha => ?_⟩
    rcases List.mem_cons.mp ha with ha | ha
    · exact hlater'.marked a (hmarked a ha.symm)
    · exact hmarked' a ha

/-- Marked nodes that are not on the work list have only marked children. -/
def Closed (nodes : Array Node) (m : Marking) : Prop :=
  ∀ a n b, m.Marked a → a ∉ m.work → nodes[a]? = some n → some b ∈ n.traced → m.Marked b

/-- Draining the work list marks the children of all marked nodes. -/
theorem drain_spec (hfew : nodes.size ≤ addressable) (ht : Traceable nodes links) {fuel : Nat}
    (hm : m.Good nodes links) (hc : m.Closed nodes) (hfuel : m.pending ≤ fuel) :
    (drain nodes (fuel + 1) m).Good nodes links ∧ (drain nodes (fuel + 1) m).Closed nodes ∧
      (drain nodes (fuel + 1) m).work = [] ∧ ∀ a, m.Marked a → (drain nodes (fuel + 1) m).Marked a := by
  induction fuel generalizing m with
  | zero =>
    have hwork : m.work = [] := List.eq_nil_of_length_eq_zero (by unfold pending at hfuel; omega)
    rw [drain, if_neg (by simp [hm.alive]), hwork]
    exact ⟨hm, hc, hwork, fun _ h => h⟩
  | succ fuel ih =>
    rw [drain, if_neg (by simp [hm.alive])]
    cases hwork : m.work with
    | nil => exact ⟨hm, hc, hwork, fun _ h => h⟩
    | cons a rest =>
      have ha : m.Marked a := hm.work a (by simp [hwork])
      obtain ⟨n, hn, hover⟩ := ht a (hm.sound a ha)
      have hm' : ({ m with work := rest } : Marking).Good nodes links :=
        ⟨hm.size, hm.alive, hm.sound, fun b hb => hm.work b (by simp [hwork, hb])⟩
      obtain ⟨hgood, hlater, hmarked⟩ := visitAll_spec hfew hm' ht n.traced
        (fun b hb => (hm.sound a ha).child hn hb)
      simp only [hn, hover, Bool.false_eq_true, if_false]
      -- only the node taken off the list could have unmarked children, and these were just visited
      have hclosed : (({ m with work := rest } : Marking).visitAll n.traced).Closed nodes := by
        intro b n' c hb hbw hn' hc'
        obtain ⟨hb', hbw'⟩ := hlater.settled b hb hbw
        by_cases hba : b = a
        · subst hba
          obtain rfl : n = n' := Option.some.inj (hn.symm.trans hn')
          exact hmarked c hc'
        · exact hlater.marked c (hc b n' c hb' (by simp only [hwork, List.mem_cons, not_or]; exact ⟨hba, hbw'⟩) hn' hc')
      have hpending : (({ m with work := rest } : Marking).visitAll n.traced).pending ≤ fuel := by
        rw [hlater.pending]
        simp only [pending, hwork, List.length_cons] at hfuel ⊢
        omega
      obtain ⟨h₁, h₂, h₃, h₄⟩ := ih hgood hclosed hpending
      exact ⟨h₁, h₂, h₃, fun b hb => h₄ b (hlater.marked b hb)⟩

/-- No visit marks a node that has no address. -/
theorem visit_unaddressed {a : Address} (ha : addressable ≤ a) (m : Marking) (l : Link) :
    (m.visit l).marked[a]? = m.marked[a]? := by
  cases l with
  | none => rfl
  | some b =>
    simp only [visit]
    split
    · rfl
    · split
      · rfl
      · rfl
      next hmark =>
        have hb : b < addressable := by
          by_contra hb
          simp [mark?, hb] at hmark
        exact Array.getElem?_setIfInBounds_ne (Nat.ne_of_lt (Nat.lt_of_lt_of_le hb ha))

theorem visitAll_unaddressed {a : Address} (ha : addressable ≤ a) (m : Marking) (ls : List Link) :
    (m.visitAll ls).marked[a]? = m.marked[a]? := by
  induction ls generalizing m with
  | nil => rfl
  | cons l rest ih => exact (ih (m.visit l)).trans (visit_unaddressed ha m l)

theorem drain_unaddressed {a : Address} (ha : addressable ≤ a) (nodes : Array Node) (fuel : Nat) (m : Marking) :
    (drain nodes fuel m).marked[a]? = m.marked[a]? := by
  induction fuel generalizing m with
  | zero => rfl
  | succ fuel ih =>
    rw [drain]
    split
    · rfl
    split
    · rfl
    next b rest _ =>
      rw [ih]
      cases nodes[b]? with
      | none => rfl
      | some n =>
        have hvisited := visitAll_unaddressed ha { m with work := rest } n.traced
        simp only
        split <;> exact hvisited

end Marking

/-- Marking leaves the marks of nodes that have no address as they were. -/
theorem mark_unaddressed {a : Address} (ha : addressable ≤ a) (h : Heap) (roots : List Link) :
    (h.mark roots).marked[a]? = h.marked[a]? := by
  simp only [mark, Marking.drain_unaddressed ha, Marking.visitAll_unaddressed ha]

/-- The links from which a collection traces. -/
def rootLinks (h : Heap) (roots : List Link) : List Link := permanentLinks ++ h.pins.toList ++ roots

/-- A collection marks exactly the nodes that can be reached, and it comes to its end because no node is left to
visit. -/
theorem mark_spec {h : Heap} {roots : List Link} (hfew : h.nodes.size ≤ addressable)
    (hsize : h.marked.size = h.nodes.size) (hclear : ∀ a : Address, h.marked[a]? ≠ some true)
    (ht : Traceable h.nodes (h.rootLinks roots)) :
    (h.mark roots).crashed = false ∧ (h.mark roots).work = [] ∧ (h.mark roots).marked.size = h.nodes.size ∧
      ∀ a : Address, (h.mark roots).marked[a]? = some true ↔ Reaches h.nodes (h.rootLinks roots) a := by
  have hstart : (⟨h.marked, [], false⟩ : Marking).Good h.nodes (h.rootLinks roots) :=
    ⟨hsize, rfl, fun a ha => absurd ha (hclear a), by simp⟩
  have hall : ((((⟨h.marked, [], false⟩ : Marking).visitAll permanentLinks).visitAll h.pins.toList).visitAll roots) =
      (⟨h.marked, [], false⟩ : Marking).visitAll (h.rootLinks roots) := by
    simp [Marking.visitAll, rootLinks, List.foldl_append]
  obtain ⟨hgood, hlater, hmarked⟩ := Marking.visitAll_spec hfew hstart ht (h.rootLinks roots) (fun a ha => .root ha)
  have hclosed : ((⟨h.marked, [], false⟩ : Marking).visitAll (h.rootLinks roots)).Closed h.nodes := by
    intro a n b ha hw
    exact absurd (hlater.settled a ha hw).1 (hclear a)
  have hpending : ((⟨h.marked, [], false⟩ : Marking).visitAll (h.rootLinks roots)).pending ≤ h.nodes.size := by
    rw [hlater.pending, Marking.pending, ← hsize]
    simpa using Array.count_le_size
  obtain ⟨hfinal, hfinalClosed, hwork, hkept⟩ := Marking.drain_spec hfew ht hgood hclosed hpending
  have hmark : h.mark roots = Marking.drain h.nodes (h.nodes.size + 1)
      ((⟨h.marked, [], false⟩ : Marking).visitAll (h.rootLinks roots)) := by rw [mark, hall]
  rw [hmark]
  refine ⟨hfinal.alive, hwork, hfinal.size, fun a => ⟨hfinal.sound a, fun ha => ?_⟩⟩
  induction ha with
  | root hr => exact hkept _ (hmarked _ hr)
  | child _ hn hb ih => exact hfinalClosed _ _ _ ih (by simp [hwork]) hn hb

end Tenure.Heap
