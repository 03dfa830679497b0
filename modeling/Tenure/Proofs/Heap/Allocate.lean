import Tenure.Proofs.Heap.Sweep
import Tenure.Proofs.Machine.Steps

/-!
# Allocation

Allocation either gives out a node that could not be reached, on a heap where everything that could be reached is as
before, or fails because every node can be reached: `Heap.allocate_spec`. Which of the two happens is up to what can be
reached alone, never to when the heap was last collected.

In a heap with more nodes than addresses there is a third way for an allocation to end: the free list leads it out of
the arena, `HeapM.Strays`.
-/

set_option autoImplicit false

namespace Tenure

/-- An operation stops because the free list leads it out of the arena. That takes more nodes than addresses. -/
def HeapM.Strays {α : Type} (act : HeapM α) (roots : Roots) (h : Heap) : Prop :=
  ∃ h', act roots h = (.error .crashed, h') ∧ Heap.addressable < h'.nodes.size

theorem HeapM.Strays.bind {α β : Type} {act : HeapM α} {f : α → HeapM β} {roots : Roots} {h : Heap}
    (hact : act.Strays roots h) : (act >>= f).Strays roots h :=
  hact.imp fun _ ⟨hrun, hmany⟩ => ⟨HeapM.bind_error hrun, hmany⟩

theorem HeapM.Strays.after {α β : Type} {act : HeapM α} {f : α → HeapM β} {roots : Roots} {h h' : Heap} {a : α}
    (hact : act roots h = (.ok a, h')) (hf : (f a).Strays roots h') : (act >>= f).Strays roots h :=
  hf.imp fun _ ⟨hrun, hmany⟩ => ⟨(HeapM.bind_ok hact).trans hrun, hmany⟩

theorem HeapM.Strays.pinning {α : Type} {act : HeapM α} {links : List Link} {roots : Roots} {h : Heap}
    (hact : act.Strays roots { h with pins := h.pins ++ links.toArray }) : (HeapM.pinning links act).Strays roots h := by
  obtain ⟨h', hrun, hmany⟩ := hact
  exact ⟨{ h' with pins := h'.pins.extract 0 h.pins.size }, by rw [HeapM.pinning, hrun], hmany⟩

namespace Heap

/-- Every node that can be reached is there, is allocated and has no more children than child words. -/
def Intact (nodes : Array Node) (links : List Link) : Prop :=
  ∀ a, Reaches nodes links a → ∃ n, nodes[a]? = some n ∧ n.overruns = false ∧ n.content ≠ .free

/-- A heap, possibly after a collection, that is about to give out a node. -/
structure Offers (roots : List Link) (h h₁ : Heap) (a : Address) (next : Link) : Prop where
  sound : h₁.Sound
  size : h₁.nodes.size = h.nodes.size
  pins : h₁.pins = h.pins
  digest : h₁.digest = h.digest
  kept : ∀ b : Nat, Reaches h.nodes (h.rootLinks roots) b → h₁.nodes[b]? = h.nodes[b]?
  strings : ∀ b t, IsString h₁.nodes b t → IsString h.nodes b t
  free : h₁.free = some a
  vacant : h₁.nodes[a]? = some (.vacant next)
  unreached : ¬ Reaches h.nodes (h.rootLinks roots) a

/-- The heap after the first node of its free list was given out. -/
def place (h : Heap) (a : Address) (next : Link) (node : Node) : Heap :=
  { h with
    free := next
    nodes := h.nodes.setIfInBounds a node
    marked := h.marked.setIfInBounds a false
    stats := { h.stats with allocations := h.stats.allocations + 1 } }

/-- With an empty free list a node cannot be taken. -/
theorem take_of_empty {h : Heap} (hf : h.free = none) (node : Node) (roots : Roots) :
    HeapM.take node roots h = (.error (.failed .exhausted), h) := by simp [HeapM.take, take?, hf]

/-- A free list that leads out of the arena stops whoever takes a node from it. -/
theorem take_of_outside {h : Heap} {a : Address} (hf : h.free = some a) (ha : h.nodes.size ≤ a) (node : Node)
    (roots : Roots) : HeapM.take node roots h = (.error .crashed, h) := by
  have hnode : h.nodes[a]? = none := Array.getElem?_eq_none ha
  simp [HeapM.take, take?, hf, node?, hnode]

theorem take?_eq {h : Heap} {a : Address} {next : Link} (hf : h.free = some a) (hn : h.nodes[a]? = some (.vacant next))
    (node : Node) : h.take? node = (some a, h.place a next node) := by
  simp [take?, hf, node?, hn, Node.vacant, place]

theorem getElem?_place_self {h : Heap} {a : Address} {n : Node} (hn : h.nodes[a]? = some n) (next : Link) (node : Node) :
    (h.place a next node).nodes[a]? = some node :=
  Array.getElem?_setIfInBounds_self_of_lt (Array.getElem?_eq_some_iff.mp hn).1

theorem getElem?_place_ne {a b : Address} (hne : b ≠ a) (h : Heap) (next : Link) (node : Node) :
    (h.place a next node).nodes[b]? = h.nodes[b]? :=
  Array.getElem?_setIfInBounds_ne (Ne.symm hne)

/-- A node of the heap after a node was given out is that one, or was there before. -/
theorem getElem?_place_cases {h : Heap} {a b : Address} {n m : Node} (hn : h.nodes[a]? = some n) (next : Link)
    (node : Node) (hm : (h.place a next node).nodes[b]? = some m) : m = node ∨ h.nodes[b]? = some m := by
  by_cases hba : b = a
  · subst hba
    exact .inl (Option.some.inj (hm.symm.trans (getElem?_place_self hn next node)))
  · exact .inr ((getElem?_place_ne hba h next node).symm.trans hm)

/-- Apart from the pool, a heap stays sound when a node is given out. -/
theorem place_frame {h : Heap} (hs : h.Sound) {a : Address} {next : Link} (hf : h.free = some a)
    (hn : h.nodes[a]? = some (.vacant next)) (node : Node) :
    (h.place a next node).marked.size = (h.place a next node).nodes.size ∧
      (∀ b : Address, (h.place a next node).marked[b]? ≠ some true) ∧
      ∃ stop l, End (h.place a next node).nodes.size stop ∧
        Chain (h.place a next node).nodes stop (h.place a next node).free l ∧ l.Nodup ∧ ∀ b ∈ l, bottom ≤ b := by
  refine ⟨by simp [place, hs.size], fun b => ?_, ?_⟩
  · simp only [place, Array.getElem?_setIfInBounds]
    split
    · split <;> simp
    · exact hs.clear b
  · obtain ⟨stop, l, hstop, hl, hd, hb⟩ := hs.free
    rw [hf] at hl
    cases hl with
    | nil =>
      cases hstop with
      | outside _ ha =>
        have hnone : h.nodes[a]? = none := Array.getElem?_eq_none ha
        cases hnone.symm.trans hn
    | @cons _ next' rest ha hrest =>
      have hnext : next' = next := by
        have := Option.some.inj (ha.symm.trans hn)
        exact congrArg Node.next this
      subst hnext
      obtain ⟨hnot, hd'⟩ := List.nodup_cons.mp hd
      refine ⟨stop, rest, by simpa [place] using hstop, hrest.congr fun b hb' => ?_, hd',
        fun b hb' => hb b (by simp [hb'])⟩
      have hne : b ≠ a := by
        rintro rfl
        exact hnot hb'
      exact getElem?_place_ne hne h next' node

/-- The pool stays right as long as the string nodes, the texts and the pool itself are the same. -/
theorem Pooled.of_strings {h h' : Heap} (hp : h.Pooled) (hpool : h'.pool = h.pool) (hdigest : h'.digest = h.digest)
    (hstring : ∀ b t, IsString h'.nodes b t ↔ IsString h.nodes b t)
    (hleaf : ∀ (b : Address) (n : Node) (t : Text), h'.nodes[b]? = some n → n.content = .string t → n.slots = 0) :
    h'.Pooled := by
  have hbucket : ∀ key, h'.bucket key = h.bucket key := fun key => by rw [bucket, hpool, bucket]
  refine ⟨fun key => hbucket key ▸ hp.nodup key, fun key b => ?_, fun b c t hb hc => ?_, hleaf⟩
  · rw [hbucket, hp.mem, hdigest]
    exact exists_congr fun t => and_congr_left fun _ => (hstring b t).symm
  · exact hp.unique b c t ((hstring b t).mp hb) ((hstring c t).mp hc)

/-- A node that is no string is replaced by another one that is none. -/
theorem Pooled.setNode {h : Heap} (hp : h.Pooled) {a : Address} {n : Node} (hold : ∀ t, ¬ IsString h.nodes a t)
    (hnew : ∀ t, n.content ≠ .string t) : (h.setNode a n).Pooled := by
  refine hp.of_strings rfl rfl (fun b t => ?_) fun b m t hm hc => ?_
  · refine (isString_set hnew).trans ⟨And.left, fun hb => ⟨hb, ?_⟩⟩
    rintro rfl
    exact hold t hb
  · have hne := ((isString_set hnew).mp ⟨m, hm, hc⟩).2
    exact hp.leaf b m t ((Array.getElem?_setIfInBounds_ne (Ne.symm hne)).symm.trans hm) hc

/-- A node that is no string is replaced by one for a text that has none yet, and the node is pooled. -/
theorem Pooled.remember {h : Heap} (hp : h.Pooled) {a : Address} {n : Node} {t : Text} (hn : h.nodes[a]? = some n)
    (hold : ∀ t, n.content ≠ .string t) (hnew : ∀ b, ¬ IsString h.nodes b t) :
    ((h.setNode a (.fresh (.string t) 0)).remember t a).Pooled := by
  have hother : ∀ b t', b ≠ a → (IsString (h.setNode a (.fresh (.string t) 0)).nodes b t' ↔ IsString h.nodes b t') :=
    fun b t' hne => by rw [IsString, Heap.setNode, Array.getElem?_setIfInBounds_ne (Ne.symm hne), IsString]
  have hget : (h.setNode a (.fresh (.string t) 0)).nodes[a]? = some (.fresh (.string t) 0) :=
    Array.getElem?_setIfInBounds_self_of_lt (Array.getElem?_eq_some_iff.mp hn).1
  have hself : ∀ t', IsString (h.setNode a (.fresh (.string t) 0)).nodes a t' ↔ t' = t := by
    intro t'
    rw [IsString, hget]
    simp [Node.fresh, eq_comm]
  have hnot : ∀ key, a ∉ h.bucket key := by
    intro key ha
    obtain ⟨t', ⟨m, hm, hc⟩, -⟩ := (hp.mem key a).mp ha
    obtain rfl := Option.some.inj (hn.symm.trans hm)
    exact hold t' hc
  have hbucket : ∀ key, (h.setNode a (.fresh (.string t) 0)).bucket key = h.bucket key := fun _ => rfl
  have hdigest : (h.setNode a (.fresh (.string t) 0)).digest = h.digest := rfl
  refine ⟨fun key => ?_, fun key b => ?_, fun b c t' hb hc => ?_, fun b m t' hm hc => ?_⟩
  · rw [bucket_remember, hbucket]
    split
    · exact List.Nodup.append (hp.nodup key) (List.nodup_singleton a) (by simpa using hnot key)
    · exact hp.nodup key
  · rw [bucket_remember, hbucket, hdigest]
    change _ ↔ ∃ t', IsString (h.setNode a (.fresh (.string t) 0)).nodes b t' ∧ h.digest t' = key
    by_cases hba : b = a
    · subst hba
      simp only [hself]
      constructor
      · intro hb
        split at hb
        next hk => exact ⟨t, rfl, hk⟩
        · exact absurd hb (hnot key)
      · rintro ⟨_, rfl, hk⟩
        simp [hk]
    · have hmem : b ∈ (if h.digest t = key then h.bucket key ++ [a] else h.bucket key) ↔ b ∈ h.bucket key := by
        split <;> simp [hba]
      rw [hmem, hp.mem]
      exact exists_congr fun t' => and_congr_left fun _ => (hother b t' hba).symm
  · change IsString (h.setNode a (.fresh (.string t) 0)).nodes b t' at hb
    change IsString (h.setNode a (.fresh (.string t) 0)).nodes c t' at hc
    by_cases hba : b = a
    · by_cases hca : c = a
      · rw [hba, hca]
      · rw [hba, hself] at hb
        rw [hother c t' hca, hb] at hc
        exact absurd hc (hnew c)
    · rw [hother b t' hba] at hb
      by_cases hca : c = a
      · rw [hca, hself] at hc
        rw [hc] at hb
        exact absurd hb (hnew b)
      · exact hp.unique b c t' hb ((hother c t' hca).mp hc)
  · change (h.nodes.setIfInBounds a (.fresh (.string t) 0))[b]? = some m at hm
    by_cases hba : b = a
    · subst hba
      obtain rfl := Option.some.inj (hget.symm.trans hm)
      rfl
    · rw [Array.getElem?_setIfInBounds_ne (Ne.symm hba)] at hm
      exact hp.leaf b m t' hm hc

/-- A sound heap stays sound when a node that is no string is given out. -/
theorem Sound.place {h : Heap} (hs : h.Sound) {a : Address} {next : Link} (hf : h.free = some a)
    (hn : h.nodes[a]? = some (.vacant next)) {node : Node} (hnode : ∀ t, node.content ≠ .string t) :
    (h.place a next node).Sound := by
  obtain ⟨h₁, h₂, h₃⟩ := place_frame hs hf hn node
  have hold : ∀ t, ¬ IsString h.nodes a t := by
    rintro t ⟨n, hn', hc⟩
    obtain rfl := Option.some.inj (hn.symm.trans hn')
    cases hc
  exact ⟨h₁, h₂, h₃, (hs.pooled.setNode hold hnode).congr rfl rfl rfl⟩

/-- A sound heap stays sound when a node is given out for a text that has none and is pooled. -/
theorem Sound.place_string {h : Heap} (hs : h.Sound) {a : Address} {next : Link} (hf : h.free = some a)
    (hn : h.nodes[a]? = some (.vacant next)) {t : Text} (hnew : ∀ b, ¬ IsString h.nodes b t) :
    ((h.place a next (.fresh (.string t) 0)).remember t a).Sound := by
  obtain ⟨h₁, h₂, h₃⟩ := place_frame hs hf hn (.fresh (.string t) 0)
  exact ⟨h₁, h₂, h₃, (hs.pooled.remember hn (by simp [Node.vacant]) hnew).congr rfl rfl rfl⟩

/-- A sound heap stays sound when a node that is no string gets other children. -/
theorem Sound.setNode {h : Heap} (hs : h.Sound) {a : Address} {n n' : Node} (hn : h.nodes[a]? = some n)
    (hc : n'.content = n.content) (hfree : n.content ≠ .free) (hstring : ∀ t, n.content ≠ .string t) :
    (h.setNode a n').Sound := by
  have hold : ∀ t, ¬ IsString h.nodes a t := by
    rintro t ⟨m, hm, hmc⟩
    obtain rfl := Option.some.inj (hn.symm.trans hm)
    exact hstring t hmc
  refine ⟨by simpa [Heap.setNode] using hs.size, hs.clear, ?_, hs.pooled.setNode hold (hc ▸ hstring)⟩
  obtain ⟨stop, l, hstop, hl, hd, hb⟩ := hs.free
  refine ⟨stop, l, by simpa [Heap.setNode] using hstop, hl.congr fun b hb' => ?_, hd, hb⟩
  have hne : a ≠ b := by
    rintro rfl
    obtain ⟨next, hv⟩ := hl.vacant hb'
    obtain rfl := Option.some.inj (hn.symm.trans hv)
    exact hfree rfl
  exact Array.getElem?_setIfInBounds_ne hne

theorem Intact.traceable {nodes : Array Node} {links : List Link} (hi : Intact nodes links) : Traceable nodes links := by
  intro a ha
  obtain ⟨n, hn, ho, -⟩ := hi a ha
  exact ⟨n, hn, ho⟩

theorem Intact.not_vacant {nodes : Array Node} {links : List Link} (hi : Intact nodes links) {a : Address} {next : Link}
    (hn : nodes[a]? = some (.vacant next)) : ¬ Reaches nodes links a := by
  intro ha
  obtain ⟨n, hn', -, hc⟩ := hi a ha
  obtain rfl := Option.some.inj (hn.symm.trans hn')
  exact hc rfl

theorem allocate_of_free {h : Heap} {a : Address} {node : Node} {roots : Roots} (hw : wordsFor node.slots ≤ nodeWords)
    (hf : h.free = some a) : HeapM.allocate node roots h = HeapM.take node roots h := by
  simp [HeapM.allocate, Int.not_lt.mpr hw, hf]

theorem allocate_of_collect {h h' : Heap} {node : Node} {roots : Roots} {freed : Nat}
    (hw : wordsFor node.slots ≤ nodeWords) (hf : h.free = none) (hcollect : h.collect roots.get = (some freed, h')) :
    HeapM.allocate node roots h = HeapM.take node roots h' := by
  have hrun : HeapM.collect roots h = (.ok freed, h') := by rw [HeapM.collect, hcollect]
  simp only [HeapM.allocate, Int.not_lt.mpr hw, if_false, HeapM.get_bind_apply, hf, Option.isNone_none, if_true]
  exact HeapM.bind_ok hrun

theorem allocate_of_crash {h h' : Heap} {node : Node} {roots : Roots} (hw : wordsFor node.slots ≤ nodeWords)
    (hf : h.free = none) (hcollect : h.collect roots.get = (none, h')) :
    HeapM.allocate node roots h = (.error .crashed, h') := by
  have hrun : HeapM.collect roots h = (.error .crashed, h') := by rw [HeapM.collect, hcollect]
  simp only [HeapM.allocate, Int.not_lt.mpr hw, if_false, HeapM.get_bind_apply, hf, Option.isNone_none, if_true]
  exact HeapM.bind_error hrun

/-- A sound heap with an empty free list has no more nodes than addresses. -/
theorem Sound.few_of_empty {h : Heap} (hs : h.Sound) (hf : h.free = none) : h.nodes.size ≤ addressable := by
  obtain ⟨stop, l, hstop, hl, -, -⟩ := hs.free
  rw [hf] at hl
  cases hl
  cases hstop with
  | empty hfew => exact hfew

/-- The free list of a sound heap leads to a vacant node, or out of an arena with more nodes than addresses. -/
theorem Sound.free_cases {h : Heap} (hs : h.Sound) {a : Address} (hf : h.free = some a) :
    (∃ next, h.nodes[a]? = some (.vacant next)) ∨ addressable < h.nodes.size ∧ h.nodes.size ≤ a := by
  obtain ⟨stop, l, hstop, hl, -, -⟩ := hs.free
  rw [hf] at hl
  cases hl with
  | nil =>
    cases hstop with
    | outside hmany ha => exact .inr ⟨hmany, ha⟩
  | cons hn _ => exact .inl ⟨_, hn⟩

/-- Allocation gives out a node that could not be reached, strays, or fails because every node can be reached. -/
theorem allocate_spec {h : Heap} {roots : Roots} (hs : h.Sound) (hi : Intact h.nodes (h.rootLinks roots.get))
    {node : Node} (hw : wordsFor node.slots ≤ nodeWords) :
    (∃ h₁ a next, HeapM.allocate node roots h = (.ok a, h₁.place a next node) ∧ Offers roots.get h h₁ a next) ∨
      (HeapM.allocate node).Strays roots h ∨
      (∃ h₁, HeapM.allocate node roots h = (.error (.failed .exhausted), h₁)) ∧
        ∀ a < h.nodes.size, Reaches h.nodes (h.rootLinks roots.get) a := by
  cases hf : h.free with
  | some a =>
    rcases hs.free_cases hf with ⟨next, hn⟩ | ⟨hmany, ha⟩
    · refine .inl ⟨h, a, next, ?_, hs, rfl, rfl, rfl, fun _ _ => rfl, fun _ _ hb => hb, hf, hn, hi.not_vacant hn⟩
      rw [allocate_of_free hw hf, HeapM.take, take?_eq hf hn]
    · exact .inr (.inl ⟨h, by rw [allocate_of_free hw hf, take_of_outside hf ha], hmany⟩)
  | none =>
    obtain ⟨freed, h', hcollect, hc⟩ := collect_spec (hs.few_of_empty hf) hs hi.traceable
    have halloc : HeapM.allocate node roots h = HeapM.take node roots h' := allocate_of_collect hw hf hcollect
    obtain ⟨l, hl, hmem⟩ := hc.chain
    cases hfree : h'.free with
    | none =>
      rw [hfree] at hl
      cases hl
      refine .inr (.inr ⟨⟨h', by rw [halloc, take_of_empty hfree]⟩, fun a ha => ?_⟩)
      by_contra hr
      exact absurd ((hmem a).mpr ⟨ha, hr⟩) (by simp)
    | some a =>
      rw [hfree] at hl
      cases hl with
      | @cons _ next rest hn _ =>
        refine .inl ⟨h', a, next, ?_, hc.sound, hc.size, hc.pins, hc.digest, hc.kept, hc.strings, hfree, hn,
          ((hmem a).mp (by simp)).2⟩
        rw [halloc, HeapM.take, take?_eq hfree hn]

/-! ## Pooled texts -/

theorem textAt_of_isString {h : Heap} {a : Address} {t : Text} (ha : IsString h.nodes a t) : h.textAt a = t := by
  obtain ⟨n, hn, hc⟩ := ha
  simp [textAt, node?, hn, hc, Content.toText]

/-- The pool finds the node of a text. -/
theorem Pooled.isString_of_findText? {h : Heap} (hp : h.Pooled) {t : Text} {a : Address} (ha : h.findText? t = some a) :
    IsString h.nodes a t := by
  obtain ⟨t', ht', -⟩ := (hp.mem _ a).mp (List.mem_of_find?_eq_some ha)
  have htext : h.textAt a = t := by simpa using List.find?_some ha
  rw [textAt_of_isString ht'] at htext
  exact htext ▸ ht'

/-- The pool finds a node for every text that has one. -/
theorem Pooled.findText?_none {h : Heap} (hp : h.Pooled) {t : Text} (ht : h.findText? t = none) (a : Address) :
    ¬ IsString h.nodes a t := by
  intro ha
  have hmem : a ∈ h.bucket (h.digest t) := (hp.mem _ a).mpr ⟨t, ha, rfl⟩
  have := List.find?_eq_none.mp ht a hmem
  exact this (by simpa using textAt_of_isString ha)

end Heap

end Tenure
