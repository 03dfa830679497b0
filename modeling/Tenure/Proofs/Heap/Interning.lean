import Tenure.Proofs.Heap.Operations
import Tenure.Proofs.Machine.Keeps

/-!
# Interned strings

There is never more than one node for a text, and the pool finds it: `Heap.Canonical`. The invariant behind this,
`Heap.Interned`, says only that the free list is made of free nodes that are all different and that the pool is right.
It asks nothing of the pins, of the children of nodes, and of the marks of nodes that have an address, so every operation
keeps it, whatever its arguments and its roots are and even if it crashes: `Heap.interned_kept`.

A collection in the middle of making a string node may take pooled strings away, but never brings any, so the text still
has no node when the new node is pooled: `Heap.Interned.allocate_string`.
-/

set_option autoImplicit false

namespace Tenure

namespace Heap

variable {h : Heap} {roots : Roots} {a : Address} {n : Node} {t u : Text}

/-- A heap whose free list and pool are right, whatever its pins are. Marks may be left over from a marking that crashed,
but the first node without an address is never marked, so a sweep cuts the free list there. -/
structure Interned (h : Heap) : Prop where
  room : bottom ≤ h.nodes.size
  limit : h.nodes.size ≤ maxNodes
  unmarked : h.marked[addressable]? ≠ some true
  free : ∃ stop l, End h.nodes.size stop ∧ FreeList h.nodes stop h.free l ∧ l.Nodup
  pooled : h.Pooled

theorem IsString.text_eq (ht : IsString h.nodes a t) (hu : IsString h.nodes a u) : t = u := by
  obtain ⟨n, hn, hc⟩ := ht
  obtain ⟨m, hm, hc'⟩ := hu
  obtain rfl := Option.some.inj (hn.symm.trans hm)
  exact Content.string.inj (hc.symm.trans hc')

theorem content_ne_string_of_kind (hkind : n.kind = .free) (t : Text) : n.content ≠ .string t := by
  intro hc
  rw [Node.kind, hc] at hkind
  cases hkind

namespace Interned

theorem of_eq {h' : Heap} (hi : h.Interned) (hnodes : h'.nodes = h.nodes)
    (hmarked : h'.marked[addressable]? = h.marked[addressable]?) (hfree : h'.free = h.free)
    (hpool : h'.pool = h.pool) (hdigest : h'.digest = h.digest) : h'.Interned where
  room := hnodes ▸ hi.room
  limit := hnodes ▸ hi.limit
  unmarked := hmarked ▸ hi.unmarked
  free := hnodes ▸ hfree ▸ hi.free
  pooled := hi.pooled.congr hnodes hpool hdigest

/-! ## Collections -/

/-- A collection of whatever marks frees nodes and brings no strings. If its marking comes to an end, the free list is
made anew. -/
theorem collect_strings (hi : h.Interned) (roots : List Link) :
    (h.collect roots).2.Interned ∧ ∀ b t, IsString (h.collect roots).2.nodes b t → IsString h.nodes b t := by
  have hlow : bottom ≤ addressable := by decide
  have hunmarked : (h.mark roots).marked[addressable]? ≠ some true := by
    rw [mark_unaddressed le_rfl]
    exact hi.unmarked
  cases halive : (h.mark roots).crashed with
  | true =>
    have hcollect : h.collect roots = (none, { h with marked := (h.mark roots).marked }) := by simp [collect, halive]
    rw [hcollect]
    exact ⟨hi.of_eq rfl (mark_unaddressed le_rfl h roots) rfl rfl rfl, fun b t hb => hb⟩
  | false =>
    have hupper : bottom + (h.nodes.size - bottom) = h.nodes.size := Nat.add_sub_cancel' hi.room
    have hswept : Swept h.nodes.size { h with marked := (h.mark roots).marked, free := none } (h.swept roots).heap := by
      have hdown := down_swept (h.nodes.size - bottom)
        ⟨{ h with marked := (h.mark roots).marked, free := none }, 0, 0⟩ (Nat.le_of_eq hupper)
      rwa [hupper] at hdown
    rw [collect_eq halive]
    generalize h.swept roots = s at hswept ⊢
    refine ⟨⟨hswept.size ▸ hi.room, hswept.size ▸ hi.limit, fun hmark => ?_, ?_, ?_⟩, ?_⟩
    · simp only at hmark
      have hlast := (clearPermanent_marked hmark).2
      by_cases hin : addressable < h.nodes.size
      · exact hswept.clear addressable hlow hin hlast
      · exact hunmarked ((hswept.outside addressable (by omega)).2.symm.trans hlast)
    · rcases Nat.lt_or_ge addressable h.nodes.size with hmany | hfew
      · obtain ⟨l, hchain, hnodup, -⟩ := hswept.outside_chain hmany hunmarked
        exact ⟨_, l, hswept.size.symm ▸ .of_outside hmany hi.limit, hchain.freeList, hnodup⟩
      · obtain ⟨l, hchain, hnodup, -⟩ := hswept.chain hfew none [] .nil List.nodup_nil (by simp)
        exact ⟨none, l, hswept.size.symm ▸ .empty hfew, hchain.freeList, hnodup⟩
    · exact (hswept.pooled (hi.pooled.congr rfl rfl rfl)).congr rfl rfl rfl
    · rintro (b : Nat) t ⟨m, hm, hc⟩
      by_cases hin : b ≥ bottom ∧ b < h.nodes.size
      · by_cases hmark : (h.mark roots).marked[b]? = some true
        · exact ⟨m, (hswept.kept b hin.1 hin.2 hmark).symm.trans hm, hc⟩
        · obtain ⟨next, hvacant⟩ := hswept.vacant b hin.1 hin.2 hmark
          obtain rfl := Option.some.inj (hm.symm.trans hvacant)
          cases hc
      · exact ⟨m, (hswept.outside b (by omega)).1.symm.trans hm, hc⟩

theorem collect (hi : h.Interned) (roots : List Link) : (h.collect roots).2.Interned := (hi.collect_strings roots).1

/-! ## New nodes -/

/-- The first node of the free list is free, and the free list goes on without it; or the list leads out of the arena. -/
theorem first (hi : h.Interned) (hf : h.free = some a) :
    (∃ n, h.nodes[a]? = some n ∧ n.kind = .free ∧
      ∀ node : Node, h.take? node = (some a, h.place a n.next node) ∧
        ∃ stop l, End (h.place a n.next node).nodes.size stop ∧
          FreeList (h.place a n.next node).nodes stop n.next l ∧ l.Nodup) ∨ h.nodes.size ≤ a := by
  obtain ⟨stop, l, hstop, hl, hnodup⟩ := hi.free
  rw [hf] at hl
  cases hl with
  | nil =>
    cases hstop with
    | outside _ ha => exact .inr ha
  | @cons _ n rest hn hkind hrest =>
    obtain ⟨hnot, hnodup'⟩ := List.nodup_cons.mp hnodup
    refine .inl ⟨n, hn, hkind, fun node => ⟨by simp [Heap.take?, hf, node?, hn, Heap.place], stop, rest, ?_, ?_, hnodup'⟩⟩
    · simpa [Heap.place] using hstop
    · refine hrest.congr fun b hb => getElem?_place_ne ?_ h n.next node
      rintro rfl
      exact hnot hb

/-- A node is given out whose place was free. -/
theorem place {pool : Std.HashMap UInt64 (List Address)} {next : Link} {node : Node} (hi : h.Interned)
    (hfree : ∃ stop l, End (h.place a next node).nodes.size stop ∧ FreeList (h.place a next node).nodes stop next l ∧
      l.Nodup) (hpooled : ({ h.place a next node with pool := pool } : Heap).Pooled) :
    ({ h.place a next node with pool := pool } : Heap).Interned where
  room := by simpa [Heap.place] using hi.room
  limit := by simpa [Heap.place] using hi.limit
  unmarked := by
    simp only [Heap.place, Array.getElem?_setIfInBounds]
    split
    · split <;> simp
    · exact hi.unmarked
  free := hfree
  pooled := hpooled

/-- Without a node at the end of the free list nothing is taken. -/
theorem take?_of_outside (hf : h.free = some a) (ha : h.nodes.size ≤ a) (node : Node) : h.take? node = (none, h) := by
  have hnone : h.nodes[a]? = none := Array.getElem?_eq_none ha
  simp [Heap.take?, hf, node?, hnone]

theorem take? (hi : h.Interned) {node : Node} (hnode : ∀ t, node.content ≠ .string t) :
    (h.take? node).2.Interned := by
  cases hf : h.free with
  | none =>
    have htake : h.take? node = (none, h) := by simp [Heap.take?, hf]
    rwa [htake]
  | some a =>
    rcases hi.first hf with ⟨n, hn, hkind, hrest⟩ | ha
    · obtain ⟨htake, hfree⟩ := hrest node
      have hold : ∀ t, ¬ IsString h.nodes a t := by
        rintro t ⟨m, hm, hc⟩
        obtain rfl := Option.some.inj (hn.symm.trans hm)
        exact content_ne_string_of_kind hkind t hc
      rw [htake]
      exact hi.place hfree ((hi.pooled.setNode hold hnode).congr rfl rfl rfl)
    · rwa [take?_of_outside hf ha node]

/-- A node taken for a text that has none. -/
theorem take_string (hi : h.Interned) (roots : Roots) (hnew : ∀ b, ¬ IsString h.nodes b t) :
    (∃ a h', HeapM.take (.fresh (.string t) 0) roots h = (.ok a, h') ∧ (h'.remember t a).Interned ∧
        IsString h'.nodes a t) ∨
      (∀ a, h.free = some a → h.nodes.size ≤ a) ∧ ∃ e, HeapM.take (.fresh (.string t) 0) roots h = (.error e, h) := by
  cases hf : h.free with
  | none => exact .inr ⟨by simp, _, take_of_empty hf _ roots⟩
  | some a =>
    rcases hi.first hf with ⟨n, hn, hkind, hrest⟩ | ha
    · obtain ⟨htake, hfree⟩ := hrest (.fresh (.string t) 0)
      refine .inl ⟨a, h.place a n.next (.fresh (.string t) 0), by rw [HeapM.take, htake], ?_, ?_⟩
      · exact hi.place hfree ((hi.pooled.remember hn (content_ne_string_of_kind hkind) hnew).congr rfl rfl rfl)
      · exact ⟨_, getElem?_place_self hn n.next _, rfl⟩
    · exact .inr ⟨by rintro _ ⟨⟩; exact ha, _, take_of_outside hf ha _ roots⟩

/-- A node allocated for a text that has none, with or without a collection before. -/
theorem allocate_string (hi : h.Interned) (roots : Roots) (hnew : ∀ b, ¬ IsString h.nodes b t) :
    (∃ a h', HeapM.allocate (.fresh (.string t) 0) roots h = (.ok a, h') ∧ (h'.remember t a).Interned ∧
        IsString h'.nodes a t) ∨
      (∀ a, h.free = some a → h.nodes.size ≤ a) ∧
        ∃ e h', HeapM.allocate (.fresh (.string t) 0) roots h = (.error e, h') ∧ h'.Interned := by
  have hw : wordsFor (Node.fresh (.string t) 0).slots ≤ nodeWords := by
    change wordsFor 0 ≤ nodeWords
    decide
  cases hf : h.free with
  | some a =>
    rw [allocate_of_free hw hf]
    rcases hi.take_string roots hnew with hmade | ⟨houtside, e, hfailed⟩
    · exact .inl hmade
    · exact .inr ⟨hf ▸ houtside, e, h, hfailed, hi⟩
  | none =>
    obtain ⟨hi', hstrings⟩ := hi.collect_strings roots.get
    match hcollect : h.collect roots.get with
    | (some freed, h') =>
      rw [hcollect] at hi' hstrings
      rw [allocate_of_collect hw hf hcollect]
      rcases hi'.take_string roots fun b hb => hnew b (hstrings b t hb) with hmade | ⟨-, e, hfailed⟩
      · exact .inl hmade
      · exact .inr ⟨by simp, e, h', hfailed, hi'⟩
    | (none, h') =>
      rw [hcollect] at hi'
      exact .inr ⟨by simp, .crashed, h', allocate_of_crash hw hf hcollect, hi'⟩

/-! ## Making a string -/

/-- The node of a text is found, or the text has none and gets one, unless the free list leads to no node and the
allocation fails. -/
theorem string_cases (hi : h.Interned) (t : Text) (roots : Roots) :
    (∃ a, HeapM.string t roots h = (.ok a, h) ∧ IsString h.nodes a t) ∨
      (∀ b, ¬ IsString h.nodes b t) ∧
        ((∃ a h', HeapM.string t roots h = (.ok a, h') ∧ h'.Interned ∧ IsString h'.nodes a t) ∨
          (∀ a, h.free = some a → h.nodes.size ≤ a) ∧
            ∃ e h', HeapM.string t roots h = (.error e, h') ∧ h'.Interned) := by
  unfold HeapM.string
  rw [HeapM.get_bind_apply]
  cases hfind : h.findText? t with
  | some a => exact .inl ⟨a, rfl, hi.pooled.isString_of_findText? hfind⟩
  | none =>
    have hnew := hi.pooled.findText?_none hfind
    refine .inr ⟨hnew, ?_⟩
    rcases hi.allocate_string roots hnew with ⟨a, h', hrun, hi', hstring⟩ | ⟨houtside, e, h', hrun, hi'⟩
    · exact .inl ⟨a, h'.remember t a, HeapM.bind_ok hrun, hi', hstring⟩
    · exact .inr ⟨houtside, e, h', HeapM.bind_error hrun, hi'⟩

/-- A text gets a node if there is a free one. -/
theorem string_of_free (hi : h.Interned) (hf : h.free = some a) (ha : a < h.nodes.size) (t : Text) (roots : Roots) :
    ∃ b h', HeapM.string t roots h = (.ok b, h') ∧ h'.Interned ∧ IsString h'.nodes b t := by
  rcases hi.string_cases t roots with ⟨b, hrun, hb⟩ | ⟨-, ⟨b, h', hrun, hi', hb⟩ | ⟨houtside, -⟩⟩
  · exact ⟨b, h, hrun, hi, hb⟩
  · exact ⟨b, h', hrun, hi', hb⟩
  · exact absurd (houtside a hf) (Nat.not_le.mpr ha)

theorem string (hi : h.Interned) (t : Text) (roots : Roots) : (HeapM.string t roots h).2.Interned := by
  rcases hi.string_cases t roots with ⟨a, hrun, -⟩ | ⟨-, ⟨a, h', hrun, hi', -⟩ | ⟨-, e, h', hrun, hi'⟩⟩
  · rwa [hrun]
  · rwa [hrun]
  · rwa [hrun]

/-! ## New children -/

theorem rewrite (hi : h.Interned) (hn : h.nodes[a]? = some n) (children : Children) :
    (h.setNode a { n with children := children }).Interned := by
  have hget : ∀ (b : Address) (m : Node), (h.setNode a { n with children := children }).nodes[b]? = some m →
      ∃ old, h.nodes[b]? = some old ∧ m.content = old.content ∧ m.slots = old.slots := by
    intro b m hm
    rw [Heap.setNode, Array.getElem?_setIfInBounds] at hm
    split at hm
    next hab =>
      subst hab
      split at hm
      · obtain rfl := Option.some.inj hm
        exact ⟨n, hn, rfl, rfl⟩
      · cases hm
    · exact ⟨m, hm, rfl, rfl⟩
  have hlt : a < h.nodes.size := (Array.getElem?_eq_some_iff.mp hn).1
  have hself : (h.setNode a { n with children := children }).nodes[a]? = some { n with children := children } :=
    Array.getElem?_setIfInBounds_self_of_lt hlt
  have hne : ∀ b : Nat, b ≠ a → (h.setNode a { n with children := children }).nodes[b]? = h.nodes[b]? :=
    fun b hba => Array.getElem?_setIfInBounds_ne (Ne.symm hba)
  refine ⟨by simpa [Heap.setNode] using hi.room, by simpa [Heap.setNode] using hi.limit, hi.unmarked, ?_, ?_⟩
  · obtain ⟨stop, l, hstop, hl, hnodup⟩ := hi.free
    refine ⟨stop, l, by simpa [Heap.setNode] using hstop, ?_, hnodup⟩
    change FreeList (h.setNode a { n with children := children }).nodes stop h.free l
    generalize h.free = link at hl
    clear hnodup
    induction hl with
    | nil => exact .nil
    | @cons b m rest hb hkind _ ih =>
      by_cases hba : b = a
      · subst hba
        obtain rfl := Option.some.inj (hn.symm.trans hb)
        exact .cons hself hkind ih
      · exact .cons ((hne b hba).trans hb) hkind ih
  · refine hi.pooled.of_strings rfl rfl (fun b t => ?_) fun b m t hm hc => ?_
    · constructor
      · rintro ⟨m, hm, hc⟩
        obtain ⟨old, hold, hcontent, -⟩ := hget b m hm
        exact ⟨old, hold, hcontent.symm.trans hc⟩
      · rintro ⟨m, hm, hc⟩
        by_cases hba : b = a
        · subst hba
          obtain rfl := Option.some.inj (hn.symm.trans hm)
          exact ⟨_, hself, hc⟩
        · exact ⟨m, (hne b hba).trans hm, hc⟩
    · obtain ⟨old, hold, hcontent, hslots⟩ := hget b m hm
      rw [hslots]
      exact hi.pooled.leaf b old t hold (hcontent.symm.trans hc)

end Interned

/-- Every operation leaves the free list and the pool right. -/
theorem interned_kept : Kept Interned fun c => ∀ t, c ≠ .string t where
  pins h pins hi := hi.of_eq rfl rfl rfl rfl rfl
  collect h roots hi := hi.collect roots
  take h n hi hn := hi.take? hn
  string t roots h hi := hi.string t roots
  rewrite h a n children hi hn := hi.rewrite hn children
  number n hn := by simp
  other c hfree hnumber hstring := hstring

end Heap

namespace Heap

variable {h h' : Heap} {roots : Roots} {a b : Address} {t u : Text}

/-- The heaps that a new one goes through as operations run on it, with whatever arguments and roots, and whether they
succeed or not. -/
inductive Occurs : Heap → Prop where
  | create {h : Heap} {digest : Text → UInt64} {words : Int} (hcreate : create digest words = .ok h) : Occurs h
  | perform {h : Heap} (ho : Occurs h) (roots : Roots) (action : Action) : Occurs (action.perform roots h).2

theorem create_interned {digest : Text → UInt64} {words : Int} (hcreate : create digest words = .ok h) : h.Interned := by
  rw [create_eq] at hcreate
  split_ifs at hcreate with hsmall hlarge
  obtain rfl := Except.ok.inj hcreate
  have hmany : nodesFor words > bottom := Nat.not_le.mp hsmall
  have hmax : nodesFor words ≤ maxNodes := Nat.not_lt.mp hlarge
  have hsound := new_sound digest hmany hmax
  obtain ⟨stop, l, hstop, hl, hnodup, -⟩ := hsound.free
  refine ⟨?_, ?_, hsound.clear addressable, ⟨stop, l, hstop, hl.freeList, hnodup⟩, hsound.pooled⟩
  · simpa [new] using Nat.le_of_lt hmany
  · simpa [new] using hmax

theorem Occurs.interned (ho : Occurs h) : h.Interned := by
  induction ho with
  | create hcreate => exact create_interned hcreate
  | perform _ roots action ih => exact Action.perform_keeps interned_kept (by simp) action roots _ ih

/-- Strings are interned: there is one node for a text at most, the pool holds the string nodes and nothing else, each
once and under the hash of its text, and asking for a string gives its one node. -/
structure Canonical (h : Heap) : Prop where
  distinct : ∀ a b t u, IsString h.nodes a t → IsString h.nodes b u → a ≠ b → t ≠ u
  pooled : ∀ key a, a ∈ h.bucket key ↔ ∃ t, IsString h.nodes a t ∧ h.digest t = key
  once : ∀ key, (h.bucket key).Nodup
  /-- A text that has a node already gets that node, and the heap stays as it is. -/
  existing : ∀ (roots : Roots) a t, IsString h.nodes a t → HeapM.string t roots h = (.ok a, h)
  /-- The node that is given out for a text is a string node with that text. -/
  given : ∀ (roots : Roots) a t h', HeapM.string t roots h = (.ok a, h') → IsString h'.nodes a t

theorem Interned.canonical (hi : h.Interned) : h.Canonical where
  distinct a b t u ht hu hne := by
    rintro rfl
    exact hne (hi.pooled.unique a b t ht hu)
  pooled := hi.pooled.mem
  once := hi.pooled.nodup
  existing roots a t ht := by
    rcases hi.string_cases t roots with ⟨b, hrun, hb⟩ | ⟨hnone, -⟩
    · rw [hrun, hi.pooled.unique a b t ht hb]
    · exact absurd ht (hnone a)
  given roots a t h' hstring := by
    rcases hi.string_cases t roots with ⟨b, hrun, hb⟩ | ⟨-, ⟨b, h'', hrun, -, hb⟩ | ⟨-, e, h'', hrun, -⟩⟩
    · cases hrun.symm.trans hstring
      exact hb
    · cases hrun.symm.trans hstring
      exact hb
    · cases hrun.symm.trans hstring

end Heap

end Tenure
