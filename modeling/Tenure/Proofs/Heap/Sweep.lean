import Mathlib.Data.List.Nodup
import Mathlib.Data.List.Range
import Mathlib.Tactic.IntervalCases
import Tenure.Proofs.Heap.Mark

/-!
# Sweeping

What has to hold of a heap between operations, `Heap.Sound`: no marks are set, the free list is a chain of distinct
nodes, and the pool holds exactly the string nodes, one for each text. A sweep keeps this, leaves marked nodes as they
are and puts all others onto the free list: `Heap.Swept`. Together with the marking this is the contract of a
collection, `Heap.collect_spec`.

In a heap with more nodes than addresses the free list never comes to its end: it leads from the last node that has an
address out of the arena, `Heap.End`.
-/

set_option autoImplicit false

namespace Tenure.Heap

/-- The free list from a link on: vacant nodes, each with the link to the next one, up to the link where it stops. -/
inductive Chain (nodes : Array Node) (stop : Link) : Link → List Address → Prop where
  | nil : Chain nodes stop stop []
  | cons {a : Address} {next : Link} {rest : List Address} (ha : nodes[a]? = some (.vacant next))
    (hrest : Chain nodes stop next rest) : Chain nodes stop (some a) (a :: rest)

/-- Where the free list of an arena of `n` nodes stops: at no link, or at a link that leads out of the arena if there
are more nodes than addresses. -/
inductive End (n : Nat) : Link → Prop where
  | empty (hfew : n ≤ addressable) : End n none
  | outside {a : Address} (hmany : addressable < n) (ha : n ≤ a) : End n (some a)

/-- A node is a string node. -/
def IsString (nodes : Array Node) (a : Address) (t : Text) : Prop := ∃ n, nodes[a]? = some n ∧ n.content = .string t

/-- The pool holds exactly the string nodes, which have no children, and there is one for each text. -/
structure Pooled (h : Heap) : Prop where
  nodup : ∀ key, (h.bucket key).Nodup
  mem : ∀ key a, a ∈ h.bucket key ↔ ∃ t, IsString h.nodes a t ∧ h.digest t = key
  unique : ∀ a b t, IsString h.nodes a t → IsString h.nodes b t → a = b
  leaf : ∀ (a : Address) (n : Node) (t : Text), h.nodes[a]? = some n → n.content = .string t → n.slots = 0

/-- A heap between operations. -/
structure Sound (h : Heap) : Prop where
  size : h.marked.size = h.nodes.size
  clear : ∀ a : Address, h.marked[a]? ≠ some true
  free : ∃ stop l, End h.nodes.size stop ∧ Chain h.nodes stop h.free l ∧ l.Nodup ∧ ∀ a ∈ l, bottom ≤ a
  pooled : h.Pooled

/-! ## Links to nodes -/

theorem linkTo_of_lt {i : Nat} (hi : i < addressable) : linkTo i = some i := by
  have hword : i % 0x100000000 = i := Nat.mod_eq_of_lt (Nat.lt_trans hi (by decide))
  simp only [linkTo, hword, if_pos hi]

/-- The first index that has no address leads out of every arena. -/
theorem linkTo_addressable : linkTo addressable = some (maxNodes + addressable) := by decide

theorem End.of_outside {n : Nat} (hmany : addressable < n) (hmax : n ≤ maxNodes) : End n (linkTo addressable) := by
  rw [linkTo_addressable]
  exact .outside hmany (Nat.le_add_right_of_le hmax)

/-! ## Chains -/

theorem Chain.vacant {nodes : Array Node} {stop link : Link} {l : List Address} (h : Chain nodes stop link l) {a : Address}
    (ha : a ∈ l) : ∃ next, nodes[a]? = some (.vacant next) := by
  induction h with
  | nil => simp at ha
  | @cons b next rest hb _ ih =>
    rcases List.mem_cons.mp ha with rfl | ha
    · exact ⟨next, hb⟩
    · exact ih ha

/-- A chain does not see changes of other nodes. -/
theorem Chain.congr {nodes nodes' : Array Node} {stop link : Link} {l : List Address} (h : Chain nodes stop link l)
    (hn : ∀ a ∈ l, nodes'[a]? = nodes[a]?) : Chain nodes' stop link l := by
  induction h with
  | nil => exact .nil
  | @cons b next rest hb _ ih => exact .cons (by rw [hn b (by simp), hb]) (ih fun a ha => hn a (by simp [ha]))

/-! ## The pool -/

theorem bucket_insert (h : Heap) (key key' : UInt64) (l : List Address) :
    ({ h with pool := h.pool.insert key l } : Heap).bucket key' = if key = key' then l else h.bucket key' := by
  simp only [bucket, Std.HashMap.get?_eq_getElem?, Std.HashMap.getElem?_insert, beq_iff_eq]
  split <;> rfl

theorem bucket_erase (h : Heap) (key key' : UInt64) :
    ({ h with pool := h.pool.erase key } : Heap).bucket key' = if key = key' then [] else h.bucket key' := by
  simp only [bucket, Std.HashMap.get?_eq_getElem?, Std.HashMap.getElem?_erase, beq_iff_eq]
  split <;> rfl

theorem bucket_remember (h : Heap) (t : Text) (a : Address) (key : UInt64) :
    (h.remember t a).bucket key = if h.digest t = key then h.bucket key ++ [a] else h.bucket key := by
  rw [remember, bucket_insert]
  split
  next hk => rw [hk]
  · rfl

theorem bucket_forget (h : Heap) (t : Text) (a : Address) (key : UInt64) :
    (h.forget t a).bucket key = if h.digest t = key then (h.bucket key).erase a else h.bucket key := by
  unfold forget
  simp only
  split
  next he =>
    rw [bucket_erase]
    split
    next hk => rw [← hk, he]
    · rfl
  next he =>
    rw [bucket_insert]
    split
    next hk => rw [← hk]
    · rfl

/-- Taking a string out of the pool changes nothing but the pool. -/
theorem forgetAt_eq (h : Heap) (a : Address) : ∃ pool, h.forgetAt a = { h with pool := pool } := by
  unfold forgetAt
  split
  · unfold forget
    simp only
    split <;> exact ⟨_, rfl⟩
  · exact ⟨h.pool, rfl⟩

/-- Whether the pool is right does not depend on marks, pins and the free list. -/
theorem Pooled.congr {h h' : Heap} (hp : h.Pooled) (hn : h'.nodes = h.nodes) (hpool : h'.pool = h.pool)
    (hd : h'.digest = h.digest) : h'.Pooled := by
  have hb : ∀ key, h'.bucket key = h.bucket key := fun key => by rw [bucket, hpool, bucket]
  refine ⟨fun key => hb key ▸ hp.nodup key, fun key a => ?_, ?_, ?_⟩
  · rw [hb, hn, hd]
    exact hp.mem key a
  · rw [hn]
    exact hp.unique
  · rw [hn]
    exact hp.leaf

theorem mem_bucket_forgetAt {h : Heap} (hp : h.Pooled) (a b : Address) (key : UInt64) :
    b ∈ (h.forgetAt a).bucket key ↔ b ∈ h.bucket key ∧ b ≠ a := by
  unfold forgetAt
  split
  next t ht =>
    have ha : IsString h.nodes a t := by
      obtain ⟨n, hn, hc⟩ := Option.map_eq_some_iff.mp ht
      exact ⟨n, hn, hc⟩
    rw [bucket_forget]
    split
    next hk => rw [(hp.nodup key).mem_erase_iff, and_comm]
    next hk =>
      refine ⟨fun hb => ⟨hb, ?_⟩, fun hb => hb.1⟩
      rintro rfl
      obtain ⟨t', ⟨n', hn', hc'⟩, hk'⟩ := (hp.mem key b).mp hb
      obtain ⟨n, hn, hc⟩ := ha
      obtain rfl : n = n' := Option.some.inj (hn.symm.trans hn')
      rw [hc, Content.string.injEq] at hc'
      exact hk (hc' ▸ hk')
  next hne =>
    refine ⟨fun hb => ⟨hb, ?_⟩, fun hb => hb.1⟩
    rintro rfl
    obtain ⟨t, ⟨n, hn, hc⟩, -⟩ := (hp.mem key b).mp hb
    exact hne t (by rw [node?, hn, Option.map_some, hc])

theorem nodup_bucket_forgetAt {h : Heap} (hp : h.Pooled) (a : Address) (key : UInt64) :
    ((h.forgetAt a).bucket key).Nodup := by
  unfold forgetAt
  split
  · rw [bucket_forget]
    split
    · exact (hp.nodup key).erase a
    · exact hp.nodup key
  · exact hp.nodup key

/-! ## One node -/

theorem isString_set {nodes : Array Node} {a b : Address} {n : Node} {t : Text} (hn : ∀ t, n.content ≠ .string t) :
    IsString (nodes.setIfInBounds a n) b t ↔ IsString nodes b t ∧ b ≠ a := by
  unfold IsString
  rw [Array.getElem?_setIfInBounds]
  by_cases hab : a = b
  · subst hab
    simp only [if_true, ne_eq, not_true_eq_false, and_false, iff_false]
    rintro ⟨n', hn', hc⟩
    split at hn'
    · cases hn'
      exact hn t hc
    · cases hn'
  · simp [hab, Ne.symm hab]

/-- A node that is put onto the free list leaves the pool. -/
theorem Pooled.reclaim {h : Heap} (hp : h.Pooled) (a : Address) : (h.reclaim a).Pooled := by
  obtain ⟨pool, hpool⟩ := h.forgetAt_eq a
  have hnodes : (h.reclaim a).nodes = h.nodes.setIfInBounds a (.vacant h.free) := by simp [Heap.reclaim, hpool]
  have hdigest : (h.reclaim a).digest = h.digest := by simp [Heap.reclaim, hpool]
  have hstring : ∀ {b : Address} {t : Text}, IsString (h.reclaim a).nodes b t ↔ IsString h.nodes b t ∧ b ≠ a := by
    intro b t
    rw [hnodes]
    exact isString_set (by simp [Node.vacant])
  refine ⟨nodup_bucket_forgetAt hp a, fun key b => ?_, fun b c t hb hc => ?_, fun b n t hn hc => ?_⟩
  · rw [show b ∈ (h.reclaim a).bucket key ↔ b ∈ (h.forgetAt a).bucket key from Iff.rfl,
      mem_bucket_forgetAt hp a b key, hp.mem, hdigest]
    constructor
    · rintro ⟨⟨t, ht, hk⟩, hne⟩
      exact ⟨t, hstring.mpr ⟨ht, hne⟩, hk⟩
    · rintro ⟨t, ht, hk⟩
      obtain ⟨ht', hne⟩ := hstring.mp ht
      exact ⟨⟨t, ht', hk⟩, hne⟩
  · exact hp.unique b c t (hstring.mp hb).1 (hstring.mp hc).1
  · have hne := (hstring.mp ⟨n, hn, hc⟩).2
    rw [hnodes, Array.getElem?_setIfInBounds_ne (Ne.symm hne)] at hn
    exact hp.leaf b n t hn hc

/-! ## The sweep -/

/-- What sweeping the nodes from the bottom up to an address does to a heap: marked nodes stay and lose their marks,
the others go onto the free list. -/
structure Swept (upper : Nat) (h h' : Heap) : Prop where
  size : h'.nodes.size = h.nodes.size
  marks : h'.marked.size = h.marked.size
  pins : h'.pins = h.pins
  digest : h'.digest = h.digest
  outside : ∀ a : Nat, a < bottom ∨ upper ≤ a → h'.nodes[a]? = h.nodes[a]? ∧ h'.marked[a]? = h.marked[a]?
  kept : ∀ a : Nat, bottom ≤ a → a < upper → h.marked[a]? = some true → h'.nodes[a]? = h.nodes[a]?
  clear : ∀ a : Nat, bottom ≤ a → a < upper → h'.marked[a]? ≠ some true
  vacant : ∀ a : Nat, bottom ≤ a → a < upper → h.marked[a]? ≠ some true → ∃ next, h'.nodes[a]? = some (.vacant next)
  chain : upper ≤ addressable → ∀ stop l, Chain h.nodes stop h.free l → l.Nodup → (∀ a ∈ l, upper ≤ a) →
    ∃ l', Chain h'.nodes stop h'.free l' ∧ l'.Nodup ∧
      ∀ a : Nat, a ∈ l' ↔ a ∈ l ∨ bottom ≤ a ∧ a < upper ∧ h.marked[a]? ≠ some true
  /-- The nodes that have no address are swept first, whatever the free list looks like then. -/
  outside_chain : addressable < upper → h.marked[addressable]? ≠ some true →
    ∃ l', Chain h'.nodes (linkTo addressable) h'.free l' ∧ l'.Nodup ∧
      ∀ a : Nat, a ∈ l' ↔ bottom ≤ a ∧ a < addressable ∧ h.marked[a]? ≠ some true
  pooled : h.Pooled → h'.Pooled

theorem Swept.refl (h : Heap) : Swept bottom h h where
  size := rfl
  marks := rfl
  pins := rfl
  digest := rfl
  outside _ _ := ⟨rfl, rfl⟩
  kept _ _ _ _ := rfl
  clear _ ha ha' := absurd ha (Nat.not_le.mpr ha')
  vacant _ ha ha' := absurd ha (Nat.not_le.mpr ha')
  chain _ _ l hl hd _ :=
    ⟨l, hl, hd, fun _ => ⟨.inl, fun ha => ha.resolve_right fun hr => absurd hr.1 (Nat.not_le.mpr hr.2.1)⟩⟩
  outside_chain hlow := absurd hlow (by decide)
  pooled hp := hp

/-- A marked node stays, and a sweep of the nodes below it follows. -/
theorem Swept.keep {h h' : Heap} {a : Nat} (hb : a ≥ bottom) (hmark : h.marked[a]? = some true)
    (hrest : Swept a { h with marked := h.marked.setIfInBounds a false } h') : Swept (a + 1) h h' := by
  have hmarks : ∀ b : Nat, b ≠ a → (h.marked.setIfInBounds a false)[b]? = h.marked[b]? := fun b hne => by
    rw [Array.getElem?_setIfInBounds_ne (Ne.symm hne)]
  have houtside := hrest.outside
  simp only at houtside
  refine ⟨hrest.size, by simpa using hrest.marks, hrest.pins, hrest.digest, fun b hb' => ?_, fun b h₁ h₂ hm => ?_,
    fun b h₁ h₂ => ?_, fun b h₁ h₂ hm => ?_, fun hlow stop l hl hd hu => ?_, fun hhigh hunmarked => ?_,
    fun hp => hrest.pooled (hp.congr rfl rfl rfl)⟩
  · obtain ⟨hn, hm⟩ := houtside b (by omega)
    exact ⟨hn, hm.trans (hmarks b (by omega))⟩
  · by_cases hba : b = a
    · exact (houtside b (by omega)).1
    · exact hrest.kept b h₁ (by omega) ((hmarks b hba).trans hm)
  · by_cases hba : b = a
    · rw [(houtside b (by omega)).2, hba, Array.getElem?_setIfInBounds]
      simp
    · exact hrest.clear b h₁ (by omega)
  · have hba : b ≠ a := by
      rintro rfl
      exact hm hmark
    exact hrest.vacant b h₁ (by omega) (by rwa [hmarks b hba])
  · obtain ⟨l', hl', hd', hmem⟩ :=
      hrest.chain (Nat.le_of_succ_le hlow) stop l hl hd (fun b hb' => Nat.le_of_succ_le (hu b hb'))
    refine ⟨l', hl', hd', fun b => (hmem b).trans (or_congr_right ?_)⟩
    simp only
    constructor
    · rintro ⟨h₁, h₂, h₃⟩
      exact ⟨h₁, by omega, by rwa [hmarks b (by omega)] at h₃⟩
    · rintro ⟨h₁, h₂, h₃⟩
      have hba : b ≠ a := by
        rintro rfl
        exact h₃ hmark
      exact ⟨h₁, by omega, by rwa [hmarks b hba]⟩
  · have hne : addressable ≠ a := by
      rintro rfl
      exact hunmarked hmark
    have hlast : addressable < a := Nat.lt_of_le_of_ne (Nat.lt_succ_iff.mp hhigh) hne
    obtain ⟨l', hl', hd', hmem⟩ := hrest.outside_chain hlast (by rwa [hmarks addressable hne])
    refine ⟨l', hl', hd', fun b => (hmem b).trans (and_congr_right fun _ => and_congr_right fun hb => ?_)⟩
    simp only
    rw [hmarks b (Nat.ne_of_lt (Nat.lt_trans hb hlast))]

/-- An unmarked node goes onto the free list, and a sweep of the nodes below it follows. -/
theorem Swept.free {h h' : Heap} {a : Nat} (hb : a ≥ bottom) (hlt : a < h.nodes.size)
    (hmark : h.marked[a]? ≠ some true) (hrest : Swept a (h.reclaim a) h') : Swept (a + 1) h h' := by
  obtain ⟨pool, hpool⟩ := h.forgetAt_eq a
  have hreclaim : h.reclaim a =
      { h with pool := pool, nodes := h.nodes.setIfInBounds a (.vacant h.free), free := linkTo a } := by
    simp [Heap.reclaim, hpool]
  have hnodes : ∀ b : Nat, b ≠ a → (h.reclaim a).nodes[b]? = h.nodes[b]? := fun b hne => by
    rw [hreclaim, Array.getElem?_setIfInBounds_ne (Ne.symm hne)]
  have hmarks : (h.reclaim a).marked = h.marked := by rw [hreclaim]
  have hhead : (h.reclaim a).nodes[a]? = some (.vacant h.free) := by
    rw [hreclaim]
    exact Array.getElem?_setIfInBounds_self_of_lt hlt
  refine ⟨by rw [hrest.size, hreclaim]; simp, by rw [hrest.marks, hmarks], by rw [hrest.pins, hreclaim],
    by rw [hrest.digest, hreclaim], fun b hb' => ?_, fun b h₁ h₂ hm => ?_, fun b h₁ h₂ => ?_, fun b h₁ h₂ hm => ?_,
    fun hlow stop l hl hd hu => ?_, fun hhigh hunmarked => ?_, fun hp => hrest.pooled (hp.reclaim a)⟩
  · obtain ⟨hn, hm⟩ := hrest.outside b (by omega)
    exact ⟨hn.trans (hnodes b (by omega)), by rw [hm, hmarks]⟩
  · have hba : b ≠ a := by
      rintro rfl
      exact hmark hm
    exact (hrest.kept b h₁ (by omega) (by rw [hmarks]; exact hm)).trans (hnodes b hba)
  · by_cases hba : b = a
    · rw [(hrest.outside b (by omega)).2, hmarks, hba]
      exact hmark
    · exact hrest.clear b h₁ (by omega)
  · by_cases hba : b = a
    · exact ⟨h.free, by rw [(hrest.outside b (by omega)).1, hba, hhead]⟩
    · exact hrest.vacant b h₁ (by omega) (by rwa [hmarks])
  · -- the node is put in front of what is on the list already
    have hnew : Chain (h.reclaim a).nodes stop (h.reclaim a).free (a :: l) := by
      have hfree : (h.reclaim a).free = some a := by rw [hreclaim, linkTo_of_lt hlow]
      rw [hfree]
      refine .cons hhead (hl.congr fun b hb' => hnodes b ?_)
      have := hu b hb'
      omega
    have hda : a ∉ l := fun ha => absurd (hu a ha) (by omega)
    obtain ⟨l', hl', hd', hmem⟩ :=
      hrest.chain (Nat.le_of_succ_le hlow) stop (a :: l) hnew (List.nodup_cons.mpr ⟨hda, hd⟩) (by
        intro b hb'
        rcases List.mem_cons.mp hb' with rfl | hb'
        · exact Nat.le_refl _
        · exact Nat.le_of_succ_le (hu b hb'))
    refine ⟨l', hl', hd', fun b => ?_⟩
    rw [hmem, List.mem_cons, hmarks]
    constructor
    · rintro ((rfl | hb') | ⟨h₁, h₂, h₃⟩)
      · exact .inr ⟨hb, by omega, hmark⟩
      · exact .inl hb'
      · exact .inr ⟨h₁, by omega, h₃⟩
    · rintro (hb' | ⟨h₁, h₂, h₃⟩)
      · exact .inl (.inr hb')
      · by_cases hba : b = a
        · exact .inl (.inl hba)
        · exact .inr ⟨h₁, by omega, h₃⟩
  · rcases Nat.eq_or_lt_of_le (Nat.lt_succ_iff.mp hhigh) with rfl | hlast
    · -- the list is made anew from the first node that has no address
      have hnew : Chain (h.reclaim addressable).nodes (linkTo addressable) (h.reclaim addressable).free [] := by
        rw [hreclaim]
        exact .nil
      obtain ⟨l', hl', hd', hmem⟩ := hrest.chain le_rfl _ [] hnew List.nodup_nil (by simp)
      refine ⟨l', hl', hd', fun b => (hmem b).trans ?_⟩
      rw [hmarks]
      simp
    · obtain ⟨l', hl', hd', hmem⟩ := hrest.outside_chain hlast (by rwa [hmarks])
      refine ⟨l', hl', hd', fun b => (hmem b).trans ?_⟩
      rw [hmarks]

theorem down_swept (k : Nat) (s : Sweep) (hk : bottom + k ≤ s.heap.nodes.size) :
    Swept (bottom + k) s.heap (Sweep.down k s).heap := by
  induction k generalizing s with
  | zero => exact .refl s.heap
  | succ k ih =>
    obtain ⟨h, freed, live⟩ := s
    have hb : bottom ≤ bottom + k := Nat.le_add_right ..
    have hlt : bottom + k < h.nodes.size := hk
    rw [Sweep.down]
    by_cases hmark : h.marked[bottom + k]? = some true
    · have hstep : (Sweep.step ⟨h, freed, live⟩ (bottom + k)).heap =
          { h with marked := h.marked.setIfInBounds (bottom + k) false } := by simp [Sweep.step, hmark]
      exact .keep hb hmark (hstep ▸ ih _ (hstep ▸ Nat.le_of_lt hlt))
    · have hget : h.marked[bottom + k]?.getD false = false := by
        cases hm : h.marked[bottom + k]? with
        | none => rfl
        | some b =>
          cases b with
          | false => rfl
          | true => exact absurd hm hmark
      have hstep : (Sweep.step ⟨h, freed, live⟩ (bottom + k)).heap = h.reclaim (bottom + k) := by
        simp [Sweep.step, hget]
      have hsize : (h.reclaim (bottom + k)).nodes.size = h.nodes.size := by
        obtain ⟨pool, hpool⟩ := h.forgetAt_eq (bottom + k)
        simp [Heap.reclaim, hpool]
      refine .free hb hlt hmark (hstep ▸ ih _ ?_)
      rw [hstep, hsize]
      exact Nat.le_of_lt hlt

theorem clearPermanent_size (marked : Array Bool) : (clearPermanent marked).size = marked.size := by
  simp [clearPermanent, bottom, List.range, List.range.loop]

theorem clearPermanent_marked {marked : Array Bool} {a : Nat} (h : (clearPermanent marked)[a]? = some true) :
    a ≥ bottom ∧ marked[a]? = some true := by
  have hlist : List.range bottom = [0, 1, 2, 3, 4] := rfl
  simp only [clearPermanent, hlist, List.foldl_cons, List.foldl_nil, Array.getElem?_setIfInBounds] at h
  by_cases ha : a < 5
  · interval_cases a <;> simp_all
  · rw [if_neg (by omega), if_neg (by omega), if_neg (by omega), if_neg (by omega), if_neg (by omega)] at h
    exact ⟨Nat.not_lt.mp ha, h⟩

/-- The sweep of a collection. -/
def swept (h : Heap) (roots : List Link) : Sweep :=
  Sweep.down (h.nodes.size - bottom) ⟨{ h with marked := (h.mark roots).marked, free := none }, 0, 0⟩

/-- A collection whose marking comes to its end is a sweep. -/
theorem collect_eq {h : Heap} {roots : List Link} (halive : (h.mark roots).crashed = false) :
    h.collect roots = (some (h.swept roots).freed,
      { (h.swept roots).heap with
        marked := clearPermanent (h.swept roots).heap.marked
        stats := { (h.swept roots).heap.stats with
          live := (h.swept roots).live
          collections := (h.swept roots).heap.stats.collections + 1
          freed := (h.swept roots).heap.stats.freed + (h.swept roots).freed } }) := by
  rw [collect, if_neg (by simp [halive])]
  rfl

/-- The values that exist once can always be reached. -/
theorem reaches_permanent (h : Heap) (roots : List Link) {a : Nat} (ha : a < bottom) :
    Reaches h.nodes (h.rootLinks roots) a := by
  refine .root ?_
  have hfive : a < 5 := ha
  interval_cases a <;> simp [rootLinks, permanentLinks, falsity, truth, null, Heap.unassigned, Heap.undefined]

theorem bottom_le_of_traceable {h : Heap} {roots : List Link} (ht : Traceable h.nodes (h.rootLinks roots)) :
    bottom ≤ h.nodes.size := by
  obtain ⟨n, hn, -⟩ := ht 4 (reaches_permanent h roots (by decide))
  exact (Array.getElem?_eq_some_iff.mp hn).1

/-- What a collection does to the arena: whatever can be reached is as before, everything else is on the free list, and
no mark is left. -/
structure Cleared (roots : List Link) (h h' : Heap) : Prop where
  size : h'.nodes.size = h.nodes.size
  marks : h'.marked.size = h'.nodes.size
  clear : ∀ a : Address, h'.marked[a]? ≠ some true
  pins : h'.pins = h.pins
  digest : h'.digest = h.digest
  kept : ∀ a : Nat, Reaches h.nodes (h.rootLinks roots) a → h'.nodes[a]? = h.nodes[a]?
  chain : ∃ l, Chain h'.nodes none h'.free l ∧ l.Nodup ∧
    ∀ a : Nat, a ∈ l ↔ a < h.nodes.size ∧ ¬ Reaches h.nodes (h.rootLinks roots) a
  pooled : h.Pooled → h'.Pooled

/-- A collection of an arena without marks, whatever its free list and its pool look like. -/
theorem collect_cleared {h : Heap} {roots : List Link} (hfew : h.nodes.size ≤ addressable)
    (hsize : h.marked.size = h.nodes.size) (hclear : ∀ a : Address, h.marked[a]? ≠ some true)
    (ht : Traceable h.nodes (h.rootLinks roots)) :
    ∃ h', h.collect roots = (some (h.swept roots).freed, h') ∧ Cleared roots h h' := by
  obtain ⟨halive, -, hmsize, hmarked⟩ := mark_spec hfew hsize hclear ht
  have hupper : bottom + (h.nodes.size - bottom) = h.nodes.size :=
    Nat.add_sub_cancel' (bottom_le_of_traceable ht)
  have hswept : Swept h.nodes.size { h with marked := (h.mark roots).marked, free := none } (h.swept roots).heap := by
    have hdown := down_swept (h.nodes.size - bottom)
      ⟨{ h with marked := (h.mark roots).marked, free := none }, 0, 0⟩ (Nat.le_of_eq hupper)
    rwa [hupper] at hdown
  have hcollect := collect_eq halive
  generalize h.swept roots = s at hswept hcollect ⊢
  obtain ⟨l, hchain, hnodup, hmem⟩ := hswept.chain hfew none [] .nil List.nodup_nil (by simp)
  have hreach : ∀ a : Nat, a ∈ l ↔ a < h.nodes.size ∧ ¬ Reaches h.nodes (h.rootLinks roots) a := by
    intro a
    rw [hmem, ← hmarked]
    simp only [List.not_mem_nil, false_or]
    refine ⟨And.right, fun hfree => ⟨?_, hfree⟩⟩
    by_contra hlow
    exact hfree.2 ((hmarked a).mpr (reaches_permanent h roots (Nat.not_le.mp hlow)))
  refine ⟨_, hcollect, hswept.size, ?_, fun a ha => ?_, hswept.pins, hswept.digest, fun a ha => ?_,
    ⟨l, hchain, hnodup, hreach⟩, fun hp => (hswept.pooled (hp.congr rfl rfl rfl)).congr rfl rfl rfl⟩
  · simp only [clearPermanent_size, hswept.marks, hswept.size, hmsize]
  · simp only at ha
    obtain ⟨hlow, hmark⟩ := clearPermanent_marked ha
    have hlt : a < s.heap.marked.size := (Array.getElem?_eq_some_iff.mp hmark).1
    rw [hswept.marks] at hlt
    exact hswept.clear a hlow (hmsize ▸ hlt) hmark
  · by_cases hin : a ≥ bottom ∧ a < h.nodes.size
    · exact hswept.kept a hin.1 hin.2 ((hmarked a).mpr ha)
    · exact (hswept.outside a (by omega)).1

/-- What cannot be reached is vacant after a collection. -/
theorem Cleared.vacant {h h' : Heap} {roots : List Link} (hc : Cleared roots h h') {a : Nat} (ha : a < h.nodes.size)
    (hr : ¬ Reaches h.nodes (h.rootLinks roots) a) : ∃ next, h'.nodes[a]? = some (.vacant next) := by
  obtain ⟨l, hl, -, hmem⟩ := hc.chain
  exact hl.vacant ((hmem a).mpr ⟨ha, hr⟩)

/-- A collection brings no strings. -/
theorem Cleared.strings {h h' : Heap} {roots : List Link} (hc : Cleared roots h h') (a : Address) (t : Text)
    (ha : IsString h'.nodes a t) : IsString h.nodes a t := by
  obtain ⟨n, hn, hcontent⟩ := ha
  by_cases ha : Reaches h.nodes (h.rootLinks roots) a
  · exact ⟨n, (hc.kept a ha).symm.trans hn, hcontent⟩
  · obtain ⟨next, hnext⟩ := hc.vacant (hc.size ▸ (Array.getElem?_eq_some_iff.mp hn).1) ha
    obtain rfl := Option.some.inj (hn.symm.trans hnext)
    cases hcontent

/-- What a collection of a sound heap leads to: whatever can be reached is as before, and everything else is on the free
list. -/
structure Collected (roots : List Link) (h h' : Heap) : Prop where
  sound : h'.Sound
  size : h'.nodes.size = h.nodes.size
  pins : h'.pins = h.pins
  digest : h'.digest = h.digest
  kept : ∀ a : Nat, Reaches h.nodes (h.rootLinks roots) a → h'.nodes[a]? = h.nodes[a]?
  chain : ∃ l, Chain h'.nodes none h'.free l ∧
    ∀ a : Nat, a ∈ l ↔ a < h.nodes.size ∧ ¬ Reaches h.nodes (h.rootLinks roots) a
  strings : ∀ a t, IsString h'.nodes a t → IsString h.nodes a t

/-- The contract of a collection. -/
theorem collect_spec {h : Heap} {roots : List Link} (hfew : h.nodes.size ≤ addressable) (hs : h.Sound)
    (ht : Traceable h.nodes (h.rootLinks roots)) :
    ∃ freed h', h.collect roots = (some freed, h') ∧ Collected roots h h' := by
  obtain ⟨h', hcollect, hc⟩ := collect_cleared hfew hs.size hs.clear ht
  obtain ⟨l, hchain, hnodup, hmem⟩ := hc.chain
  refine ⟨_, h', hcollect, ⟨hc.marks, hc.clear, ⟨none, l, .empty (hc.size ▸ hfew), hchain, hnodup, fun a ha => ?_⟩,
    hc.pooled hs.pooled⟩, hc.size, hc.pins, hc.digest, hc.kept, ⟨l, hchain, hmem⟩, hc.strings⟩
  by_contra hlow
  exact ((hmem a).mp ha).2 (reaches_permanent h roots (Nat.not_le.mp hlow))

end Tenure.Heap
