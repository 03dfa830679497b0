import Tenure.Proofs.Endless.Machine
import Tenure.Proofs.Heap.Allocate

/-!
# The heap as a mirror of the endless heap

A heap mirrors the reachable part of an endless heap along a renaming of addresses, `Mirrors`: the renaming is
injective on what can be reached, and every reachable object stands, renamed, at its new address. What a collection
finds is then exactly the image of the reachable objects, so that the number of live objects alone says whether an
allocation succeeds.
-/

set_option autoImplicit false

namespace Tenure

/-! ## What can be reached in an endless heap -/

section Reach

variable {objs objs' : List Obj} {held held' : List Address}

theorem Reach.of_roots (hheld : ∀ a ∈ held', Reach objs held a) {b : Address} (h : Reach objs held' b) :
    Reach objs held b := by
  induction h with
  | permanent h => exact .permanent h
  | root h => exact hheld _ h
  | link _ ho hb ih => exact ih.link ho hb

/-- What can be reached does not depend on the other objects. -/
theorem Reach.congr (hobjs : ∀ a, Reach objs held a → objs'[a]? = objs[a]?) {b : Address} :
    Reach objs' held b ↔ Reach objs held b := by
  constructor
  · intro h
    induction h with
    | permanent h => exact .permanent h
    | root h => exact .root h
    | link _ ho hb ih => exact ih.link ((hobjs _ ih).symm.trans ho) hb
  · intro h
    induction h with
    | permanent h => exact .permanent h
    | root h => exact .root h
    | link ha ho hb ih => exact ih.link ((hobjs _ ha).trans ho) hb

/-- Holding one more object that refers to reachable ones makes just that object reachable. -/
theorem reach_adopt {a : Address} {o : Obj} (ho : objs'[a]? = some o)
    (hobjs : ∀ b, Reach objs held b → objs'[b]? = objs[b]?) (hlinks : ∀ b ∈ o.links, Reach objs held b) {b : Address} :
    Reach objs' (a :: held) b ↔ b = a ∨ Reach objs held b := by
  constructor
  · intro h
    induction h with
    | permanent h => exact .inr (.permanent h)
    | root h =>
      rcases List.mem_cons.mp h with rfl | h
      · exact .inl rfl
      · exact .inr (.root h)
    | @link b c o' _ ho' hc ih =>
      rcases ih with rfl | hb
      · obtain rfl : o = o' := Option.some.inj (ho.symm.trans ho')
        exact .inr (hlinks c hc)
      · exact .inr (hb.link ((hobjs b hb).symm.trans ho') hc)
  · rintro (rfl | h)
    · exact .root (by simp)
    · exact ((Reach.congr hobjs).mpr h).of_roots fun c hc => .root (by simp [hc])

/-- What is live depends only on what can be reached. -/
theorem live_congr (h : ∀ a ∈ held', Reach objs held a) (h' : ∀ a ∈ held, Reach objs held' a) :
    live objs held' = live objs held := by
  have hset : {a | Reach objs held' a} = {a | Reach objs held a} :=
    Set.ext fun a => ⟨fun ha => ha.of_roots h, fun ha => ha.of_roots h'⟩
  rw [live, hset, live]

/-- Writing reachable links makes nothing else reachable. -/
theorem Reach.of_set {f : Address} {o : Obj} (ho : ∀ b ∈ o.links, Reach objs held b) {b : Address}
    (h : Reach (objs.set f o) held b) : Reach objs held b := by
  induction h with
  | permanent h => exact .permanent h
  | root h => exact .root h
  | @link a b o' _ ho' hb ih =>
    by_cases hfa : f = a
    · subst hfa
      rw [List.getElem?_set_self (by simpa using (List.getElem?_eq_some_iff.mp ho').1)] at ho'
      cases ho'
      exact ho b hb
    · rw [List.getElem?_set_ne hfa] at ho'
      exact ih.link ho' hb

end Reach

/-! ## Nodes -/

/-- A node that holds what an object holds, with renamed links. -/
structure Node.Mirrors (φ : Address → Address) (o : Obj) (n : Node) : Prop where
  content : n.content = o.content
  allocated : o.content ≠ .free
  slots : n.slots = o.links.length
  room : o.links.length ≤ maxChildren
  traced : n.traced = o.links.map fun a => some (φ a)

namespace Node

variable {φ φ' : Address → Address} {o : Obj} {n : Node}

theorem Mirrors.congr (h : n.Mirrors φ o) (hφ : ∀ a ∈ o.links, φ' a = φ a) : n.Mirrors φ' o :=
  { h with traced := h.traced.trans (List.map_congr_left fun a ha => by rw [hφ a ha]) }

theorem Mirrors.children (h : n.Mirrors φ o) {i : Nat} {a : Address} (ha : o.links[i]? = some a) :
    n.children[i]? = some (some (φ a)) := by
  have hi : i < o.links.length := (List.getElem?_eq_some_iff.mp ha).1
  have htraced : n.traced[i]? = some (some (φ a)) := by rw [h.traced, List.getElem?_map, ha]; rfl
  rw [Node.traced, h.slots, Int.toNat_natCast, List.getElem?_take_of_lt hi] at htraced
  simpa using htraced

theorem Mirrors.child? (h : n.Mirrors φ o) {i : Int} {a : Address} (ha : o.link? i = some a) :
    n.child? i = some (some (φ a)) := by
  unfold Obj.link? at ha
  unfold Node.child?
  split at ha
  next hi => rw [if_pos hi, h.children ha]
  · cases ha

theorem Mirrors.firstChild (h : n.Mirrors φ o) {a : Address} (ha : o.links[0]? = some a) :
    n.firstChild = some (φ a) := by
  have := h.children ha
  rw [Vector.getElem?_eq_getElem (by decide)] at this
  exact Option.some.inj this

/-- A node after one of its children was replaced. -/
theorem Mirrors.set (h : n.Mirrors φ o) (i : Nat) (v : Address) :
    ({ n with children := n.children.setIfInBounds i (some (φ v)) } : Node).Mirrors φ ⟨o.content, o.links.set i v⟩ := by
  refine ⟨h.content, h.allocated, by simpa using h.slots, by simpa using h.room, ?_⟩
  have htraced := h.traced
  simp only [Node.traced] at htraced ⊢
  rw [Vector.toList_setIfInBounds, List.take_set, htraced, List.map_set]

theorem Mirrors.not_overruns (h : n.Mirrors φ o) : n.overruns = false := by
  have hroom : (o.links.length : Int) ≤ maxChildren := by exact_mod_cast h.room
  simp only [overruns, h.slots, decide_eq_false_iff_not]
  omega

theorem getElem?_setLinks (links : List Link) (k : Nat) (cs : Children) (i : Nat) :
    ((links.zipIdx k).foldl (fun cs (v, i) => cs.setIfInBounds i v) cs)[i]? =
      if k ≤ i ∧ i < k + links.length ∧ i < 9 then links[i - k]? else cs[i]? := by
  induction links generalizing k cs with
  | nil => simp; omega
  | cons v rest ih =>
    rw [List.zipIdx_cons, List.foldl_cons, ih]
    simp only [List.length_cons]
    by_cases hlt : i < k
    · rw [if_neg (by omega), if_neg (by omega), Vector.getElem?_setIfInBounds_ne (by omega)]
    · by_cases heq : i = k
      · subst heq
        by_cases h9 : i < 9
        · rw [if_neg (by omega), if_pos (by omega), Vector.getElem?_setIfInBounds_self_of_lt h9]
          simp
        · rw [if_neg (by omega), if_neg (by omega), Vector.getElem?_eq_none (by omega),
            Vector.getElem?_eq_none (by omega)]
      · rw [Vector.getElem?_setIfInBounds_ne (by omega)]
        refine if_congr (by omega) ?_ rfl
        rw [show i - k = (i - (k + 1)) + 1 by omega, List.getElem?_cons_succ]

/-- The children of a new node that was made over links are these links. -/
theorem traced_withChildren (content : Content) (links : List Link) (hroom : links.length ≤ maxChildren) :
    ((Node.fresh content links.length).withChildren links).traced = links := by
  have h9 : links.length ≤ 9 := hroom
  refine List.ext_getElem? fun i => ?_
  simp only [traced, withChildren, fresh, Int.toNat_natCast]
  by_cases hi : i < links.length
  · rw [List.getElem?_take_of_lt hi]
    have := getElem?_setLinks links 0 noChildren i
    rw [if_pos ⟨by omega, by simpa using hi, by omega⟩] at this
    simpa using this
  · rw [List.getElem?_eq_none (by simp; omega), List.getElem?_eq_none (by omega)]

/-- A new node with the renamed links of an object as its children. -/
theorem mirrors_withChildren {φ : Address → Address} {o : Obj} (ha : o.content ≠ .free)
    (hroom : o.links.length ≤ maxChildren) :
    ((Node.fresh o.content o.links.length).withChildren (o.links.map fun a => some (φ a))).Mirrors φ o := by
  have htraced := traced_withChildren o.content (o.links.map fun a => some (φ a)) (by simpa using hroom)
  rw [List.length_map] at htraced
  exact ⟨rfl, ha, rfl, hroom, htraced⟩

end Node

/-! ## Heaps -/

/-- A heap holds the reachable objects of an endless heap, renamed. -/
structure Mirrors (φ : Address → Address) (objs : List Obj) (held : List Address) (h : Heap) : Prop where
  sound : h.Sound
  fixed : ∀ a : Nat, a < Heap.bottom → φ a = a
  inj : ∀ a b, Reach objs held a → Reach objs held b → φ a = φ b → a = b
  node : ∀ a, Reach objs held a → ∃ o n, objs[a]? = some o ∧ h.nodes[φ a]? = some n ∧ n.Mirrors φ o

/-- Links lead to what is held, and to nothing that cannot be reached from there. -/
structure Rooted (φ : Address → Address) (objs : List Obj) (held : List Address) (links : List Link) : Prop where
  sound : ∀ a, some a ∈ links → ∃ b, Reach objs held b ∧ φ b = a
  complete : ∀ a ∈ held, some (φ a) ∈ links

namespace Mirrors

variable {φ : Address → Address} {objs objs' : List Obj} {held held' : List Address} {h h' : Heap} {roots : List Link}

/-- A reachable object and its node. -/
theorem get (hm : Mirrors φ objs held h) {a : Address} (ha : Reach objs held a) {o : Obj} (ho : objs[a]? = some o) :
    ∃ n, h.nodes[φ a]? = some n ∧ n.Mirrors φ o := by
  obtain ⟨o', n, ho', hn, hmirrors⟩ := hm.node a ha
  obtain rfl : o = o' := Option.some.inj (ho.symm.trans ho')
  exact ⟨n, hn, hmirrors⟩

/-- Fewer things may be held. -/
theorem of_held (hm : Mirrors φ objs held h) (hheld : ∀ a ∈ held', Reach objs held a) : Mirrors φ objs held' h where
  sound := hm.sound
  fixed := hm.fixed
  inj a b ha hb := hm.inj a b (ha.of_roots hheld) (hb.of_roots hheld)
  node a ha := hm.node a (ha.of_roots hheld)

theorem of_pins (hm : Mirrors φ objs held h) (pins : Array Link) : Mirrors φ objs held { h with pins := pins } where
  sound := ⟨hm.sound.size, hm.sound.clear, hm.sound.free, hm.sound.pooled.congr rfl rfl rfl⟩
  fixed := hm.fixed
  inj := hm.inj
  node := hm.node

/-- The nodes that can be reached are those of the objects that can be. -/
theorem reaches_iff (hm : Mirrors φ objs held h) (hr : Rooted φ objs held (h.pins.toList ++ roots)) {a : Address} :
    Heap.Reaches h.nodes (h.rootLinks roots) a ↔ ∃ b, Reach objs held b ∧ φ b = a := by
  constructor
  · intro ha
    induction ha with
    | @root a hroot =>
      rw [Heap.rootLinks, List.append_assoc, List.mem_append] at hroot
      rcases hroot with hperm | hroot
      · have hlt : a < Heap.bottom := by
          simp only [Heap.permanentLinks, List.mem_cons, Option.some.injEq, List.not_mem_nil, or_false] at hperm
          rcases hperm with rfl | rfl | rfl | rfl | rfl <;> decide
        exact ⟨a, .permanent hlt, hm.fixed a hlt⟩
      · exact hr.sound a hroot
    | @child a c n _ hn hc ih =>
      obtain ⟨b, hb, rfl⟩ := ih
      obtain ⟨o, n', ho, hn', hmirrors⟩ := hm.node b hb
      obtain rfl : n = n' := Option.some.inj (hn.symm.trans hn')
      rw [hmirrors.traced] at hc
      obtain ⟨d, hd, hdc⟩ := List.mem_map.mp hc
      exact ⟨d, hb.link ho hd, Option.some.inj hdc⟩
  · rintro ⟨b, hb, rfl⟩
    induction hb with
    | @permanent b hlt =>
      rw [hm.fixed b hlt]
      refine .root ?_
      have hfive : b < 5 := hlt
      interval_cases b <;> simp [Heap.rootLinks, Heap.permanentLinks, Heap.falsity, Heap.truth, Heap.null,
        Heap.unassigned, Heap.undefined]
    | root hb =>
      refine .root ?_
      rw [Heap.rootLinks, List.append_assoc, List.mem_append]
      exact .inr (hr.complete _ hb)
    | @link b c o hb ho hc ih =>
      obtain ⟨n, hn, hmirrors⟩ := hm.get hb ho
      refine ih.child hn ?_
      rw [hmirrors.traced]
      exact List.mem_map.mpr ⟨c, hc, rfl⟩

theorem intact (hm : Mirrors φ objs held h) (hr : Rooted φ objs held (h.pins.toList ++ roots)) :
    Heap.Intact h.nodes (h.rootLinks roots) := by
  intro a ha
  obtain ⟨b, hb, rfl⟩ := (hm.reaches_iff hr).mp ha
  obtain ⟨o, n, -, hn, hmirrors⟩ := hm.node b hb
  exact ⟨n, hn, hmirrors.not_overruns, hmirrors.content ▸ hmirrors.allocated⟩

/-! ### Counting -/

theorem lt_size (hm : Mirrors φ objs held h) {a : Address} (ha : Reach objs held a) : φ a < h.nodes.size := by
  obtain ⟨o, n, -, hn, -⟩ := hm.node a ha
  exact (Array.getElem?_eq_some_iff.mp hn).1

theorem finite (hm : Mirrors φ objs held h) : {a | Reach objs held a}.Finite := by
  refine Set.Finite.of_finite_image ?_ (fun a ha b hb => hm.inj a b ha hb)
  refine (Set.finite_lt_nat h.nodes.size).subset ?_
  rintro _ ⟨a, ha, rfl⟩
  exact hm.lt_size ha

theorem image_subset (hm : Mirrors φ objs held h) :
    φ '' {a | Reach objs held a} ⊆ (Finset.range h.nodes.size : Set Nat) := by
  rintro _ ⟨a, ha, rfl⟩
  simpa using hm.lt_size ha

theorem live_eq (hm : Mirrors φ objs held h) : live objs held = (φ '' {a | Reach objs held a}).ncard :=
  (Set.InjOn.ncard_image fun a ha b hb => hm.inj a b ha hb).symm

/-- No more objects are live than there are nodes. -/
theorem live_le (hm : Mirrors φ objs held h) : live objs held ≤ h.nodes.size := by
  rw [hm.live_eq]
  have := Set.ncard_le_ncard hm.image_subset (Finset.finite_toSet _)
  rwa [Set.ncard_coe_finset, Finset.card_range] at this

/-- Fewer objects are live if there is a node of none of them. -/
theorem live_lt (hm : Mirrors φ objs held h) {a : Address} (hlt : a < h.nodes.size)
    (ha : ∀ b, Reach objs held b → φ b ≠ a) : live objs held < h.nodes.size := by
  rw [hm.live_eq]
  have hss : φ '' {a | Reach objs held a} ⊂ (Finset.range h.nodes.size : Set Nat) := by
    refine ⟨hm.image_subset, fun hsub => ?_⟩
    obtain ⟨b, hb, hba⟩ := hsub (show a ∈ (Finset.range h.nodes.size : Set Nat) by simpa using hlt)
    exact ha b hb hba
  have := Set.ncard_lt_ncard hss (Finset.finite_toSet _)
  rwa [Set.ncard_coe_finset, Finset.card_range] at this

/-- As many objects are live as there are nodes if every node is the node of one. -/
theorem le_live (hm : Mirrors φ objs held h) (hall : ∀ a < h.nodes.size, ∃ b, Reach objs held b ∧ φ b = a) :
    h.nodes.size ≤ live objs held := by
  rw [hm.live_eq]
  have hsub : (Finset.range h.nodes.size : Set Nat) ⊆ φ '' {a | Reach objs held a} := by
    intro a ha
    obtain ⟨b, hb, hba⟩ := hall a (by simpa using ha)
    exact ⟨b, hb, hba⟩
  have := Set.ncard_le_ncard hsub (hm.finite.image φ)
  rwa [Set.ncard_coe_finset, Finset.card_range] at this

/-! ### One more object -/

section Adopt

variable {a b : Address} {o : Obj} {n : Node}

/-- An object that could not be reached is held from now on, and a node that could not be reached is its node. -/
theorem adopt (hm : Mirrors φ objs held h) (hnew : ¬ Reach objs held a) (ho : objs'[a]? = some o)
    (hobjs : ∀ c, Reach objs held c → objs'[c]? = objs[c]?) (hlinks : ∀ c ∈ o.links, Reach objs held c)
    (hs : h'.Sound) (hkept : ∀ c, Reach objs held c → h'.nodes[φ c]? = h.nodes[φ c]?)
    (hfree : ∀ c, Reach objs held c → φ c ≠ b) (hn : h'.nodes[b]? = some n) (hmirrors : n.Mirrors φ o) :
    Mirrors (Function.update φ a b) objs' (a :: held) h' := by
  have hold : ∀ c, Reach objs held c → Function.update φ a b c = φ c := by
    intro c hc
    have hca : c ≠ a := by
      rintro rfl
      exact hnew hc
    exact Function.update_of_ne hca b φ
  have hself : Function.update φ a b a = b := Function.update_self a b φ
  refine ⟨hs, fun c hc => (hold c (.permanent hc)).trans (hm.fixed c hc), fun c d hc hd heq => ?_, fun c hc => ?_⟩
  · rw [reach_adopt ho hobjs hlinks] at hc hd
    rcases hc with rfl | hc
    · rcases hd with rfl | hd
      · rfl
      · rw [hself, hold d hd] at heq
        exact absurd heq.symm (hfree d hd)
    · rcases hd with rfl | hd
      · rw [hself, hold c hc] at heq
        exact absurd heq (hfree c hc)
      · rw [hold c hc, hold d hd] at heq
        exact hm.inj c d hc hd heq
  · rw [reach_adopt ho hobjs hlinks] at hc
    rcases hc with rfl | hc
    · exact ⟨o, n, ho, hself.symm ▸ hn, hmirrors.congr fun d hd => hold d (hlinks d hd)⟩
    · obtain ⟨o', n', ho', hn', hmirrors'⟩ := hm.node c hc
      refine ⟨o', n', (hobjs c hc).trans ho', ?_, hmirrors'.congr fun d hd => hold d (hc.link ho' hd)⟩
      rw [hold c hc, hkept c hc, hn']

theorem live_adopt (hm : Mirrors φ objs held h) (hnew : ¬ Reach objs held a) (ho : objs'[a]? = some o)
    (hobjs : ∀ c, Reach objs held c → objs'[c]? = objs[c]?) (hlinks : ∀ c ∈ o.links, Reach objs held c) :
    live objs' (a :: held) = live objs held + 1 := by
  have hset : {c | Reach objs' (a :: held) c} = insert a {c | Reach objs held c} :=
    Set.ext fun c => reach_adopt ho hobjs hlinks
  have hmem : a ∉ {c | Reach objs held c} := hnew
  rw [live, hset, Set.ncard_insert_of_notMem hmem hm.finite, live]

end Adopt

/-- A reachable link of a reachable object is replaced by another one. -/
theorem store (hm : Mirrors φ objs held h) {f v : Address} (hf : Reach objs held f) {o : Obj} (ho : objs[f]? = some o)
    (hv : Reach objs held v) {i : Nat} (hi : i < o.links.length) {n : Node} (hn : h.nodes[φ f]? = some n) :
    Mirrors φ (objs.set f ⟨o.content, o.links.set i v⟩) held
      (h.setNode (φ f) { n with children := n.children.setIfInBounds i (some (φ v)) }) := by
  obtain ⟨n', hn', hmirrors⟩ := hm.get hf ho
  obtain rfl : n = n' := Option.some.inj (hn.symm.trans hn')
  have hlinks : ∀ b ∈ o.links.set i v, Reach objs held b := by
    intro b hb
    rcases List.mem_or_eq_of_mem_set hb with hb | rfl
    · exact hf.link ho hb
    · exact hv
  have hold : ∀ {b : Address}, Reach (objs.set f ⟨o.content, o.links.set i v⟩) held b → Reach objs held b := .of_set hlinks
  have hstring : ∀ t, n.content ≠ .string t := by
    intro t hc
    have hslots := hm.sound.pooled.leaf _ n t hn hc
    rw [hmirrors.slots] at hslots
    omega
  refine ⟨hm.sound.setNode hn rfl (hmirrors.content ▸ hmirrors.allocated) hstring, hm.fixed,
    fun a b ha hb => hm.inj a b (hold ha) (hold hb), fun a ha => ?_⟩
  by_cases haf : a = f
  · subst haf
    refine ⟨_, _, List.getElem?_set_self (List.getElem?_eq_some_iff.mp ho).1, ?_, hmirrors.set i v⟩
    exact Array.getElem?_setIfInBounds_self_of_lt (Array.getElem?_eq_some_iff.mp hn).1
  · obtain ⟨o', n', ho', hn', hmirrors'⟩ := hm.node a (hold ha)
    have hne : φ f ≠ φ a := fun heq => haf (hm.inj a f (hold ha) hf heq.symm)
    refine ⟨o', n', (List.getElem?_set_ne (Ne.symm haf)).trans ho', ?_, hmirrors'⟩
    exact (Array.getElem?_setIfInBounds_ne hne).trans hn'

/-- A reachable object is older than the ones to come. -/
theorem lt_length (hm : Mirrors φ objs held h) {a : Address} (ha : Reach objs held a) : a < objs.length := by
  obtain ⟨o, -, ho, -⟩ := hm.node a ha
  exact (List.getElem?_eq_some_iff.mp ho).1

theorem not_reach_length (hm : Mirrors φ objs held h) : ¬ Reach objs held objs.length :=
  fun ha => Nat.lt_irrefl _ (hm.lt_length ha)

theorem getElem?_append (hm : Mirrors φ objs held h) (o : Obj) {a : Address} (ha : Reach objs held a) :
    (objs ++ [o])[a]? = objs[a]? :=
  List.getElem?_append_left (hm.lt_length ha)

theorem live_append (hm : Mirrors φ objs held h) {o : Obj} (hlinks : ∀ c ∈ o.links, Reach objs held c) :
    live (objs ++ [o]) (objs.length :: held) = live objs held + 1 :=
  hm.live_adopt hm.not_reach_length (by simp) (fun _ hc => hm.getElem?_append o hc) hlinks

/-- What could be reached before an object was added can be reached after it. -/
theorem reach_append (hm : Mirrors φ objs held h) {o : Obj} (hlinks : ∀ c ∈ o.links, Reach objs held c) {a : Address}
    (ha : Reach objs held a) : Reach (objs ++ [o]) (objs.length :: held) a :=
  (reach_adopt (by simp) (fun _ hc => hm.getElem?_append o hc) hlinks).mpr (.inr ha)

/-- The renaming of what could be reached before an object was added stays. -/
theorem update_old (hm : Mirrors φ objs held h) (b : Address) {a : Address} (ha : Reach objs held a) :
    Function.update φ objs.length b a = φ a := by
  have hne : a ≠ objs.length := by
    rintro rfl
    exact hm.not_reach_length ha
  exact Function.update_of_ne hne b φ

end Mirrors

end Tenure
