import Tenure.Proofs.Mirror.Heap

/-!
# Allocations as seen by the endless heap

Every operation that makes a node adds its object to the endless heap, `Adds`: it succeeds if fewer objects are live
than there are nodes and fails for want of memory otherwise, unless there are more nodes than addresses and it strays.
Nodes in use only change where a slot is written, `Mirrors.store`.
-/

set_option autoImplicit false

namespace Tenure

variable {φ : Address → Address} {objs objs' : List Obj} {held : List Address} {h h₁ : Heap} {roots : Roots} {o : Obj}

/-- An operation gives a node to an object, which is held from then on, or fails because all nodes are in use, or
strays. -/
def Adds (act : HeapM Address) (φ : Address → Address) (objs : List Obj) (held : List Address) (a : Address)
    (objs' : List Obj) (roots : Roots) (h : Heap) : Prop :=
  act.Strays roots h ∨
  (live objs held < h.nodes.size → ∃ b h', act roots h = (.ok b, h') ∧
    Mirrors (Function.update φ a b) objs' (a :: held) h' ∧ h'.nodes.size = h.nodes.size ∧ h'.pins = h.pins) ∧
  (h.nodes.size ≤ live objs held → ∃ h', act roots h = (.error (.failed .exhausted), h'))

/-- Things that can be reached may be pinned. -/
theorem Rooted.pin {pins links : List Link} (hr : Rooted φ objs held (pins ++ links)) {more : List Address}
    (hmore : ∀ a ∈ more, Reach objs held a) :
    Rooted φ objs held (pins ++ more.map (fun a => some (φ a)) ++ links) := by
  refine ⟨fun a ha => ?_, fun a ha => ?_⟩
  · simp only [List.mem_append, List.mem_map, Option.some.injEq] at ha
    rcases ha with (ha | ⟨b, hb, rfl⟩) | ha
    · exact hr.sound a (by simp [ha])
    · exact ⟨b, hmore b hb, rfl⟩
    · exact hr.sound a (by simp [ha])
  · have := hr.complete a ha
    simp only [List.mem_append] at this ⊢
    rcases this with ha | ha
    · exact .inl (.inl ha)
    · exact .inr ha

theorem wordsFor_le (slots : Nat) (hslots : slots ≤ maxChildren) : wordsFor slots ≤ nodeWords := by
  have h9 : slots ≤ 9 := hslots
  have hwords : wordsFor slots = slots + 1 := by
    simp only [wordsFor, oneMore]
    rw [Int.bmod_def]
    omega
  rw [hwords, nodeWords]
  omega

/-- A new object gets the node that the heap offers. -/
theorem Mirrors.offered (hm : Mirrors φ objs held h) (hr : Rooted φ objs held (h.pins.toList ++ roots.get)) {b : Address}
    {next : Link} (hoffer : Heap.Offers roots.get h h₁ b next) (hlinks : ∀ a ∈ o.links, Reach objs held a) {n : Node}
    (hn : n.Mirrors φ o) (hs : ∀ t, o.content ≠ .string t) :
    Mirrors (Function.update φ objs.length b) (objs ++ [o]) (objs.length :: held) (h₁.place b next n) := by
  have hfree : ∀ c, Reach objs held c → φ c ≠ b := by
    rintro c hc rfl
    exact hoffer.unreached ((hm.reaches_iff hr).mpr ⟨c, hc, rfl⟩)
  refine hm.adopt hm.not_reach_length (by simp) (fun c hc => hm.getElem?_append o hc) hlinks
    (hoffer.sound.place hoffer.free hoffer.vacant (hn.content ▸ hs)) (fun c hc => ?_) hfree
    (Heap.getElem?_place_self hoffer.vacant next n) hn
  rw [Heap.getElem?_place_ne (hfree c hc)]
  exact hoffer.kept (φ c) ((hm.reaches_iff hr).mpr ⟨c, hc, rfl⟩)

/-- An allocation offers a node, and fewer objects are live than there are nodes, or it strays, or all nodes are in
use. -/
theorem Mirrors.allocate (hm : Mirrors φ objs held h) (hr : Rooted φ objs held (h.pins.toList ++ roots.get)) {n : Node}
    (hn : wordsFor n.slots ≤ nodeWords) :
    (∃ h₁ b next, HeapM.allocate n roots h = (.ok b, h₁.place b next n) ∧ Heap.Offers roots.get h h₁ b next ∧
      live objs held < h.nodes.size) ∨
    (HeapM.allocate n).Strays roots h ∨
    (∃ h₁, HeapM.allocate n roots h = (.error (.failed .exhausted), h₁)) ∧ h.nodes.size ≤ live objs held := by
  rcases Heap.allocate_spec hm.sound (hm.intact hr) hn with ⟨h₁, b, next, hrun, hoffer⟩ | hstrays | ⟨hrun, hall⟩
  · refine .inl ⟨h₁, b, next, hrun, hoffer, hm.live_lt (a := b) ?_ ?_⟩
    · exact hoffer.size ▸ (Array.getElem?_eq_some_iff.mp hoffer.vacant).1
    · rintro c hc rfl
      exact hoffer.unreached ((hm.reaches_iff hr).mpr ⟨c, hc, rfl⟩)
  · exact .inr (.inl hstrays)
  · exact .inr (.inr ⟨hrun, hm.le_live fun a ha => (hm.reaches_iff hr).mp (hall a ha)⟩)

theorem allocate_adds (hm : Mirrors φ objs held h) (hr : Rooted φ objs held (h.pins.toList ++ roots.get))
    (hlinks : ∀ a ∈ o.links, Reach objs held a) {n : Node} (hn : n.Mirrors φ o) (hs : ∀ t, o.content ≠ .string t) :
    Adds (HeapM.allocate n) φ objs held objs.length (objs ++ [o]) roots h := by
  have hw : wordsFor n.slots ≤ nodeWords := hn.slots ▸ wordsFor_le _ hn.room
  rcases hm.allocate hr hw with ⟨h₁, b, next, hrun, hoffer, hlt⟩ | hstrays | ⟨hrun, hle⟩
  · refine .inr ⟨fun _ => ⟨b, _, hrun, hm.offered hr hoffer hlinks hn hs, ?_, hoffer.pins⟩, fun hle => by omega⟩
    simpa [Heap.place] using hoffer.size
  · exact .inl hstrays
  · exact .inr ⟨fun hlt => by omega, fun _ => hrun⟩

/-- Pinning what can be reached makes no difference to an allocation. -/
theorem pinning_adds {act : HeapM Address} {a : Address} {links : List Link}
    (hact : Adds act φ objs held a objs' roots { h with pins := h.pins ++ links.toArray }) :
    Adds (HeapM.pinning links act) φ objs held a objs' roots h := by
  refine hact.imp HeapM.Strays.pinning fun ⟨hroom, hfull⟩ => ⟨fun hlt => ?_, fun hle => ?_⟩
  · obtain ⟨b, h', hrun, hm', hsize, hpins⟩ := hroom hlt
    refine ⟨b, { h' with pins := h'.pins.extract 0 h.pins.size }, ?_, hm'.of_pins _, hsize, ?_⟩
    · simp only [HeapM.pinning, hrun]
    · simp [hpins]
  · obtain ⟨h', hrun⟩ := hfull hle
    exact ⟨{ h' with pins := h'.pins.extract 0 h.pins.size }, by simp only [HeapM.pinning, hrun]⟩

theorem allocateOver_adds (hm : Mirrors φ objs held h) (hr : Rooted φ objs held (h.pins.toList ++ roots.get))
    (hlinks : ∀ a ∈ o.links, Reach objs held a) (hroom : o.links.length ≤ maxChildren) (ha : o.content ≠ .free)
    (hs : ∀ t, o.content ≠ .string t) :
    Adds (HeapM.allocateOver o.content o.links.length (o.links.map fun a => some (φ a))) φ objs held objs.length
      (objs ++ [o]) roots h := by
  refine pinning_adds (allocate_adds (hm.of_pins _) ?_ hlinks (Node.mirrors_withChildren ha hroom) hs)
  simpa using hr.pin hlinks

theorem frame_adds (hm : Mirrors φ objs held h) (hr : Rooted φ objs held (h.pins.toList ++ roots.get)) {slots : Nat}
    (hslots : slots ≤ maxChildren) :
    Adds (HeapM.frame slots) φ objs held objs.length (objs ++ [⟨.frame, List.replicate slots Heap.unassigned⟩]) roots h := by
  have hperm : Heap.unassigned < Heap.bottom := by decide
  let o : Obj := ⟨.frame, List.replicate slots Heap.unassigned⟩
  have hn : ((Node.fresh .frame o.links.length).withChildren (o.links.map fun a => some (φ a))).Mirrors φ o :=
    Node.mirrors_withChildren (o := o) (by simp [o]) (by simpa [o] using hslots)
  have hnode : (Node.fresh .frame slots).withChildren
      (List.replicate (min (slots : Int).toNat maxChildren) (some Heap.unassigned)) =
      (Node.fresh .frame o.links.length).withChildren (o.links.map fun a => some (φ a)) := by
    simp [o, hm.fixed _ hperm, hslots]
  have hact : HeapM.frame slots =
      HeapM.allocate ((Node.fresh .frame o.links.length).withChildren (o.links.map fun a => some (φ a))) := by
    simp only [HeapM.frame, hnode, hn.not_overruns, Bool.false_eq_true, if_false, bind_pure]
  rw [hact]
  refine allocate_adds hm hr (fun a ha => ?_) hn (by simp)
  rw [List.eq_of_mem_replicate ha]
  exact .permanent hperm

/-- An environment with one more frame is made in two steps: a node without links first, its links once it is there. The
frame and the outer environment are pinned, so nothing else has to hold them. -/
theorem extend_adds (hm : Mirrors φ objs held h) {f e : Address}
    (hr : Rooted φ objs held (h.pins.toList ++ [some (φ f), some (φ e)] ++ roots.get)) (hf : Reach objs held f)
    (he : Reach objs held e) {outer : Obj} (ho : objs[e]? = some outer) (hroom : outer.links.length + 1 ≤ maxChildren) :
    Adds (HeapM.extend (some (φ f)) (some (φ e))) φ objs held objs.length
      (objs ++ [⟨.environment, outer.links ++ [f]⟩]) roots h := by
  refine pinning_adds ?_
  have hr' : Rooted φ objs held ((h.pins ++ [some (φ f), some (φ e)].toArray).toList ++ roots.get) := by simpa using hr
  have hm' := hm.of_pins (h.pins ++ [some (φ f), some (φ e)].toArray)
  obtain ⟨outerNode, hget, hmirrors⟩ := hm'.get he ho
  let o : Obj := ⟨.environment, outer.links ++ [f]⟩
  have hlinks : ∀ a ∈ o.links, Reach objs held a := by
    intro a ha
    simp only [o, List.mem_append, List.mem_singleton] at ha
    rcases ha with ha | rfl
    · exact he.link ho ha
    · exact hf
  have hn : ((Node.fresh .environment o.links.length).withChildren (o.links.map fun a => some (φ a))).Mirrors φ o :=
    Node.mirrors_withChildren (o := o) (by simp [o]) (by simpa [o] using hroom)
  have hslots : oneMore outerNode.slots = o.links.length := by
    have h9 : outer.links.length + 1 ≤ 9 := hroom
    rw [hmirrors.slots, oneMore, Int.bmod_def]
    simp only [o, List.length_append, List.length_singleton]
    omega
  have htraced : outerNode.traced ++ [some (φ f)] = o.links.map fun a => some (φ a) := by
    rw [hmirrors.traced]
    simp [o]
  have hinside : ¬ (outerNode.slots < 0 ∨ outerNode.overruns = true) := by
    rw [hmirrors.not_overruns, hmirrors.slots, not_or]
    exact ⟨by omega, by simp⟩
  have hw : wordsFor (Node.fresh .environment o.links.length).slots ≤ nodeWords :=
    wordsFor_le o.links.length (by simpa [o] using hroom)
  have hempty : HeapM.environment o.links.length = HeapM.allocate (.fresh .environment o.links.length) := rfl
  rcases hm'.allocate hr' hw with ⟨h₁, b, next, hrun, hoffer, hlt⟩ | ⟨h₁, hrun, hmany⟩ | ⟨⟨h₁, hrun⟩, hle⟩
  · refine .inr ⟨fun _ => ⟨b, _, ?_, hm'.offered hr' hoffer hlinks hn (by simp [o]), ?_, hoffer.pins⟩, fun hle => by omega⟩
    · rw [HeapM.bind_ok (HeapM.follow_apply hget), hslots, hempty, HeapM.bind_ok hrun, if_neg hinside, htraced]
      have hplaced := Heap.getElem?_place_self hoffer.vacant next (Node.fresh .environment o.links.length)
      simp only [HeapM.modify_bind_apply, HeapM.pure_apply, Heap.node?, hplaced, Heap.setNode]
      simp [Heap.place]
    · simpa [Heap.place] using hoffer.size
  · refine .inl ⟨h₁, ?_, hmany⟩
    rw [HeapM.bind_ok (HeapM.follow_apply hget), hslots, hempty, HeapM.bind_error hrun]
  · refine .inr ⟨fun hlt => by omega, fun _ => ⟨h₁, ?_⟩⟩
    rw [HeapM.bind_ok (HeapM.follow_apply hget), hslots, hempty, HeapM.bind_error hrun]

/-- A text that no reachable object holds gets a node: one that the pool still has, or a new one. -/
theorem string_adds (hm : Mirrors φ objs held h) (hr : Rooted φ objs held (h.pins.toList ++ roots.get)) {t : Text}
    {a : Address} (hnew : ¬ Reach objs held a) (ho : objs'[a]? = some ⟨.string t, []⟩)
    (hobjs : ∀ c, Reach objs held c → objs'[c]? = objs[c]?)
    (htext : ∀ c o, Reach objs held c → objs[c]? = some o → o.content ≠ .string t) :
    Adds (HeapM.string t) φ objs held a objs' roots h := by
  have hmissing : ∀ b, Heap.IsString h.nodes b t → ∀ c, Reach objs held c → φ c ≠ b := by
    rintro _ ⟨n, hn, hc⟩ c hreach rfl
    obtain ⟨o, n', ho', hn', hmirrors⟩ := hm.node c hreach
    obtain rfl : n = n' := Option.some.inj (hn.symm.trans hn')
    exact htext c o hreach ho' (hmirrors.content ▸ hc)
  have hleaf : ∀ n : Node, n.content = .string t → n.slots = 0 → n.Mirrors φ ⟨.string t, []⟩ := by
    intro n hc hslots
    exact ⟨hc, by simp, hslots, by simp, by simp [Node.traced, hslots]⟩
  cases hfind : h.findText? t with
  | some b =>
    have hb := hm.sound.pooled.isString_of_findText? hfind
    have hfree := hmissing b hb
    obtain ⟨n, hn, hc⟩ := hb
    have hlt := hm.live_lt (Array.getElem?_eq_some_iff.mp hn).1 hfree
    refine .inr ⟨fun _ => ⟨b, h, ?_, ?_, rfl, rfl⟩, fun hle => by omega⟩
    · simp [HeapM.string, hfind]
    · exact hm.adopt hnew ho hobjs (by simp) hm.sound (fun _ _ => rfl) hfree hn
        (hleaf n hc (hm.sound.pooled.leaf b n t hn hc))
  | none =>
    rcases hm.allocate hr (n := .fresh (.string t) 0) (wordsFor_le 0 (by decide)) with
      ⟨h₁, b, next, hrun, hoffer, hlt⟩ | ⟨h₁, hrun, hmany⟩ | ⟨⟨h₁, hrun⟩, hle⟩
    · have hfree : ∀ c, Reach objs held c → φ c ≠ b := by
        rintro c hc rfl
        exact hoffer.unreached ((hm.reaches_iff hr).mpr ⟨c, hc, rfl⟩)
      have hnone : ∀ c, ¬ Heap.IsString h₁.nodes c t := fun c hc =>
        hm.sound.pooled.findText?_none hfind c (hoffer.strings c t hc)
      refine .inr ⟨fun _ => ⟨b, (h₁.place b next (.fresh (.string t) 0)).remember t b, ?_, ?_, ?_, hoffer.pins⟩,
        fun hle => by omega⟩
      · simp only [HeapM.string, HeapM.get_bind_apply, hfind]
        rw [HeapM.bind_ok hrun]
        rfl
      · refine hm.adopt hnew ho hobjs (by simp) (hoffer.sound.place_string hoffer.free hoffer.vacant hnone)
          (fun c hc => ?_) hfree (Heap.getElem?_place_self hoffer.vacant next _) (hleaf _ rfl rfl)
        refine (Heap.getElem?_place_ne (hfree c hc) h₁ next _).trans ?_
        exact hoffer.kept (φ c) ((hm.reaches_iff hr).mpr ⟨c, hc, rfl⟩)
      · simpa [Heap.remember, Heap.place] using hoffer.size
    · refine .inl ⟨h₁, ?_, hmany⟩
      simp only [HeapM.string, HeapM.get_bind_apply, hfind]
      exact HeapM.bind_error hrun
    · refine .inr ⟨fun hlt => by omega, fun _ => ⟨h₁, ?_⟩⟩
      simp only [HeapM.string, HeapM.get_bind_apply, hfind]
      exact HeapM.bind_error hrun

/-- The pool finds the node of a text that a reachable object holds. -/
theorem string_found (hm : Mirrors φ objs held h) {t : Text} {a : Address} (ha : Reach objs held a)
    (ho : objs[a]? = some o) (hc : o.content = .string t) : HeapM.string t roots h = (.ok (φ a), h) := by
  obtain ⟨n, hn, hmirrors⟩ := hm.get ha ho
  have hstring : Heap.IsString h.nodes (φ a) t := ⟨n, hn, hmirrors.content.trans hc⟩
  cases hfind : h.findText? t with
  | none => exact absurd hstring (hm.sound.pooled.findText?_none hfind (φ a))
  | some b =>
    obtain rfl := hm.sound.pooled.unique _ _ t hstring (hm.sound.pooled.isString_of_findText? hfind)
    simp [HeapM.string, hfind]

end Tenure
