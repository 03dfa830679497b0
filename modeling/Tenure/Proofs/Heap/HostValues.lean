import Tenure.Proofs.Double.Order
import Tenure.Proofs.Heap.Operations

/-!
# Host values in the heap

A host value made of constants, numbers, strings and pairs can be put into a heap and read back: `Heap.Whole.host_survives`.
Making it can take many allocations, each of which may collect. What is made already is kept by pins, so that it is still
there when the rest is made: a value that is represented in a heap, `Heap.Represents`, is represented in every heap in
which the nodes are the same that can be reached from its node.
-/

set_option autoImplicit false

namespace Tenure

/-- A host value that a heap can hold exactly: constants, integers that doubles can hold, doubles and strings, and pairs of
such values, nested at most to a depth. -/
def Host.Exact : Host → Nat → Prop
  | .null, _ | .undefined, _ | .bool _, _ | .float _, _ | .str _, _ => True
  | .int n, _ => n.natAbs ≤ 2 ^ 53
  | .pair head tail, depth + 1 => head.Exact depth ∧ tail.Exact depth
  | _, _ => False

/-- The content of the node of a host value that has no parts. -/
def Host.leaf? : Host → Option Content
  | .null => some .null
  | .undefined => some .undefined
  | .bool b => some (if b then .truth else .falsity)
  | .int n => some (.number (.int n))
  | .float x => some (.number (.float x))
  | .str t => some (.string t)
  | _ => none

/-- An integer that a double can hold is not rounded. -/
theorem Double.roundInt_exact {n : Int} (hn : n.natAbs ≤ 2 ^ 53) : roundInt n = n := by
  rcases Nat.lt_or_eq_of_le hn with hlt | heq
  · exact roundInt_eq hlt
  · rcases Int.natAbs_eq n with hpos | hneg
    · rw [hpos, heq]
      decide
    · rw [hneg, heq]
      decide

namespace Heap

variable {h h' h₁ h₂ : Heap} {roots : Roots} {held links : List Link} {a x y : Address} {n node : Node} {v head tail : Host}
  {depth : Nat}

/-! ## Represented values -/

/-- The node of a pair. -/
def pairNode (x y : Address) : Node := (Node.fresh .pair 2).withChildren [some x, some y]

theorem traced_pairNode (x y : Address) : (pairNode x y).traced = [some x, some y] :=
  Node.traced_withChildren .pair [some x, some y] (Nat.le_of_ble_eq_true rfl)

/-- A node with the nodes that hang on it holds a host value. -/
inductive Represents (nodes : Array Node) : Address → Host → Prop where
  | leaf {a : Address} {n : Node} {v : Host} (hn : nodes[a]? = some n) (hleaf : v.leaf? = some n.content) :
    Represents nodes a v
  | pair {a x y : Address} {head tail : Host} (hn : nodes[a]? = some (pairNode x y))
    (hhead : Represents nodes x head) (htail : Represents nodes y tail) : Represents nodes a (.pair head tail)

/-- A value is still represented where the nodes are the same that can be reached. -/
theorem Represents.kept {nodes nodes' : Array Node} (hv : Represents nodes a v) (ha : Reaches nodes links a)
    (hkept : ∀ b, Reaches nodes links b → nodes'[b]? = nodes[b]?) : Represents nodes' a v := by
  induction hv with
  | leaf hn hleaf => exact .leaf ((hkept _ ha).trans hn) hleaf
  | @pair a x y head tail hn _ _ ihhead ihtail =>
    have hx : Reaches nodes links x := ha.child hn (by simp [traced_pairNode])
    have hy : Reaches nodes links y := ha.child hn (by simp [traced_pairNode])
    exact .pair ((hkept _ ha).trans hn) (ihhead hx) (ihtail hy)

/-- A represented value can be read from the heap if it is not nested too deep. -/
theorem Represents.ofLink? (hrep : Represents h.nodes a v) (hv : v.Exact depth) :
    Host.ofLink? h (depth + 1) (some a) = some v := by
  induction hrep generalizing depth with
  | @leaf a n v hn hleaf =>
    rw [Host.ofLink?, node?, hn]
    cases v with
    | int m =>
      obtain hcontent : .number (.int m) = n.content := Option.some.inj hleaf
      have hm : m.natAbs ≤ 2 ^ 53 := hv
      have hword : m.bmod 0x10000000000000000 = m := by
        rw [Int.bmod_def]
        omega
      simp [← hcontent, Host.ofNumber, hword]
    | bool b =>
      obtain hcontent := Option.some.inj hleaf
      cases b <;> simp [← hcontent]
    | null | undefined | str t =>
      obtain hcontent := Option.some.inj hleaf
      simp [← hcontent]
    | float x =>
      obtain hcontent : .number (.float x) = n.content := Option.some.inj hleaf
      simp [← hcontent, Host.ofNumber]
    | pair | ref | word | single | charCode => cases hleaf
  | @pair a x y head tail hn _ _ ihhead ihtail =>
    cases depth with
    | zero => exact hv.elim
    | succ depth =>
      rw [Host.ofLink?, node?, hn]
      have hcontent : (pairNode x y).content = .pair := rfl
      have hfirst : (pairNode x y).child? 0 = some (some x) := rfl
      have hsecond : (pairNode x y).child? 1 = some (some y) := rfl
      simp [hcontent, hfirst, hsecond, ihhead hv.1, ihtail hv.2]

/-! ## What is kept -/

/-- A heap that satisfies the representation invariant, its pool included. -/
structure Whole (h : Heap) : Prop where
  consistent : h.Consistent
  pooled : h.Pooled

/-- A whole heap in which whatever could be reached before is as it was, and so are the pins. -/
structure Upholds (held : List Link) (h h' : Heap) : Prop where
  whole : h'.Whole
  pins : h'.pins = h.pins
  kept : ∀ a, Reaches h.nodes (h.rootLinks held) a → h'.nodes[a]? = h.nodes[a]?

namespace Upholds

theorem refl (hw : h.Whole) : Upholds held h h := ⟨hw, rfl, fun _ _ => rfl⟩

theorem of_more (hu : Upholds (links ++ held) h h') : Upholds held h h' := by
  refine ⟨hu.whole, hu.pins, fun a ha => hu.kept a (ha.mono fun l hl => ?_)⟩
  simp only [Heap.rootLinks, List.mem_append] at hl ⊢
  tauto

theorem reaches (hu : Upholds held h h') (ha : Reaches h.nodes (h.rootLinks held) a) :
    Reaches h'.nodes (h'.rootLinks held) a := by
  have hlinks : h'.rootLinks held = h.rootLinks held := by rw [Heap.rootLinks, hu.pins, Heap.rootLinks]
  rw [hlinks]
  exact ha.kept hu.kept

theorem trans (hu : Upholds held h h₁) (hu' : Upholds held h₁ h₂) : Upholds held h h₂ where
  whole := hu'.whole
  pins := hu'.pins.trans hu.pins
  kept a ha := (hu'.kept a (hu.reaches ha)).trans (hu.kept a ha)

theorem isAllocated (hu : Upholds held h h') (hw : h.Whole) (hr : h.Holds held)
    (ha : Reaches h.nodes (h.rootLinks held) a) : h'.isAllocated a = true := by
  rw [isAllocated_congr (hu.kept a ha)]
  exact hw.consistent.reaches_allocated hr ha

/-- The roots of whoever uses the heap are still allocated. -/
theorem holds (hu : Upholds held h h') (hw : h.Whole) (hr : h.Holds held) : h'.Holds held := by
  intro a ha
  apply hu.isAllocated hw hr
  exact .root (by simp [Heap.rootLinks, ha])

end Upholds

/-- What making a value leads to: the node that is given out, if one is, represents it. -/
structure Gives (held : List Link) (v : Host) (h : Heap) (result : Option Address) (h' : Heap) : Prop extends
    Upholds held h h' where
  represents : ∀ a ∈ result, Represents h'.nodes a v

theorem Upholds.gives_none (hu : Upholds held h h') : Gives held v h none h' := ⟨hu, by simp⟩

theorem Represents.isAllocated (hv : Represents h.nodes a v) : h.isAllocated a = true := by
  apply isAllocated_iff.mpr
  cases hv with
  | @leaf _ n _ hn hleaf =>
    refine ⟨n, hn, fun hfree => ?_⟩
    rw [hfree] at hleaf
    cases v with
    | bool b => cases b <;> cases hleaf
    | _ => cases hleaf
  | pair hn => exact ⟨_, hn, by simp [pairNode, Node.withChildren, Node.fresh]⟩

namespace Whole

theorem with_pins (hw : h.Whole) {pins : Array Link} (hp : h.Holds pins.toList) :
    ({ h with pins := pins } : Heap).Whole where
  consistent := { hw.consistent with pins := hp }
  pooled := hw.pooled.congr rfl rfl rfl

/-! ## Allocations -/

/-- An allocation fails, or puts the node where none is that could be reached. -/
theorem offers (hw : h.Whole) (hr : h.Holds roots.get) (node : Node) :
    (∃ e h₁, HeapM.allocate node roots h = (.error (.failed e), h₁) ∧ Upholds roots.get h h₁) ∨
      ∃ h₁ a n, HeapM.allocate node roots h = (.ok a, h₁.place a n.next node) ∧ Upholds roots.get h h₁ ∧
        (∀ b t, IsString h₁.nodes b t → IsString h.nodes b t) ∧ h₁.free = some a ∧ h₁.nodes[a]? = some n := by
  by_cases hwords : (nodeWords : Int) < wordsFor node.slots
  · exact .inl ⟨.tooLarge, h, by simp only [HeapM.allocate, if_pos hwords]; rfl, .refl hw⟩
  have hfits := Int.not_lt.mp hwords
  cases hf : h.free with
  | some a =>
    obtain ⟨n, hn, -, -⟩ := hw.consistent.free.first hf
    refine .inr ⟨h, a, n, ?_, .refl hw, fun _ _ hb => hb, hf, hn⟩
    rw [allocate_of_free hfits hf]
    simp [HeapM.take, take?, hf, node?, hn, place]
  | none =>
    obtain ⟨h', hcollect, hcollects⟩ := hw.consistent.collect hr
    have hcleared := hcollects.cleared
    have hu : Upholds roots.get h h' :=
      ⟨⟨hcollects.consistent, hcleared.pooled hw.pooled⟩, hcleared.pins, hcleared.kept⟩
    have halloc : HeapM.allocate node roots h = HeapM.take node roots h' := allocate_of_collect hfits hf hcollect
    cases hf' : h'.free with
    | none => exact .inl ⟨.exhausted, h', by rw [halloc, take_of_empty hf'], hu⟩
    | some a =>
      obtain ⟨n, hn, -, -⟩ := hu.whole.consistent.free.first hf'
      refine .inr ⟨h', a, n, ?_, hu, hcleared.strings, hf', hn⟩
      rw [halloc]
      simp [HeapM.take, take?, hf', node?, hn, place]

/-- A node over children that can be reached is put where no node could be reached. -/
theorem place (hu : Upholds held h h₁) (hw : h.Whole) (hr : h.Holds held) (hf : h₁.free = some a)
    (hn : h₁.nodes[a]? = some n) (hcontent : node.content ≠ .free) (hover : node.overruns = false)
    (hlinks : ∀ b, some b ∈ node.traced → Reaches h.nodes (h.rootLinks held) b)
    {pool : Std.HashMap UInt64 (List Address)}
    (hpooled : ({ h₁.place a n.next node with pool := pool } : Heap).Pooled) :
    Upholds held h { h₁.place a n.next node with pool := pool } := by
  have hconsistent : (h₁.place a n.next node).Consistent :=
    hu.whole.consistent.place hf hn hcontent hover fun b hb => hu.isAllocated hw hr (hlinks b hb)
  refine ⟨⟨hconsistent.with_pool pool, hpooled⟩, hu.pins, fun b hb => ?_⟩
  have hba : b ≠ a := by
    rintro rfl
    obtain ⟨m, hm, -, hvacant⟩ := hu.whole.consistent.free.first hf
    rw [hu.isAllocated hw hr hb] at hvacant
    cases hvacant
  exact (getElem?_place_ne hba h₁ n.next node).trans (hu.kept b hb)

/-- Allocation of a node that is no string, over children that can be reached. -/
theorem allocate (hw : h.Whole) (hr : h.Holds roots.get) (node : Node) (hcontent : node.content ≠ .free)
    (hstring : ∀ t, node.content ≠ .string t) (hover : node.overruns = false)
    (hlinks : ∀ b, some b ∈ node.traced → Reaches h.nodes (h.rootLinks roots.get) b) :
    (HeapM.allocate node).Leads roots h fun r h' => Upholds roots.get h h' ∧ ∀ a ∈ r, h'.nodes[a]? = some node := by
  rcases hw.offers hr node with ⟨e, h₁, hrun, hu⟩ | ⟨h₁, a, n, hrun, hu, -, hf, hn⟩
  · exact .of_failed hrun ⟨hu, by simp⟩
  · have hold : ∀ t, ¬ IsString h₁.nodes a t := by
      rintro t ⟨m, hm, hc⟩
      obtain ⟨m', hm', hfree, -⟩ := hu.whole.consistent.free.first hf
      obtain rfl := Option.some.inj (hm.symm.trans hm')
      cases hfree.symm.trans hc
    have hpooled : (h₁.place a n.next node).Pooled := (hu.whole.pooled.setNode hold hstring).congr rfl rfl rfl
    refine .of_ok hrun ⟨place hu hw hr hf hn hcontent hover hlinks hpooled, ?_⟩
    rintro _ ⟨⟩
    exact getElem?_place_self hn n.next node

/-- A constant is there already. -/
theorem constant (hw : h.Whole) (ha : a < bottom) (hv : v.leaf? = some (initialContent a)) :
    (pure a : HeapM Address).Leads roots h (Gives roots.get v h) := by
  refine .of_ok (HeapM.pure_apply a) ⟨.refl hw, ?_⟩
  rintro _ ⟨⟩
  obtain ⟨n, hn, hcontent⟩ := hw.consistent.permanent a ha
  exact .leaf hn (hcontent ▸ hv)

theorem number (hw : h.Whole) (hr : h.Holds roots.get) {m : Number} (hv : v.leaf? = some (.number m)) :
    (HeapM.number m).Leads roots h (Gives roots.get v h) := by
  refine (hw.allocate hr (.fresh (.number m) 0) (by simp [Node.fresh]) (by simp [Node.fresh]) rfl
    (by simp [Node.fresh, Node.traced])).imp fun r h' hpost => ?_
  obtain ⟨hu, hnode⟩ := hpost
  exact ⟨hu, fun a ha => .leaf (hnode a ha) hv⟩

theorem string (hw : h.Whole) (hr : h.Holds roots.get) (t : Text) :
    (HeapM.string t).Leads roots h (Gives roots.get (.str t) h) := by
  cases hfind : h.findText? t with
  | some a =>
    obtain ⟨n, hn, hc⟩ := hw.pooled.isString_of_findText? hfind
    have hrun : HeapM.string t roots h = (.ok a, h) := by simp [HeapM.string, hfind]
    refine .of_ok hrun ⟨.refl hw, ?_⟩
    rintro _ ⟨⟩
    exact .leaf hn (by rw [hc]; rfl)
  | none =>
    have hrun : HeapM.string t roots h = (HeapM.allocate (.fresh (.string t) 0) >>= fun a => do
        modify fun h => h.remember t a
        pure a) roots h := by simp [HeapM.string, hfind]
    rcases hw.offers hr (.fresh (.string t) 0) with ⟨e, h₁, halloc, hu⟩ | ⟨h₁, a, n, halloc, hu, hstrings, hf, hn⟩
    · exact .of_failed (hrun.trans (HeapM.bind_error halloc)) hu.gives_none
    · have hnew : ∀ b, ¬ IsString h₁.nodes b t := fun b hb =>
        hw.pooled.findText?_none hfind b (hstrings b t hb)
      have hold : ∀ t, n.content ≠ .string t := by
        intro t hc
        obtain ⟨m, hm, hfree, -⟩ := hu.whole.consistent.free.first hf
        obtain rfl := Option.some.inj (hn.symm.trans hm)
        cases hfree.symm.trans hc
      have hpooled : ((h₁.place a n.next (.fresh (.string t) 0)).remember t a).Pooled :=
        (hu.whole.pooled.remember hn hold hnew).congr rfl rfl rfl
      refine .of_ok (hrun.trans (HeapM.bind_ok halloc)) ⟨?_, ?_⟩
      · exact place hu hw hr hf hn (by simp [Node.fresh]) rfl (by simp [Node.fresh, Node.traced]) hpooled
      · rintro _ ⟨⟩
        exact .leaf (getElem?_place_self hn n.next _) rfl

/-! ## Pins -/

/-- While links are pinned, what hangs on them is kept too. -/
theorem pinning {α : Type} {act : HeapM α} (post : Option α → Array Node → Prop)
    (hact : act.Leads roots { h with pins := h.pins ++ links.toArray } fun r h' =>
      Upholds roots.get { h with pins := h.pins ++ links.toArray } h' ∧ post r h'.nodes) :
    (HeapM.pinning links act).Leads roots h fun r h' =>
      Upholds (links ++ roots.get) h h' ∧ post r h'.nodes := by
  refine .pinning (hact.imp fun r h' hafter => ?_)
  obtain ⟨hu, hr⟩ := hafter
  have hpins : h'.pins.extract 0 h.pins.size = h.pins := by
    rw [hu.pins]
    simp
  refine ⟨⟨hu.whole.with_pins ?_, hpins, fun a ha => hu.kept a (ha.mono fun l hl => ?_)⟩, hr⟩
  · refine hu.whole.consistent.pins.mono fun l hl => ?_
    rw [hpins] at hl
    rw [hu.pins]
    simp [hl]
  · simp only [rootLinks, Array.toList_append, List.mem_append] at hl ⊢
    tauto

/-- A heap with allocated links pinned. -/
theorem pinned (hw : h.Whole) (hl : h.Holds links) : ({ h with pins := h.pins ++ links.toArray } : Heap).Whole :=
  hw.with_pins (by simpa using Holds.append hw.consistent.pins hl)

/-- A pair of two values that are represented. -/
theorem pair (hw : h.Whole) (hr : h.Holds roots.get) (hx : Represents h.nodes x head) (hy : Represents h.nodes y tail) :
    (HeapM.pair (some x) (some y)).Leads roots h (Gives roots.get (.pair head tail) h) := by
  have hl : h.Holds [some x, some y] := by
    intro b hb
    rcases List.mem_pair.mp hb with hb | hb
    · cases hb
      exact hx.isAllocated
    · cases hb
      exact hy.isAllocated
  have hlinks : ∀ b, some b ∈ (pairNode x y).traced → Reaches h.nodes
      (({ h with pins := h.pins ++ [some x, some y].toArray } : Heap).rootLinks roots.get) b := by
    intro b hb
    rw [traced_pairNode] at hb
    apply Reaches.root
    simp only [rootLinks, Array.toList_append, List.mem_append]
    exact .inl (.inr (.inr hb))
  have halloc := (hw.pinned hl).allocate hr (pairNode x y) (by simp [pairNode, Node.withChildren, Node.fresh])
    (by simp [pairNode, Node.withChildren, Node.fresh]) rfl hlinks
  have hpair : (HeapM.pair (some x) (some y)).Leads roots h fun r h' =>
      Upholds ([some x, some y] ++ roots.get) h h' ∧ ∀ a ∈ r, h'.nodes[a]? = some (pairNode x y) :=
    pinning (fun r nodes => ∀ a ∈ r, nodes[a]? = some (pairNode x y)) halloc
  refine hpair.imp fun r h' hafter => ?_
  obtain ⟨hu, hnode⟩ := hafter
  refine ⟨hu.of_more, fun a ha => ?_⟩
  -- the parts were pinned, so they are represented still
  have hhead : Represents h'.nodes x head := hx.kept (.root (by simp [rootLinks])) hu.kept
  have htail : Represents h'.nodes y tail := hy.kept (.root (by simp [rootLinks])) hu.kept
  exact .pair (hnode a ha) hhead htail

/-! ## Host values -/

theorem ofBool_leaf (b : Bool) : (Host.bool b).leaf? = some (initialContent (ofBool b)) := by cases b <;> rfl

/-- The heap form of a host value represents it. The head of a pair is pinned while the tail is made. -/
theorem ofHost_gives (hw : h.Whole) (hr : h.Holds roots.get) (hv : v.Exact depth) :
    (HeapM.ofHost v).Leads roots h (Gives roots.get v h) := by
  induction v generalizing h depth with
  | null => exact hw.constant (by decide) rfl
  | undefined => exact hw.constant (by decide) rfl
  | bool b => exact hw.constant (ofBool_lt b) (ofBool_leaf b)
  | int n =>
    have hnumber : Number.ofInt n = .int n := congrArg Number.int (Double.roundInt_exact hv)
    exact hw.number hr (by rw [hnumber]; rfl)
  | float x => exact hw.number hr rfl
  | str t => exact hw.string hr t
  | pair head tail ihhead ihtail =>
    cases depth with
    | zero => exact hv.elim
    | succ depth =>
      refine (ihhead hw hr hv.1).bind (fun h₁ hfailed => ⟨hfailed.toUpholds, by simp⟩) fun x h₁ hhead => ?_
      have hx : Represents h₁.nodes x head := hhead.represents x rfl
      have hr₁ := hhead.holds hw hr
      have hl : h₁.Holds [some x] := fun b hb => by
        cases List.mem_singleton.mp hb
        exact hx.isAllocated
      have hmade := ihtail (hhead.whole.pinned hl) hr₁ hv.2
      have htail : (HeapM.holding [some x] (HeapM.ofHost tail)).Leads roots h₁ fun r h' =>
          Upholds ([some x] ++ roots.get) h₁ h' ∧ ∀ y ∈ r, Represents h'.nodes y tail :=
        hmade.holding (pinning (fun r nodes => ∀ y ∈ r, Represents nodes y tail)
          (hmade.imp fun r h' hg => ⟨hg.toUpholds, hg.represents⟩))
      refine htail.bind (fun h₂ hfailed => ?_) fun y h₂ hafter => ?_
      · exact ⟨hhead.trans hfailed.1.of_more, by simp⟩
      · obtain ⟨hu, hy⟩ := hafter
        have hx₂ : Represents h₂.nodes x head := hx.kept (.root (by simp [rootLinks])) hu.kept
        have hu₂ : Upholds roots.get h h₂ := hhead.trans hu.of_more
        refine (hu.whole.pair (hu₂.holds hw hr) hx₂ (hy y rfl)).imp fun r h' hg => ?_
        exact ⟨hu₂.trans hg.toUpholds, hg.represents⟩
  | ref | word | single | charCode => exact hv.elim

/-- Host values survive the heap. Making the heap form of a value succeeds or fails; in both cases the pins are what they
were and whatever could be reached before is unchanged, and the address that is given out reads back as the value, whatever
was collected meanwhile. -/
theorem host_survives (hw : h.Whole) (roots : Roots) (hr : h.Holds roots.get) (v : Host) (hv : v.Exact Host.maxDepth) :
    (HeapM.ofHost v).Settles roots h fun result h' =>
      (∀ a ∈ result, h'.toHost? (some a) = some v) ∧ h'.pins = h.pins ∧
        ∀ a, Reaches h.nodes (h.rootLinks roots.get) a → h'.nodes[a]? = h.nodes[a]? := by
  refine ((hw.ofHost_gives hr hv).imp fun result h' hg => ⟨fun a ha => ?_, hg.pins, hg.kept⟩).settles
    (HeapM.Keeps.ofHost (sized_kept _) (fun _ => trivial) v roots h rfl) hw.consistent.addresses
  exact (hg.represents a ha).ofLink? hv

end Whole

theorem Arises.whole (ha : Arises h) : h.Whole := ⟨ha.orderly.consistent ha.few, ha.orderly.sound.pooled⟩

/-- A heap of nine nodes with an environment, a number that nobody needs, and two free nodes. -/
def littered : Heap :=
  ((Action.number (.int 7)).perform (Thunk.pure [some 5])
    ((Action.environment 0).perform (Thunk.pure []) (new defaultDigest 9)).2).2

theorem littered_arises : Arises littered := by
  have hcreate : create defaultDigest 90 = .ok (new defaultDigest 9) := rfl
  have henvironment := (Arises.create hcreate (by decide)).perform (Thunk.pure [])
    (fun a ha => by simp [Thunk.get, Thunk.pure] at ha) (.environment 0) ⟨by decide, by decide⟩
  refine henvironment.perform (Thunk.pure [some 5]) (fun a ha => ?_) (.number (.int 7)) trivial
  obtain rfl : a = 5 := by simpa [Thunk.get, Thunk.pure] using ha
  decide

/-- A nested pair whose last node is the one that a collection in the middle sets free. -/
theorem Whole.host_survives_littered :
    littered.Whole ∧ littered.Holds [some 5] ∧
      (Host.pair (.pair (.int (2 ^ 53)) (.bool true)) .null).Exact Host.maxDepth ∧
      ∃ h', HeapM.ofHost (.pair (.pair (.int (2 ^ 53)) (.bool true)) .null) (Thunk.pure [some 5]) littered = (.ok 6, h') ∧
        h'.toHost? (some 6) = some (.pair (.pair (.int (2 ^ 53)) (.bool true)) .null) ∧ h'.stats.collections = 1 ∧
        h'.pins = #[] ∧ h'.nodes[5]? = littered.nodes[5]? := by
  have hw : littered.Whole := littered_arises.whole
  have hr : littered.Holds [some 5] := fun a ha => by
    cases List.mem_singleton.mp ha
    decide
  have hv : (Host.pair (.pair (.int (2 ^ 53)) (.bool true)) .null).Exact Host.maxDepth := by
    simp [Host.Exact, Host.maxDepth]
  have hreaches : Reaches littered.nodes (littered.rootLinks [some 5]) 5 := .root (by simp [rootLinks])
  have hsucceeds : (HeapM.ofHost (.pair (.pair (.int (2 ^ 53)) (.bool true)) .null) (Thunk.pure [some 5])
    littered).1.toOption = some 6 := by decide +kernel
  have hcollects : (HeapM.ofHost (.pair (.pair (.int (2 ^ 53)) (.bool true)) .null) (Thunk.pure [some 5])
    littered).2.stats.collections = 1 := by decide +kernel
  have hsettles := hw.host_survives (Thunk.pure [some 5]) hr _ hv
  rcases hsettles with ⟨a, h', hrun, hreads, hpins, hkept⟩ | ⟨e, h', hrun, -⟩
  · rw [hrun] at hsucceeds hcollects
    obtain rfl : a = 6 := Option.some.inj hsucceeds
    exact ⟨hw, hr, hv, h', hrun, hreads 6 rfl, hcollects, hpins, hkept 5 hreaches⟩
  · rw [hrun] at hsucceeds
    cases hsucceeds

end Heap

end Tenure
