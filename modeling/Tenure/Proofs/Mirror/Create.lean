import Tenure.Proofs.Heap.Create
import Tenure.Proofs.Machine.Arena
import Tenure.Proofs.Mirror.Calls

/-!
# Setting up a machine

A new heap holds the values that exist once: `Mirrors.new`. Loading the builtins takes twelve nodes;
with that many a machine can be set up, and it is in the first state of the endless machine: `Machine.create_matches`.
-/

set_option autoImplicit false

namespace Tenure

/-- A new heap holds the values that exist once. -/
theorem Mirrors.new (digest : Text → UInt64) {n : Nat} (hn : n > Heap.bottom) (hmax : n ≤ Heap.maxNodes) :
    Mirrors id (Endless.prelude.take 5) [0] (Heap.new digest n) := by
  have hreach : ∀ a : Nat, Reach (Endless.prelude.take 5) [0] a → a < 5 := by
    intro a ha
    induction ha with
    | permanent h => exact h
    | root h =>
      cases List.mem_singleton.mp h
      decide
    | @link a b o _ ho hb ih =>
      have hlinks : o.links = [] := by interval_cases a <;> (cases ho; rfl)
      simp [hlinks] at hb
  refine ⟨Heap.new_sound digest hn hmax, fun _ _ => rfl, fun _ _ _ _ h => h, fun a ha => ?_⟩
  have hlt : a < 5 := hreach a ha
  have hlow : a < Heap.bottom := hlt
  have hsize : a < n := Nat.lt_trans hlow hn
  have hnode : (Heap.new digest n).nodes[a]? = some (.fresh (Heap.initialContent a) 0) := by
    rw [Heap.getElem?_new hsize, Heap.initialNode, if_pos hlow]
  refine ⟨⟨Heap.initialContent a, []⟩, _, ?_, hnode, rfl, ?_, rfl, by simp, by simp [Node.traced, Node.fresh]⟩
  · interval_cases a <;> rfl
  · interval_cases a <;> simp [Heap.initialContent]

/-! ## The builtins -/

/-- An operation for which a number of nodes has to be there: it leads to a heap as described, or it runs out of
memory, or it strays. -/
def Yields {α : Type} (act : HeapM α) (demand : Nat) (roots : Roots) (h : Heap) (post : α → Heap → Prop) : Prop :=
  act.Strays roots h ∨
  (demand ≤ h.nodes.size → ∃ a h', act roots h = (.ok a, h') ∧ post a h' ∧ h'.nodes.size = h.nodes.size) ∧
  (h.nodes.size < demand → ∃ h', act roots h = (.error (.failed .exhausted), h'))

namespace Yields

variable {α : Type} {demand : Nat} {roots : Roots} {h h' : Heap} {post : α → Heap → Prop} {φ : Address → Address}
  {objs objs' : List Obj} {held : List Address}

theorem done {act : HeapM α} {a : α} (hact : act roots h = (.ok a, h')) (hpost : post a h')
    (hsize : h'.nodes.size = h.nodes.size) (hdemand : demand ≤ h.nodes.size) : Yields act demand roots h post :=
  .inr ⟨fun _ => ⟨a, h', hact, hpost, hsize⟩, fun hlt => absurd hlt (Nat.not_lt.mpr hdemand)⟩

theorem imp {act : HeapM α} {post' : α → Heap → Prop} (hact : Yields act demand roots h post)
    (hpost : ∀ a h', post a h' → post' a h') : Yields act demand roots h post' := by
  refine hact.imp_right fun ⟨hroom, hfull⟩ => ⟨fun hle => ?_, hfull⟩
  obtain ⟨a, h', hrun, hp, hsize⟩ := hroom hle
  exact ⟨a, h', hrun, hpost a h' hp, hsize⟩

theorem bind {β : Type} {act : HeapM β} {f : β → HeapM α} {b : β} (hact : act roots h = (.ok b, h'))
    (hsize : h'.nodes.size = h.nodes.size) (hrest : Yields (f b) demand roots h' post) :
    Yields (act >>= f) demand roots h post := by
  unfold Yields HeapM.Strays at hrest ⊢
  rwa [HeapM.bind_ok hact, ← hsize]

theorem adds {act : HeapM Address} {f : Address → HeapM α} {a : Address}
    (hact : Adds act φ objs held a objs' roots h) (hdemand : live objs held < demand)
    (hcont : ∀ b h', Mirrors (Function.update φ a b) objs' (a :: held) h' → h'.nodes.size = h.nodes.size →
      h'.pins = h.pins → Yields (f b) demand roots h' post) :
    Yields (act >>= f) demand roots h post := by
  obtain hstrays | ⟨hroom, hfull⟩ := hact
  · exact .inl hstrays.bind
  by_cases hlt : live objs held < h.nodes.size
  · obtain ⟨b, h', hrun, hm', hsize, hpins⟩ := hroom hlt
    exact bind hrun hsize (hcont b h' hm' hsize hpins)
  · obtain ⟨h', hrun⟩ := hfull (Nat.le_of_not_lt hlt)
    exact .inr ⟨fun hle => absurd hdemand (by omega), fun _ => ⟨h', HeapM.bind_error hrun⟩⟩

end Yields

theorem Mirrors.live_le_length {φ : Address → Address} {objs : List Obj} {held : List Address} {h : Heap}
    (hm : Mirrors φ objs held h) : live objs held ≤ objs.length := by
  have hsub : {a | Reach objs held a} ⊆ (Finset.range objs.length : Set Nat) := by
    intro a ha
    simpa using hm.lt_length ha
  have := Set.ncard_le_ncard hsub (Finset.finite_toSet _)
  rwa [Set.ncard_coe_finset, Finset.card_range] at this

/-- Links lead to exactly what is held. -/
def Exactly (φ : Address → Address) (held : List Address) (links : List Link) : Prop :=
  ∀ a, some a ∈ links ↔ ∃ b ∈ held, φ b = a

theorem Exactly.rooted {φ : Address → Address} {held : List Address} {links : List Link} (h : Exactly φ held links)
    (objs : List Obj) : Rooted φ objs held links := by
  refine ⟨fun a ha => ?_, fun a ha => (h _).mpr ⟨a, ha, rfl⟩⟩
  obtain ⟨b, hb, hba⟩ := (h a).mp ha
  exact ⟨b, .root hb, hba⟩

theorem Exactly.congr {φ φ' : Address → Address} {held : List Address} {links : List Link} (h : Exactly φ held links)
    (hφ : ∀ a ∈ held, φ' a = φ a) : Exactly φ' held links := by
  intro a
  rw [h]
  constructor
  · rintro ⟨b, hb, rfl⟩
    exact ⟨b, hb, hφ b hb⟩
  · rintro ⟨b, hb, rfl⟩
    exact ⟨b, hb, (hφ b hb).symm⟩

/-- Everything that exists before a program runs can be reached while it is set up. -/
theorem Mirrors.twelve_le {φ : Address → Address} {h : Heap} (hm : Mirrors φ Endless.prelude [11, 6, 5] h) :
    12 ≤ h.nodes.size := by
  have hframe : Reach Endless.prelude [11, 6, 5] 6 := .root (by simp)
  have hall : ∀ a : Nat, a < 12 → Reach Endless.prelude [11, 6, 5] a := by
    intro a ha
    interval_cases a <;> first
      | exact .permanent (by decide)
      | exact .root (by decide)
      | exact hframe.link (o := ⟨.frame, [7, 8, 9, 10]⟩) rfl (by simp)
  have hsub : (Finset.range 12 : Set Nat) ⊆ {a | Reach Endless.prelude [11, 6, 5] a} := by
    intro a ha
    exact hall a (by simpa using ha)
  have hlive := Set.ncard_le_ncard hsub hm.finite
  rw [Set.ncard_coe_finset, Finset.card_range] at hlive
  exact hlive.trans hm.live_le

section Fill

variable {α : Type} {demand : Nat} {roots : Roots} {h : Heap} {post : α → Heap → Prop} {φ : Address → Address}
  {objs : List Obj} {held links : List Address} {f x : Address}

/-- A builtin is made and put into a slot of a frame. -/
theorem Yields.fill (hm : Mirrors φ objs held h) (hr : Exactly φ held (h.pins.toList ++ roots.get))
    (hf : Reach objs held f) (ho : objs[f]? = some ⟨.frame, links⟩) {i : Nat} (hi : i < links.length)
    (hdemand : objs.length < demand) (hx : x = φ f) {rest : HeapM α}
    (hcont : ∀ φ' h', Mirrors φ' ((objs ++ [(⟨.builtin i, []⟩ : Obj)]).set f ⟨.frame, links.set i objs.length⟩) held h' →
      Exactly φ' held (h'.pins.toList ++ roots.get) → (∀ c, c < objs.length → φ' c = φ c) →
      h'.nodes.size = h.nodes.size → h'.pins = h.pins → Yields rest demand roots h' post) :
    Yields (do
      let b ← HeapM.builtin i
      HeapM.setChild x i (some b)
      rest) demand roots h post := by
  subst hx
  have hadds : Adds (HeapM.builtin i) φ objs held objs.length (objs ++ [⟨.builtin i, []⟩]) roots h := by
    refine allocate_adds (o := ⟨.builtin i, []⟩) hm (hr.rooted objs) (by simp) ⟨rfl, by simp, rfl, by simp, ?_⟩ (by simp)
    simp [Node.traced, Node.fresh]
  refine .adds hadds (Nat.lt_of_le_of_lt hm.live_le_length hdemand) fun b h' hm' hsize hpins => ?_
  have hold : ∀ c, c < objs.length → Function.update φ objs.length b c = φ c := fun c hc =>
    Function.update_of_ne (Nat.ne_of_lt hc) b φ
  have hf' : Reach (objs ++ [⟨.builtin i, []⟩]) (objs.length :: held) f := hm.reach_append (by simp) hf
  have ho' : (objs ++ [⟨.builtin i, []⟩])[f]? = some ⟨.frame, links⟩ := (hm.getElem?_append _ hf).trans ho
  obtain ⟨n, hn, hmirrors⟩ := hm'.get hf' ho'
  have hstore := hm'.store hf' ho' (v := objs.length) (.root (by simp)) hi hn
  rw [hold f (hm.lt_length hf)] at hn hstore
  have h9 : (0 : Int) ≤ i ∧ (i : Int) < 9 := by
    have := hmirrors.room
    simp only [maxChildren] at this
    omega
  have hself : Function.update φ objs.length b objs.length = b := Function.update_self ..
  rw [hself] at hstore
  let h'' := h'.setNode (φ f) { n with children := n.children.setIfInBounds i (some b) }
  have hset : HeapM.setChild (φ f) i (some b) roots h' = (.ok (), h'') := by
    rw [HeapM.setChild, HeapM.bind_ok (HeapM.nodeAt_apply hn), Node.setChild?, if_pos h9]
    rfl
  have hsize' : h''.nodes.size = h'.nodes.size := by simp [h'', Heap.setNode]
  have hpins' : h''.pins = h.pins := hpins
  refine .bind hset hsize' (hcont _ h'' (hstore.of_held fun c hc => .root (by simp [hc])) ?_ hold (hsize'.trans hsize) hpins')
  rw [hpins']
  exact hr.congr fun c hc => hold c (hm.lt_length (.root hc))

/-- The frame of the builtins is filled and becomes an environment. -/
theorem Yields.prelude (hm : Mirrors φ (Endless.prelude.take 6 ++ [⟨.frame, [3, 3, 3, 3]⟩]) [6, 5] h)
    (hr : Exactly φ [6, 5] (h.pins.toList ++ roots.get)) :
    Yields (do
      MachineM.fillPrelude (φ 6)
      HeapM.extend (some (φ 6)) (some (φ 5))) 12 roots h fun a h' =>
      ∃ φ', Mirrors φ' Endless.prelude [11, 6, 5] h' ∧ φ' 11 = a ∧ h'.pins = h.pins ∧ ∀ c : Nat, c < 7 → φ' c = φ c := by
  have hfill : (do
      MachineM.fillPrelude (φ 6)
      HeapM.extend (some (φ 6)) (some (φ 5))) = (do
      let b ← HeapM.builtin (0 : Nat)
      HeapM.setChild (φ 6) (0 : Nat) (some b)
      let b ← HeapM.builtin (1 : Nat)
      HeapM.setChild (φ 6) (1 : Nat) (some b)
      let b ← HeapM.builtin (2 : Nat)
      HeapM.setChild (φ 6) (2 : Nat) (some b)
      let b ← HeapM.builtin (3 : Nat)
      HeapM.setChild (φ 6) (3 : Nat) (some b)
      HeapM.extend (some (φ 6)) (some (φ 5))) := by
    have hrange : List.range Builtin.all.length = [0, 1, 2, 3] := rfl
    simp only [MachineM.fillPrelude, hrange, List.forM_eq_forM, List.forM_cons, List.forM_nil, bind_assoc, pure_bind]
  rw [hfill]
  have hframe : ∀ objs : List Obj, Reach objs [6, 5] 6 := fun objs => .root (by simp)
  have hempty : ∀ objs : List Obj, Reach objs [6, 5] 5 := fun objs => .root (by simp)
  refine .fill hm hr (hframe _) rfl (by decide) (by decide) rfl fun φ₁ h₁ hm₁ hr₁ hφ₁ hs₁ hp₁ => ?_
  have hx₁ : φ 6 = φ₁ 6 := (hφ₁ 6 (by decide)).symm
  refine .fill hm₁ hr₁ (hframe _) rfl (by decide) (by decide) hx₁ fun φ₂ h₂ hm₂ hr₂ hφ₂ hs₂ hp₂ => ?_
  have hx₂ : φ 6 = φ₂ 6 := hx₁.trans (hφ₂ 6 (by decide)).symm
  refine .fill hm₂ hr₂ (hframe _) rfl (by decide) (by decide) hx₂ fun φ₃ h₃ hm₃ hr₃ hφ₃ hs₃ hp₃ => ?_
  have hx₃ : φ 6 = φ₃ 6 := hx₂.trans (hφ₃ 6 (by decide)).symm
  refine .fill hm₃ hr₃ (hframe _) rfl (by decide) (by decide) hx₃ fun φ₄ h₄ hm₄ hr₄ hφ₄ hs₄ hp₄ => ?_
  have hx₄ : φ 6 = φ₄ 6 := hx₃.trans (hφ₄ 6 (by decide)).symm
  have hy₄ : φ 5 = φ₄ 5 := by
    rw [hφ₄ 5 (by decide), hφ₃ 5 (by decide), hφ₂ 5 (by decide), hφ₁ 5 (by decide)]
  replace hm₄ : Mirrors φ₄ (Endless.prelude.take 11) [6, 5] h₄ := hm₄
  have hpinned : ∀ a ∈ [6, 5], Reach (Endless.prelude.take 11) [6, 5] a := fun a ha => .root ha
  have houter : (Endless.prelude.take 11)[5]? = some ⟨.environment, []⟩ := rfl
  have hadds := extend_adds hm₄ (by simpa using (hr₄.rooted _).pin hpinned) (hframe _) (hempty _) houter (by decide)
  rw [hx₄, hy₄, ← bind_pure (HeapM.extend _ _)]
  refine .adds hadds (Nat.lt_of_le_of_lt hm₄.live_le_length (by decide)) fun b h₅ hm₅ hs₅ hp₅ => ?_
  refine .done rfl ⟨_, hm₅, Function.update_self .., hp₅.trans (hp₄.trans (hp₃.trans (hp₂.trans hp₁))), fun c hc => ?_⟩ rfl
    hm₅.twelve_le
  have hlt : ∀ k, c < 7 + k := fun k => Nat.lt_add_right k hc
  refine (Function.update_of_ne (Nat.ne_of_lt (hlt 4)) b φ₄).trans ?_
  exact (hφ₄ c (hlt 3)).trans ((hφ₃ c (hlt 2)).trans ((hφ₂ c (hlt 1)).trans (hφ₁ c (hlt 0))))

end Fill

/-- Pins go as they came. -/
theorem Yields.pinning {α : Type} {act : HeapM α} {demand : Nat} {roots : Roots} {h : Heap} {links : List Link}
    {post : α → Heap → Prop}
    (hact : Yields act demand roots { h with pins := h.pins ++ links.toArray } fun a h' =>
      h'.pins = h.pins ++ links.toArray ∧ post a { h' with pins := h.pins }) :
    Yields (HeapM.pinning links act) demand roots h post := by
  obtain hstrays | ⟨hroom, hfull⟩ := hact
  · exact .inl hstrays.pinning
  refine .inr ⟨fun hle => ?_, fun hlt => ?_⟩
  · obtain ⟨a, h', hrun, ⟨hpins, hpost⟩, hsize⟩ := hroom hle
    refine ⟨a, { h' with pins := h.pins }, ?_, hpost, hsize⟩
    simp only [HeapM.pinning, hrun, hpins]
    simp
  · obtain ⟨h', hrun⟩ := hfull hlt
    exact ⟨{ h' with pins := h'.pins.extract 0 h.pins.size }, by simp only [HeapM.pinning, hrun]⟩

/-- An operation on the heap whose demand is that of the whole instruction. -/
theorem Follows.yields {α : Type} {act : HeapM α} {f : α → MachineM Unit} {m : Machine} {e : Effect}
    {objs : List Obj} {φ : Address → Address} {post : α → Heap → Prop}
    (hact : Yields act e.demand (MachineM.rootsOf m) m.heap post)
    (hcont : ∀ a h', post a h' → h'.nodes.size = m.heap.nodes.size → Follows objs φ (f a) { m with heap := h' } e) :
    Follows objs φ (MachineM.onHeap act >>= f) m e := by
  obtain hstrays | ⟨hroom, hfull⟩ := hact
  · exact .inl (.onHeap hstrays)
  by_cases hle : e.demand ≤ m.heap.nodes.size
  · obtain ⟨a, h', hrun, hpost, hsize⟩ := hroom hle
    exact .bind (MachineM.onHeap_ok hrun) ⟨rfl, rfl, hsize⟩ rfl (hcont a h' hpost hsize)
  · obtain ⟨h', hrun⟩ := hfull (Nat.lt_of_not_le hle)
    refine .inr ⟨fun hle' => absurd hle' hle, fun _ => ?_⟩
    exact ⟨{ m with heap := h' }, MachineM.bind_error (MachineM.onHeap_error hrun), rfl, rfl⟩

/-- The heap once the builtins are loaded, with the address of their environment. -/
def Loaded (φ : Address → Address) (a : Address) (h : Heap) : Prop :=
  ∃ φ', Mirrors φ' Endless.prelude [11, 6, 5] h ∧ φ' 11 = a ∧ h.pins = #[] ∧ ∀ c : Nat, c < 7 → φ' c = φ c

/-- Loading the builtins takes twelve nodes and leads to the first state of the endless machine. -/
theorem loadPrelude_follows (digest : Text → UInt64) {n : Nat} (hn : n > Heap.bottom) (hmax : n ≤ Heap.maxNodes)
    (code : Array Instr) :
    Follows (Endless.prelude.take 5) id MachineM.loadPrelude { code := code, heap := .new digest n }
      ⟨12, .ok Endless.initial⟩ := by
  have h₀ : Holding id (Endless.prelude.take 5) [] [] 0 [] { code := code, heap := .new digest n } :=
    ⟨.new digest hn hmax, ⟨⟨rfl, le_rfl⟩, rfl, rfl⟩, rfl⟩
  have hleaf : Adds (HeapM.environment 0) id (Endless.prelude.take 5) [0] 5 (Endless.prelude.take 6)
      (MachineM.rootsOf { code := code, heap := .new digest n }) (.new digest n) := by
    refine allocate_adds (o := ⟨.environment, []⟩) h₀.mirrors h₀.rooted (by simp) ⟨rfl, by simp, rfl, by simp, ?_⟩ (by simp)
    simp [Node.traced, Node.fresh]
  refine h₀.adds (o := ⟨.environment, []⟩) (by simp) hleaf (Nat.lt_of_le_of_lt h₀.mirrors.live_le_length (by decide))
    fun φ₁ heap₁ h₁ hφ₁ hl₁ hs₁ => ?_
  -- from now on the empty environment is in the register
  refine .bind rfl ⟨rfl, rfl, rfl⟩ rfl ?_
  replace h₁ : Holding φ₁ (Endless.prelude.take 6) [] [] 5 [] { code := code, heap := heap₁, env := φ₁ 5 } :=
    ⟨h₁.mirrors.of_held fun b hb => .root (List.mem_append_left [0] hb), ⟨⟨rfl, le_rfl⟩, rfl, rfl⟩, h₁.pins⟩
  have hslots : (4 : Nat) ≤ maxChildren := by decide
  refine h₁.adds (fun c hc => ?_) (frame_adds h₁.mirrors (by simpa using h₁.rooted) hslots)
    (Nat.lt_of_le_of_lt h₁.mirrors.live_le_length (by decide)) fun φ₂ heap₂ h₂ hφ₂ hl₂ hs₂ => ?_
  · rw [List.eq_of_mem_replicate hc]
    exact .permanent (by decide)
  have hempty : φ₁ 5 = φ₂ 5 := (hφ₂ 5 (.root (by simp))).symm
  have hpins : heap₂.pins = #[] := h₂.pins
  let m₂ : Machine := { code := code, heap := heap₂, env := φ₁ 5 }
  have hexact : Exactly φ₂ [6, 5] ((heap₂.pins ++ [some (φ₂ 6)].toArray).toList ++ (MachineM.rootsOf m₂).get) := by
    have hroots : (MachineM.rootsOf m₂).get = [some (φ₂ 5)] := by
      rw [← hempty]
      rfl
    intro a
    simp [hpins, hroots, eq_comm]
  have hprelude := Yields.prelude (h₂.mirrors.of_pins (heap₂.pins ++ [some (φ₂ 6)].toArray)) hexact
  rw [← hempty] at hprelude
  have hloaded : Yields (HeapM.pinning [some (φ₂ 6)] (do
      MachineM.fillPrelude (φ₂ 6)
      HeapM.extend (some (φ₂ 6)) (some (φ₁ 5)))) 12 (MachineM.rootsOf m₂) heap₂ (Loaded φ₂) := by
    refine .pinning (hprelude.imp fun a h' hpost => ?_)
    obtain ⟨φ', hm', ha, hp', hold⟩ := hpost
    exact ⟨hp', φ', hm'.of_pins _, ha, hpins, hold⟩
  refine .yields hloaded fun a heap₃ hpost hs₃ => ?_
  obtain ⟨φ₃, hm₃, rfl, hp₃, hold⟩ := hpost
  refine .met hm₃.twelve_le rfl ⟨hm₃.of_held fun b hb => ?_, ⟨⟨rfl, le_rfl⟩, rfl, rfl⟩, hp₃, rfl⟩
    (fun c o hc _ => hold c (List.getElem?_eq_some_iff.mp hc).1) ⟨rfl, rfl, rfl⟩
  cases List.mem_singleton.mp hb
  exact .root (by decide)

namespace Machine

/-- A machine can be set up if its heap has at least twelve nodes and no more than addresses can tell apart. -/
theorem create_ok (digest : Text → UInt64) (program : Program) (words : Int) (hlow : 12 ≤ Heap.nodesFor words)
    (hfew : Heap.nodesFor words ≤ Heap.addressable) :
    ∃ m, create digest program words = .ok m := by
  have hbottom : Heap.bottom < Heap.nodesFor words := Nat.lt_of_lt_of_le (by decide) hlow
  have hmax : Heap.nodesFor words ≤ Heap.maxNodes := hfew.trans (by decide)
  have hheap : Heap.create digest words = .ok (.new digest (Heap.nodesFor words)) := by
    rw [Heap.create_eq, if_neg (Nat.not_le.mpr hbottom), if_neg (Nat.not_lt.mpr hmax)]
  have hsize : (Heap.new digest (Heap.nodesFor words)).nodes.size = Heap.nodesFor words := by simp [Heap.new]
  obtain ⟨m, hrun, hmany⟩ | ⟨hroom, -⟩ := loadPrelude_follows digest hbottom hmax program.toArray
  · obtain ⟨hkept, -⟩ := MachineM.loadPrelude_keeps (Heap.sized_kept _)
      { code := program.toArray, heap := .new digest (Heap.nodesFor words) } hsize
    rw [hrun] at hkept
    exact absurd (hkept ▸ hmany) (Nat.not_lt.mpr hfew)
  · obtain ⟨φ, m, hrun, -⟩ := hroom (hsize.symm ▸ hlow)
    exact ⟨m, by rw [create, hheap]; simp only [hrun]⟩

variable {digest : Text → UInt64} {program : Program} {words : Int} {m : Machine}

/-- A machine that was set up is in the first state of the endless machine. -/
theorem create_matches (h : create digest program words = .ok m) :
    (∃ φ, Matches φ Endless.initial m) ∧ m.code = program.toArray ∧ m.steps = 0 ∧
      m.heap.nodes.size = Heap.nodesFor words ∧ 12 ≤ Heap.nodesFor words ∧ Heap.nodesFor words ≤ Heap.maxNodes := by
  rw [create, Heap.create_eq] at h
  by_cases hlow : Heap.nodesFor words ≤ Heap.bottom
  · simp [hlow] at h
  by_cases hhigh : Heap.maxNodes < Heap.nodesFor words
  · simp [hlow, hhigh] at h
  rw [if_neg hlow, if_neg hhigh] at h
  simp only at h
  have hsize : (Heap.new digest (Heap.nodesFor words)).nodes.size = Heap.nodesFor words := by simp [Heap.new]
  obtain ⟨m', hrun, -⟩ | ⟨hroom, hfull⟩ :=
    loadPrelude_follows digest (Nat.not_le.mp hlow) (Nat.not_lt.mp hhigh) program.toArray
  · rw [hrun] at h
    cases h
  by_cases htwelve : 12 ≤ Heap.nodesFor words
  · obtain ⟨φ, m', hrun, hm, -, hsame⟩ := hroom (by rw [hsize]; exact htwelve)
    rw [hrun] at h
    cases h
    exact ⟨⟨φ, hm⟩, hsame.code, hsame.steps, hsame.size.trans hsize, htwelve, Nat.not_lt.mp hhigh⟩
  · obtain ⟨m', hrun, -⟩ := hfull (by rw [hsize]; exact Nat.not_le.mp htwelve)
    rw [hrun] at h
    cases h

end Machine

end Tenure
