import Tenure.Proofs.Mirror.Instructions

/-!
# Blocks and calls

Opening a block and calling a closure make three nodes one after the other, each of which has to survive the
collections that the next ones may cause: a register or a pin holds it. A return goes back to registers that a node
has kept alive.
-/

set_option autoImplicit false

namespace Tenure

open MachineM

/-- The machine in the middle of an instruction: its heap mirrors what the registers hold and some more objects that the
instruction is at work with. -/
structure Holding (φ : Address → Address) (objs : List Obj) (pinned operands : List Address) (env : Address)
    (frames : List Address) (m : Machine) : Prop where
  mirrors : Mirrors φ objs (pinned ++ (operands ++ env :: frames)) m.heap
  registers : Registers φ operands env frames m
  pins : m.heap.pins = #[]

namespace Holding

variable {φ : Address → Address} {objs : List Obj} {pinned pinned' operands frames : List Address} {env a : Address}
  {m : Machine} {e : Effect}

theorem rooted (hh : Holding φ objs pinned operands env frames m) :
    Rooted φ objs (pinned ++ (operands ++ env :: frames))
      (m.heap.pins.toList ++ pinned.map (fun a => some (φ a)) ++ (rootsOf m).get) := by
  simpa [hh.pins] using hh.registers.rooted objs pinned

/-- The instruction may turn to other objects that it can reach. -/
theorem of_pinned (hh : Holding φ objs pinned operands env frames m)
    (hp : ∀ a ∈ pinned', Reach objs (pinned ++ (operands ++ env :: frames)) a) :
    Holding φ objs pinned' operands env frames m := by
  refine ⟨hh.mirrors.of_held fun a ha => ?_, hh.registers, hh.pins⟩
  rcases List.mem_append.mp ha with ha | ha
  · exact hp a ha
  · exact .root (List.mem_append_right _ ha)

/-- An object that the instruction is at work with becomes the innermost frame. -/
theorem pushFrame (hh : Holding φ objs (a :: pinned) operands env frames m) :
    Holding φ objs pinned operands env (a :: frames) { m with frames := φ a :: m.frames } := by
  refine ⟨hh.mirrors.of_held fun b hb => .root ?_, ⟨hh.registers.operands, hh.registers.env, ?_⟩, hh.pins⟩
  · simp only [List.mem_append, List.mem_cons] at hb ⊢
    tauto
  · simp [hh.registers.frames]

theorem live_pushFrame :
    live objs (pinned ++ (operands ++ env :: a :: frames)) = live objs (a :: pinned ++ (operands ++ env :: frames)) := by
  refine live_congr (fun b hb => .root ?_) (fun b hb => .root ?_) <;>
  · simp only [List.mem_append, List.mem_cons] at hb ⊢
    tauto

/-- An allocation in the middle of an instruction, for which the demand leaves room. -/
theorem adds (hh : Holding φ objs pinned operands env frames m) {o : Obj}
    (hlinks : ∀ c ∈ o.links, Reach objs (pinned ++ (operands ++ env :: frames)) c) {act : HeapM Address}
    {f : Address → MachineM Unit}
    (hact : Adds act φ objs (pinned ++ (operands ++ env :: frames)) objs.length (objs ++ [o]) (rootsOf m) m.heap)
    (hdemand : live objs (pinned ++ (operands ++ env :: frames)) < e.demand)
    (hcont : ∀ φ' h', Holding φ' (objs ++ [o]) (objs.length :: pinned) operands env frames { m with heap := h' } →
      (∀ c, Reach objs (pinned ++ (operands ++ env :: frames)) c → φ' c = φ c) →
      live (objs ++ [o]) (objs.length :: pinned ++ (operands ++ env :: frames)) =
        live objs (pinned ++ (operands ++ env :: frames)) + 1 →
      h'.nodes.size = m.heap.nodes.size →
      Follows (objs ++ [o]) φ' (f (φ' objs.length)) { m with heap := h' } e) :
    Follows objs φ (onHeap act >>= f) m e := by
  obtain hstrays | ⟨hroom, hfull⟩ := hact
  · exact .inl (.onHeap hstrays)
  by_cases hlt : live objs (pinned ++ (operands ++ env :: frames)) < m.heap.nodes.size
  · obtain ⟨b, h', hrun, hm', hsize, hpins⟩ := hroom hlt
    have hold : ∀ c, Reach objs (pinned ++ (operands ++ env :: frames)) c → Function.update φ objs.length b c = φ c :=
      fun c hc => hh.mirrors.update_old b hc
    have hself : Function.update φ objs.length b objs.length = b := Function.update_self ..
    have hregs := hh.registers.congr fun c hc => hold c (.root (List.mem_append_right _ hc))
    have hrest := hcont (Function.update φ objs.length b) h' ⟨hm', hregs.with_heap h', hpins.trans hh.pins⟩ hold
      (hh.mirrors.live_append hlinks) hsize
    rw [hself] at hrest
    have hkeeps : Keeps objs φ (Function.update φ objs.length b) := by
      intro c o hc _
      have hne : c ≠ objs.length := Nat.ne_of_lt (List.getElem?_eq_some_iff.mp hc).1
      exact Function.update_of_ne hne b φ
    refine .bind (onHeap_ok hrun) ⟨rfl, rfl, hsize⟩ rfl (.of_keeps hkeeps (fun c o hc => ?_) hrest)
    rw [List.getElem?_append_left (List.getElem?_eq_some_iff.mp hc).1]
    exact hc
  · obtain ⟨h', hrun⟩ := hfull (Nat.le_of_not_lt hlt)
    refine .inr ⟨fun hle => absurd hdemand (by omega), fun _ => ?_⟩
    exact ⟨{ m with heap := h' }, bind_error (onHeap_error hrun), rfl, rfl⟩

/-- An environment with one more frame, which the instruction has made. -/
theorem extend {f env' x y : Address} (hh : Holding φ objs [f] operands env frames m) (hx : x = φ f) (hy : y = φ env')
    (henv : Reach objs ([f] ++ (operands ++ env :: frames)) env') {outer : Obj} (houter : objs[env']? = some outer)
    (hroom : outer.links.length + 1 ≤ maxFrames) {g : Address → MachineM Unit}
    (hdemand : live objs ([f] ++ (operands ++ env :: frames)) < e.demand)
    (hcont : ∀ φ' h', Holding φ' (objs ++ [⟨.environment, outer.links ++ [f]⟩]) [objs.length] operands env frames
        { m with heap := h' } →
      (∀ c, Reach objs ([f] ++ (operands ++ env :: frames)) c → φ' c = φ c) →
      live objs ([f] ++ (operands ++ env :: frames)) + 1 ≤ h'.nodes.size → h'.nodes.size = m.heap.nodes.size →
      Follows (objs ++ [⟨.environment, outer.links ++ [f]⟩]) φ' (g (φ' objs.length)) { m with heap := h' } e) :
    Follows objs φ (onHeap (HeapM.extend (some x) (some y)) >>= g) m e := by
  subst hx hy
  have hpinned : ∀ b ∈ [f, env'], Reach objs ([f] ++ (operands ++ env :: frames)) b := by
    simp only [List.mem_cons, List.not_mem_nil, or_false]
    rintro b (rfl | rfl)
    · exact .root (by simp)
    · exact henv
  have hback : ∀ b ∈ [f] ++ (operands ++ env :: frames), Reach objs ([f, env'] ++ (operands ++ env :: frames)) b := by
    intro b hb
    refine .root ?_
    simp only [List.mem_append, List.mem_cons] at hb ⊢
    tauto
  have hlive : live objs ([f, env'] ++ (operands ++ env :: frames)) = live objs ([f] ++ (operands ++ env :: frames)) := by
    refine live_congr (fun b hb => ?_) hback
    rcases List.mem_append.mp hb with hb | hb
    · exact hpinned b hb
    · exact .root (List.mem_append_right _ hb)
  have hh' : Holding φ objs [f, env'] operands env frames m := hh.of_pinned hpinned
  have hf : Reach objs ([f, env'] ++ (operands ++ env :: frames)) f := .root (by simp)
  have henv'' : Reach objs ([f, env'] ++ (operands ++ env :: frames)) env' := .root (by simp)
  have hlinks : ∀ b ∈ (⟨.environment, outer.links ++ [f]⟩ : Obj).links,
      Reach objs ([f, env'] ++ (operands ++ env :: frames)) b := by
    intro b hb
    rcases List.mem_append.mp hb with hb | hb
    · exact henv''.link houter hb
    · exact List.mem_singleton.mp hb ▸ hf
  refine hh'.adds hlinks (extend_adds hh'.mirrors (by simpa using hh'.rooted) hf henv'' houter hroom) (hlive ▸ hdemand)
    fun φ' h' hh'' hold hl hsize => ?_
  refine hcont φ' h' (hh''.of_pinned ?_) (fun c hc => hold c (hc.of_roots hback)) ?_ hsize
  · simp only [List.mem_singleton]
    rintro b rfl
    exact .root (by simp)
  · rw [← hlive, ← hl]
    exact hh''.mirrors.live_le

end Holding

namespace Matches

variable {φ : Address → Address} {s : Endless} {m : Machine} {e : Effect}

theorem holding (hm : Matches φ s m) : Holding φ s.objs [] s.operands s.env s.frames m :=
  ⟨hm.mirrors, hm.registers, hm.pins⟩

/-- Opening a block. -/
theorem enterScope_follows (hm : Matches φ s m) {slots : Int} (he : s.enterScope slots = some e) :
    Follows s.objs φ (enterScope slots) m e := by
  simp only [Endless.enterScope, Option.bind_eq_bind, Option.bind_eq_some_iff] at he
  obtain ⟨outer, houter, he⟩ := he
  split at he
  next hroom =>
    cases he
    obtain ⟨k, rfl⟩ := Int.eq_ofNat_of_zero_le hroom.1
    have hslots : k ≤ maxChildren := by
      have := hroom.2.1
      simp only [maxFrameSlots, maxChildren] at this ⊢
      omega
    have h₀ := hm.holding
    have hlive : live s.objs ([] ++ (s.operands ++ s.env :: s.frames)) = s.live := rfl
    -- the record of the block, which the registers hold from then on
    have hblock : ∀ b ∈ (⟨.blockframe, [s.env]⟩ : Obj).links, Reach s.objs s.roots b := by simpa using reach_env s
    have hadds := allocateOver_adds hm.mirrors hm.rooted hblock (by simp [maxChildren]) (by simp) (by simp)
    simp only [List.map_cons, List.map_nil, ← hm.registers.env] at hadds
    refine .bind (k := m) rfl (.refl m) rfl (h₀.adds hblock hadds (by rw [hlive]; simp) fun φ₁ heap₁ h₁ hφ₁ hl₁ hs₁ => ?_)
    refine .bind rfl ⟨rfl, rfl, rfl⟩ rfl ?_
    replace h₁ := h₁.pushFrame
    rw [← Holding.live_pushFrame, hlive] at hl₁
    have houter₁ : (s.objs ++ [⟨.blockframe, [s.env]⟩])[s.env]? = some outer :=
      (hm.mirrors.getElem?_append _ (reach_env s)).trans houter
    generalize hobjs₁ : s.objs ++ [⟨.blockframe, [s.env]⟩] = objs₁ at h₁ hl₁ houter₁
    -- the frame, which nothing holds until its environment is there
    have hunassigned : ∀ b ∈ (⟨.frame, List.replicate k Heap.unassigned⟩ : Obj).links,
        Reach objs₁ ([] ++ (s.operands ++ s.env :: s.objs.length :: s.frames)) b := by
      intro b hb
      rw [List.eq_of_mem_replicate hb]
      exact .permanent (by decide)
    refine h₁.adds hunassigned (frame_adds h₁.mirrors (by simpa using h₁.rooted) hslots) (by rw [hl₁]; simp)
      fun φ₂ heap₂ h₂ hφ₂ hl₂ hs₂ => ?_
    have henv₁ : Reach objs₁ ([] ++ (s.operands ++ s.env :: s.objs.length :: s.frames)) s.env := .root (by simp)
    have houter₂ : (objs₁ ++ [⟨.frame, List.replicate k Heap.unassigned⟩])[s.env]? = some outer :=
      (h₁.mirrors.getElem?_append _ henv₁).trans houter₁
    rw [hl₁] at hl₂
    generalize hobjs₂ : objs₁ ++ [⟨.frame, List.replicate k Heap.unassigned⟩] = objs₂ at h₂ hl₂ houter₂
    -- the environment, which holds the frame
    have henv₂ : Reach objs₂ ([objs₁.length] ++ (s.operands ++ s.env :: s.objs.length :: s.frames)) s.env :=
      .root (by simp)
    refine h₂.extend rfl h₂.registers.env henv₂ houter₂ hroom.2.2 (by rw [hl₂]; simp) fun φ₃ heap₃ h₃ hφ₃ hl₃ hs₃ => ?_
    have hlen₁ : objs₁.length = s.objs.length + 1 := by simp [← hobjs₁]
    have hlen₂ : objs₂.length = s.objs.length + 2 := by simp [← hobjs₂, hlen₁]
    rw [hl₂] at hl₃
    have hobjs₃ : s.objs ++ [⟨.blockframe, [s.env]⟩, ⟨.frame, List.replicate k Heap.unassigned⟩,
        ⟨.environment, outer.links ++ [s.objs.length + 1]⟩] =
        objs₂ ++ [⟨.environment, outer.links ++ [objs₁.length]⟩] := by
      rw [hlen₁, ← hobjs₂, ← hobjs₁]
      simp
    refine .met hl₃ rfl ⟨?_, ⟨h₃.registers.operands, by rw [hlen₂], h₃.registers.frames⟩, h₃.pins, hm.pc⟩ (.refl _ _)
      ⟨rfl, rfl, rfl⟩
    simp only [Int.toNat_natCast]
    rw [hobjs₃]
    refine h₃.mirrors.of_held fun b hb => .root ?_
    rw [hlen₂]
    simp only [Endless.roots, List.mem_append, List.mem_cons] at hb ⊢
    tauto
  · cases he

/-- The operands below a call. -/
theorem operands_below {φ : Address → Address} {m : Machine} {above below : List Address}
    (hh : m.operands.Hold ((above ++ below).map φ)) : (m.operands.atHeight below.length).Hold (below.map φ) := by
  have := hh.atHeight (k := below.length) (by simp)
  simpa [Nat.add_sub_cancel] using this

/-- Calling a closure. -/
theorem callClosure_follows (hm : Matches φ s m) {above below arguments : List Address} {entry : Int} {env : Address}
    (hops : s.operands = above ++ below) (hargs : ∀ a ∈ arguments, a ∈ s.operands) (henv : Reach s.objs s.roots env)
    (he : s.callClosure entry env arguments below = some e) :
    Follows s.objs φ (callClosure entry (some (φ env)) below.length (arguments.map φ)) m e := by
  simp only [Endless.callClosure, Option.bind_eq_bind, Option.bind_eq_some_iff] at he
  obtain ⟨outer, houter, he⟩ := he
  split at he
  next hroom =>
    cases he
    obtain ⟨start, rfl⟩ := Int.eq_ofNat_of_zero_le hroom.1
    have h₀ := hm.holding
    have hlive : live s.objs ([] ++ (s.operands ++ s.env :: s.frames)) = s.live := rfl
    -- the frame of the arguments, which is pinned
    have hlinks : ∀ b ∈ (⟨.frame, arguments⟩ : Obj).links, Reach s.objs s.roots b := fun b hb =>
      .root (List.mem_append_left _ (hargs b hb))
    have hnode := Node.mirrors_withChildren (φ := φ) (o := ⟨.frame, arguments⟩) (by simp) hroom.2.1
    have hadds := allocate_adds hm.mirrors hm.rooted hlinks hnode (by simp)
    have hargument : HeapM.argumentFrame (arguments.map φ) = HeapM.allocate ((Node.fresh .frame arguments.length).withChildren
        (arguments.map fun a => some (φ a))) := by
      simp [HeapM.argumentFrame, Function.comp_def]
    unfold callClosure
    rw [hargument]
    refine h₀.adds hlinks hadds (by rw [hlive]; simp) fun φ₁ heap₁ h₁ hφ₁ hl₁ hs₁ => ?_
    rw [hlive] at hl₁
    have houter₁ : (s.objs ++ [⟨.frame, arguments⟩])[env]? = some outer :=
      (hm.mirrors.getElem?_append _ henv).trans houter
    have henv₁ : Reach (s.objs ++ [⟨.frame, arguments⟩]) ([s.objs.length] ++ (s.operands ++ s.env :: s.frames)) env :=
      hm.mirrors.reach_append hlinks henv
    generalize hobjs₁ : s.objs ++ [⟨.frame, arguments⟩] = objs₁ at h₁ hl₁ houter₁ henv₁
    -- the record of the call, which the registers hold from then on
    refine .bind rfl (.refl _) rfl ?_
    have hlinks₁ : ∀ b ∈ (⟨.callframe m.pc below.length, [s.env]⟩ : Obj).links,
        Reach objs₁ ([s.objs.length] ++ (s.operands ++ s.env :: s.frames)) b := by
      simp only [List.mem_singleton]
      rintro b rfl
      exact .root (by simp)
    have hadds₁ := allocateOver_adds (h₁.mirrors.of_pins (heap₁.pins ++ [some (φ₁ s.objs.length)].toArray))
      (by simpa using h₁.rooted) hlinks₁ (by simp [maxChildren]) (by simp) (by simp)
    have hcurrent : m.env = φ₁ s.env := h₁.registers.env
    simp only [List.map_cons, List.map_nil, ← hcurrent] at hadds₁
    refine h₁.adds hlinks₁ (pinning_adds hadds₁) (by rw [hl₁]; simp) fun φ₂ heap₂ h₂ hφ₂ hl₂ hs₂ => ?_
    have hframe₂ : φ₁ s.objs.length = φ₂ s.objs.length := (hφ₂ _ (.root (by simp))).symm
    have henv₂ : φ env = φ₂ env := ((hφ₂ env henv₁).trans (hφ₁ env henv)).symm
    have houter₂ : (objs₁ ++ [⟨.callframe m.pc below.length, [s.env]⟩])[env]? = some outer :=
      (h₁.mirrors.getElem?_append _ henv₁).trans houter₁
    have hreach₂ : Reach (objs₁ ++ [⟨.callframe m.pc below.length, [s.env]⟩])
        ([s.objs.length] ++ (s.operands ++ s.env :: objs₁.length :: s.frames)) env := by
      refine (h₁.mirrors.reach_append hlinks₁ henv₁).of_roots fun b hb => .root ?_
      simp only [List.cons_append, List.nil_append, List.mem_append, List.mem_cons] at hb ⊢
      rcases hb with hb | hb | hb | hb | hb <;> simp [hb]
    replace h₂ := h₂.pushFrame
    rw [← Holding.live_pushFrame, hl₁] at hl₂
    generalize hobjs₂ : objs₁ ++ [⟨.callframe m.pc below.length, [s.env]⟩] = objs₂ at h₂ hl₂ houter₂ hreach₂
    refine .bind rfl ⟨rfl, rfl, rfl⟩ rfl ?_
    -- the environment of the body, which holds the frame
    refine h₂.extend hframe₂ henv₂ hreach₂ houter₂ hroom.2.2 (by rw [hl₂]; simp) fun φ₃ heap₃ h₃ hφ₃ hl₃ hs₃ => ?_
    have hlen₁ : objs₁.length = s.objs.length + 1 := by simp [← hobjs₁]
    have hlen₂ : objs₂.length = s.objs.length + 2 := by simp [← hobjs₂, hlen₁]
    rw [hl₂] at hl₃
    have hobjs₃ : s.objs ++ [⟨.frame, arguments⟩, ⟨.callframe s.pc below.length, [s.env]⟩,
        ⟨.environment, outer.links ++ [s.objs.length]⟩] =
        objs₂ ++ [⟨.environment, outer.links ++ [s.objs.length]⟩] := by
      rw [← hobjs₂, ← hobjs₁, hm.pc]
      simp
    have hbelow := h₃.registers.operands
    rw [hops] at hbelow
    refine .met hl₃ rfl ⟨?_, ⟨operands_below hbelow, by rw [hlen₂], ?_⟩, h₃.pins, rfl⟩ (.refl _ _) ⟨rfl, rfl, rfl⟩
    · rw [hobjs₃]
      refine h₃.mirrors.of_held fun b hb => .root ?_
      rw [hlen₂, hlen₁, hops]
      simp only [Endless.roots, List.cons_append, List.nil_append, List.mem_append, List.mem_cons] at hb ⊢
      rcases hb with hb | hb | hb | hb <;> simp [hb]
    · rw [← hlen₁]
      exact h₃.registers.frames
  · cases he

/-- What operators see of reachable nodes. -/
theorem sees (hm : Matches φ s m) {arguments : List Address} (hargs : ∀ a ∈ arguments, a ∈ s.operands)
    {xs : List Operand} (hxs : arguments.mapM s.operand? = some xs) :
    List.Forall₂ (Sees m) (arguments.map φ) xs := by
  induction arguments generalizing xs with
  | nil =>
    simp only [List.mapM_nil, Option.pure_def, Option.some.injEq] at hxs
    subst hxs
    exact .nil
  | cons a rest ih =>
    simp only [List.mapM_cons, Option.pure_def, Option.bind_eq_bind, Option.bind_eq_some_iff, Option.some.injEq] at hxs
    obtain ⟨x, hx, ys, hys, rfl⟩ := hxs
    have ha : Reach s.objs s.roots a := .root (List.mem_append_left _ (hargs a (by simp)))
    exact .cons (hm.operand ha hx) (ih (fun b hb => hargs b (by simp [hb])) hys)

/-- Calling a builtin. -/
theorem callBuiltin_follows (hm : Matches φ s m) {above below arguments : List Address} (hops : s.operands = above ++ below)
    (hargs : ∀ a ∈ arguments, a ∈ s.operands) {b : Builtin} (hlen : b.arity = arguments.length)
    (he : s.callBuiltin b arguments below = some e) :
    Follows s.objs φ (do
      let r ← b.apply (arguments.map φ)
      modify fun m => { m with operands := m.operands.atHeight below.length }
      MachineM.push r) m e := by
  simp only [Endless.callBuiltin, Option.bind_eq_bind, Option.bind_eq_some_iff] at he
  obtain ⟨xs, hxs, he⟩ := he
  have hpicks := apply_picks b (by simpa using hlen) (hm.sees hargs hxs)
  have hbelow : m.operands.Hold ((above ++ below).map φ) := by
    have := hm.registers.operands
    rwa [hops] at this
  cases hout : Operand.builtin b xs with
  | error err =>
    simp only [hout, Option.some.injEq] at he hpicks
    subst he
    exact .fail (bind_error hpicks) rfl rfl
  | ok r =>
    cases r with
    | inl first =>
      simp only [hout, Option.bind_eq_some_iff, Option.some.injEq] at he hpicks
      obtain ⟨a, ha, rfl⟩ := he
      obtain ⟨a', ha', hrun⟩ := hpicks
      obtain rfl : φ a = a' := by simpa [ha] using ha'
      have hreach : Reach s.objs s.roots a := .root (List.mem_append_left _ (hargs a (List.mem_of_getElem? ha)))
      refine .ok (φ := φ) (k := { m with operands := (m.operands.atHeight below.length).push (φ a) }) ?_
        ⟨hm.mirrors.of_held fun c hc => ?_, ⟨(operands_below hbelow).push (φ a), hm.registers.env, hm.registers.frames⟩,
          hm.pins, hm.pc⟩ ⟨rfl, rfl, rfl⟩
      · rw [bind_ok hrun]
        rfl
      · simp only [Endless.roots, List.cons_append, List.mem_cons, List.mem_append] at hc
        rcases hc with rfl | hc | hc | hc
        · exact hreach
        · exact .root (by simp [Endless.roots, hops, hc])
        · exact .root (by simp [Endless.roots, hc])
        · exact .root (by simp [Endless.roots, hc])
    | inr n =>
      simp only [hout, Option.some.injEq] at he hpicks
      subst he
      refine .of_eq (bind_congr hpicks) ?_
      refine hm.holding.adds (o := ⟨.number n, []⟩) (by simp) (hm.leaf_adds (by simp) (by simp)) (Nat.lt_succ_self _)
        fun φ' h' hh hold hl hsize => ?_
      have hbelow' := hh.registers.operands
      rw [hops] at hbelow'
      have hdemand : s.live + 1 ≤ h'.nodes.size := hl ▸ hh.mirrors.live_le
      refine .met hdemand rfl ⟨hh.mirrors.of_held fun c hc => .root ?_,
        ⟨(operands_below hbelow').push _, hh.registers.env, hh.registers.frames⟩, hh.pins, hm.pc⟩ (.refl _ _) ⟨rfl, rfl, rfl⟩
      simp only [Endless.roots, Endless.create, List.cons_append, List.nil_append, List.mem_cons, List.mem_append] at hc ⊢
      rcases hc with hc | hc | hc | hc <;> simp [hc, hops]

/-- Calling the callee below its arguments. -/
theorem call_follows (hm : Matches φ s m) {arity : Int} (he : s.call arity = some e) : Follows s.objs φ (call arity) m e := by
  unfold Endless.call at he
  split at he
  · cases he
  next hrange =>
    simp only [Option.bind_eq_bind, Option.bind_eq_some_iff] at he
    obtain ⟨callee, hcallee, o, ho, he⟩ := he
    obtain ⟨k, rfl⟩ : ∃ k : Nat, arity = k := Int.eq_ofNat_of_zero_le (by omega)
    simp only [Int.toNat_natCast] at hcallee he
    have hlt : k < s.operands.length := (List.getElem?_eq_some_iff.mp hcallee).1
    have hhold := hm.registers.operands
    have hheight : m.operands.height = s.operands.length := by simpa using hhold.length.symm
    have hbase : m.operands.height - k - 1 = (s.operands.drop (k + 1)).length := by
      rw [List.length_drop]
      omega
    have hget : m.operands.get? (m.operands.height - k - 1) = some (φ callee) := by
      rw [hhold.get? (by simp; omega), List.getElem?_reverse (by simp; omega), List.length_map, List.getElem?_map,
        show s.operands.length - 1 - (m.operands.height - k - 1) = k by omega, hcallee]
      rfl
    have habove : m.operands.above (m.operands.height - k - 1 + 1) = (s.operands.take k).reverse.map φ := by
      rw [hhold.above, List.drop_reverse, List.length_map, ← List.map_take, List.map_reverse,
        show s.operands.length - (m.operands.height - k - 1 + 1) = k by omega]
    have hops : s.operands = s.operands.take (k + 1) ++ s.operands.drop (k + 1) := (List.take_append_drop ..).symm
    have hargs : ∀ a ∈ (s.operands.take k).reverse, a ∈ s.operands := fun a ha =>
      List.mem_of_mem_take (List.mem_reverse.mp ha)
    have hlen : ((s.operands.take k).reverse.length : Int) = k := by
      rw [List.length_reverse, List.length_take]
      omega
    have hreach : Reach s.objs s.roots callee := .root (List.mem_append_left _ (List.mem_of_getElem? hcallee))
    obtain ⟨n, hn, hmirrors⟩ := hm.mirrors.get hreach ho
    have hunder : ¬ (m.operands.height : Int) < k + 1 := by omega
    unfold call
    refine .bind (k := m) rfl (.refl m) rfl ?_
    rw [if_neg hrange, if_neg hunder]
    simp only [Int.toNat_natCast, hget, need, pure_bind, habove]
    refine .bind (nodeAt_apply hn) (.refl m) rfl ?_
    rw [hmirrors.content, Node.kind, hmirrors.content, hbase]
    cases hc : o.content with
    | builtin id =>
      simp only [hc, Option.bind_eq_some_iff] at he
      obtain ⟨b, hb, he⟩ := he
      unfold callBuiltin
      simp only [hb, need, pure_bind]
      by_cases harity : b.arity ≠ k
      · rw [if_pos harity] at he ⊢
        cases he
        exact .fail rfl rfl rfl
      · rw [if_neg harity] at he ⊢
        exact hm.callBuiltin_follows hops hargs ((not_not.mp harity).trans hlen.symm) he
    | closure expected entry =>
      simp only [hc] at he
      simp only
      by_cases harity : expected ≠ k
      · rw [if_pos harity] at he ⊢
        cases he
        exact .fail rfl rfl rfl
      · rw [if_neg harity] at he ⊢
        simp only [Option.bind_eq_some_iff] at he
        obtain ⟨env, henv, he⟩ := he
        rw [hmirrors.firstChild henv]
        exact hm.callClosure_follows hops hargs (hreach.link ho (List.mem_of_getElem? henv)) he
    | _ =>
      simp only [hc, Option.some.injEq] at he
      subst he
      exact .fail rfl rfl rfl

/-- Closing a block on the way to a call, or returning from the call. -/
theorem reset_follows (hm : Matches φ s.next m) (he : s.reset = some e) : Follows s.objs φ reset m e := by
  unfold Endless.reset at he
  cases hframes : s.frames with
  | nil => simp [hframes] at he
  | cons top rest =>
    simp only [hframes, Option.bind_eq_bind, Option.bind_eq_some_iff] at he
    obtain ⟨o, ho, he⟩ := he
    have hreach : Reach s.objs s.roots top := .root (by simp [Endless.roots, hframes])
    obtain ⟨n, hn, hmirrors⟩ := hm.mirrors.get hreach ho
    have hmframes : m.frames = φ top :: rest.map φ := by simpa [Endless.next, hframes] using hm.registers.frames
    have hpc : m.pc = s.pc + 1 := by simpa [Endless.next] using hm.pc
    unfold reset
    refine .bind (k := m) rfl (.refl m) rfl ?_
    simp only [hmframes]
    refine .bind (k := { m with frames := rest.map φ }) rfl ⟨rfl, rfl, rfl⟩ rfl ?_
    refine .bind (nodeAt_apply hn) (.refl _) rfl ?_
    rw [hmirrors.content]
    split at he
    next links =>
      cases he
      refine .ok (φ := φ) (k := { m with frames := rest.map φ, pc := m.pc - 1 }) rfl
        ⟨hm.mirrors.of_held fun c hc => .root ?_, ⟨hm.registers.operands, hm.registers.env, rfl⟩, hm.pins, ?_⟩ ⟨rfl, rfl, rfl⟩
      · simp only [Endless.roots, Endless.next, hframes, List.mem_append, List.mem_cons] at hc ⊢
        rcases hc with hc | hc | hc <;> simp [hc]
      · simp only [hpc]
        omega
    next back height env =>
      simp only [Option.bind_eq_some_iff] at he
      obtain ⟨a, ha, he⟩ := he
      split at he
      next hrange =>
        cases he
        obtain ⟨tail, hops⟩ : ∃ tail, s.operands = a :: tail := List.head?_eq_some_iff.mp ha
        obtain ⟨k, rfl⟩ := Int.eq_ofNat_of_zero_le hrange.2.1
        have hk : k ≤ s.operands.length := by have := hrange.2.2; omega
        have hhold : m.operands.Hold (s.operands.map φ) := hm.registers.operands
        have htop : m.operands.top? = some (φ a) := by
          rw [hops] at hhold
          exact hhold.top?
        have hreaches : m.operands.reaches (k : Int) = true := by
          have hlen := hhold.length
          have hsize := hhold.height
          simp only [List.length_map] at hlen
          simp only [Operands.reaches, Bool.and_eq_true, decide_eq_true_eq]
          omega
        have hbelow : (m.operands.atHeight k).Hold ((s.operands.drop (s.operands.length - k)).map φ) := by
          simpa using hhold.atHeight (k := k) (by simpa using hk)
        refine .ok (φ := φ) (k := { m with
          frames := rest.map φ, operands := (m.operands.atHeight k).push (φ a), pc := back, env := φ env }) ?_
          ⟨hm.mirrors.of_held fun c hc => ?_, ⟨hbelow.push (φ a), rfl, rfl⟩, hm.pins, ?_⟩ ⟨rfl, rfl, rfl⟩
        · simp only [get_bind_apply, htop, Option.getD_some, hreaches, if_true, hmirrors.firstChild (a := env) rfl, need,
            pure_bind, modify_apply, Int.toNat_natCast]
        · simp only [Endless.roots, List.cons_append, List.mem_append, List.mem_cons] at hc
          rcases hc with rfl | hc | rfl | hc
          · exact .root (by simp [Endless.roots, Endless.next, hops])
          · exact .root (List.mem_append_left _ (List.mem_of_mem_drop hc))
          · exact hreach.link ho (by simp)
          · exact .root (by simp [Endless.roots, Endless.next, hframes, hc])
        · simp only
          omega
      · cases he
    · cases he

end Matches

end Tenure
