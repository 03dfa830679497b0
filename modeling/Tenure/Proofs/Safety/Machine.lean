import Tenure.Code.Image
import Tenure.Proofs.Safety.Operations

/-!
# Instructions that do not crash

`Machine.WellFormed` is what every instruction keeps, whatever the code: a well-formed heap, registers that hold
addresses of the arena, and an environment as the current one. Nothing is asked of the order of instructions. The
operands may hold stale addresses, a height saved by a call may lie above the current one, and a return may find any
kind of frame; the checks of each instruction on the nodes that it meets are enough, `MachineM.execute_safe`.
-/

set_option autoImplicit false

namespace Tenure

open Heap Node

/-- An instruction whose operands passed the check of images. -/
def Instr.Checked (i : Instr) : Prop := ∃ size, i.validate size = .ok ()

theorem Instr.Checked.arity {i : Instr} (hi : i.Checked) (ho : i.op.operation? = some .call) :
    0 ≤ i.arity ∧ i.arity ≤ 9 := by
  obtain ⟨size, hvalid⟩ := hi
  by_contra hne
  have harity : i.arity < 0 ∨ (9 : Int) < i.arity := by omega
  simp [Instr.validate, ho, maxFrameSlots, Operation.usesAddress, Operation.isJump, Operation.usesPosition, harity]
    at hvalid

theorem Instr.Checked.num {i : Instr} (hi : i.Checked) (ho : i.op.operation? = some .enterScope) :
    0 ≤ i.num ∧ i.num ≤ 9 := by
  obtain ⟨size, hvalid⟩ := hi
  by_contra hne
  have hnum : i.num < 0 ∨ (9 : Int) < i.num := by omega
  simp [Instr.validate, ho, maxFrameSlots, Operation.usesAddress, Operation.isJump, Operation.usesPosition, hnum]
    at hvalid

namespace Operands

/-- All cells hold addresses of an arena, and the height is among them. -/
structure Inside (s : Operands) (size : Nat) : Prop where
  cells : ∀ a ∈ s.cells, a < size
  height : s.height ≤ s.cells.size

variable {s : Operands} {size : Nat} {a : Address}

theorem Inside.of_get (hs : s.Inside size) {i : Nat} (ha : s.cells[i]? = some a) : a < size :=
  hs.cells a (Array.mem_of_getElem? ha)

theorem Inside.top? (hs : s.Inside size) (ha : s.top? = some a) : a < size := by
  unfold Operands.top? at ha
  split at ha
  · cases ha
  · exact hs.of_get ha

theorem Inside.toList (hs : s.Inside size) (ha : a ∈ s.toList) : a < size :=
  hs.cells a (by simpa using List.mem_of_mem_take ha)

theorem Inside.length_toList (hs : s.Inside size) : s.toList.length = s.height := by
  have := hs.height
  simp only [Operands.toList, List.length_take, Array.length_toList]
  omega

theorem Inside.dropTop (hs : s.Inside size) : s.dropTop.Inside size :=
  ⟨hs.cells, Nat.le_trans (Nat.sub_le ..) hs.height⟩

theorem Inside.atHeight (hs : s.Inside size) {height : Nat} (h : height ≤ s.cells.size) :
    (s.atHeight height).Inside size := ⟨hs.cells, h⟩

theorem Inside.push (hs : s.Inside size) (ha : a < size) : (s.push a).Inside size := by
  obtain ⟨cells, height⟩ := s
  have hheight : height ≤ cells.size := hs.height
  unfold Operands.push
  simp only
  split
  next hlt =>
    refine ⟨fun b hb => ?_, by simpa using hlt⟩
    rcases Array.mem_or_eq_of_mem_setIfInBounds hb with hb | rfl
    · exact hs.cells b hb
    · exact ha
  next hge =>
    refine ⟨fun b hb => ?_, by simp only [Array.size_push]; omega⟩
    rcases Array.mem_push.mp hb with hb | rfl
    · exact hs.cells b hb
    · exact ha

theorem cells_size_push (s : Operands) (a : Address) : s.cells.size ≤ (s.push a).cells.size := by
  obtain ⟨cells, height⟩ := s
  unfold Operands.push
  simp only
  split <;> simp

end Operands

namespace Machine

/-- A machine that no instruction can crash. -/
structure WellFormed (m : Machine) : Prop where
  heap : m.heap.WellFormed m.operands.cells.size
  operands : m.operands.Inside m.heap.nodes.size
  env : IsEnvironment m.heap.nodes m.env
  frames : ∀ a ∈ m.frames, a < m.heap.nodes.size
  code : ∀ i ∈ m.code, i.Checked

/-- An operation that makes a value changes the heap alone. -/
structure Yields (m : Machine) (a : Address) (m' : Machine) : Prop where
  wellFormed : m'.WellFormed
  inside : a < m'.heap.nodes.size
  rest : m' = { m with heap := m'.heap }

variable {m m' : Machine} {a : Address} {h' : Heap}

namespace WellFormed

theorem node (hm : m.WellFormed) (ha : a < m.heap.nodes.size) :
    ∃ n, m.heap.nodes[a]? = some n ∧ n.WellFormed m.operands.cells.size m.heap.nodes := by
  have hn := Array.getElem?_eq_getElem ha
  exact ⟨_, hn, hm.heap.nodes a _ hn⟩

theorem roots (hm : m.WellFormed) : m.heap.Inside (MachineM.rootsOf m).get := by
  intro a ha
  have hmem : a ∈ m.operands.toList ∨ a = m.env ∨ a ∈ m.frames := by
    simpa [MachineM.rootsOf, Machine.roots, Thunk.get] using ha
  rcases hmem with hmem | rfl | hmem
  · exact hm.operands.toList hmem
  · obtain ⟨n, hn, -⟩ := hm.env
    exact (Array.getElem?_eq_some_iff.mp hn).1
  · exact hm.frames a hmem

theorem with_heap (hm : m.WellFormed) (hw : h'.WellFormed m.operands.cells.size)
    (hsize : h'.nodes.size = m.heap.nodes.size) (henv : IsEnvironment h'.nodes m.env) :
    ({ m with heap := h' } : Machine).WellFormed :=
  ⟨hw, ⟨fun a ha => hsize ▸ hm.operands.cells a ha, hm.operands.height⟩, henv,
    fun a ha => hsize ▸ hm.frames a ha, hm.code⟩

theorem reaches_env (m : Machine) : Reaches m.heap.nodes (m.heap.rootLinks (MachineM.rootsOf m).get) m.env :=
  .root (by simp [rootLinks, MachineM.rootsOf, Machine.roots, Thunk.get])

theorem reaches_operand {m : Machine} (ha : a ∈ m.operands.toList) :
    Reaches m.heap.nodes (m.heap.rootLinks (MachineM.rootsOf m).get) a :=
  .root (by simp [rootLinks, MachineM.rootsOf, Machine.roots, Thunk.get, ha])

theorem makes (hm : m.WellFormed) {p : Array Node → Address → Prop}
    (hmade : Makes m.operands.cells.size (m.heap.rootLinks (MachineM.rootsOf m).get) m.heap p a h') :
    m.Yields a { m with heap := h' } :=
  ⟨hm.with_heap hmade.wellFormed hmade.later.size (hmade.later.isEnvironment (reaches_env m) hm.env), hmade.inside, rfl⟩

theorem yields (hm : m.WellFormed) (ha : a < m.heap.nodes.size) : m.Yields a m := ⟨hm, ha, rfl⟩

theorem bottom_lt (hm : m.WellFormed) (ha : a < Heap.bottom) : a < m.heap.nodes.size :=
  Nat.lt_of_lt_of_le ha hm.heap.bottom

theorem ofBool_lt (hm : m.WellFormed) (b : Bool) : Heap.ofBool b < m.heap.nodes.size :=
  hm.bottom_lt (by cases b <;> decide)

theorem push (hm : m.WellFormed) (ha : a < m.heap.nodes.size) :
    ({ m with operands := m.operands.push a } : Machine).WellFormed :=
  ⟨hm.heap.mono (m.operands.cells_size_push a), hm.operands.push ha, hm.env, hm.frames, hm.code⟩

theorem dropTop (hm : m.WellFormed) : ({ m with operands := m.operands.dropTop } : Machine).WellFormed :=
  ⟨hm.heap, hm.operands.dropTop, hm.env, hm.frames, hm.code⟩

theorem atHeight (hm : m.WellFormed) {height : Nat} (h : height ≤ m.operands.cells.size) :
    ({ m with operands := m.operands.atHeight height } : Machine).WellFormed :=
  ⟨hm.heap, hm.operands.atHeight h, hm.env, hm.frames, hm.code⟩

theorem goTo (hm : m.WellFormed) (target : Int) : ({ m with pc := target } : Machine).WellFormed :=
  ⟨hm.heap, hm.operands, hm.env, hm.frames, hm.code⟩

theorem setEnv (hm : m.WellFormed) {env : Address} (henv : IsEnvironment m.heap.nodes env) :
    ({ m with env := env } : Machine).WellFormed := ⟨hm.heap, hm.operands, henv, hm.frames, hm.code⟩

theorem pushFrame (hm : m.WellFormed) (ha : a < m.heap.nodes.size) :
    ({ m with frames := a :: m.frames } : Machine).WellFormed :=
  ⟨hm.heap, hm.operands, hm.env, fun b hb => (List.mem_cons.mp hb).elim (fun h => h ▸ ha) (hm.frames b), hm.code⟩

theorem popFrame (hm : m.WellFormed) {rest : List Address} (hf : m.frames = a :: rest) :
    ({ m with frames := rest } : Machine).WellFormed :=
  ⟨hm.heap, hm.operands, hm.env, fun b hb => hm.frames b (by simp [hf, hb]), hm.code⟩

end WellFormed

end Machine

namespace MachineM

variable {α β : Type} {m m' : Machine}

/-- An operation crashes only where there are more nodes than addresses, and if it succeeds, a condition holds. -/
structure Safe (x : MachineM α) (m : Machine) (post : α → Machine → Prop) : Prop where
  ok : ∀ a m', x m = (.ok a, m') → post a m'
  alive : ∀ m', x m = (.error .crashed, m') → Heap.addressable < m'.heap.nodes.size

namespace Safe

variable {x : MachineM α} {f : α → MachineM β} {post post' : α → Machine → Prop}

theorem of_ok {a : α} (hx : x m = (.ok a, m')) (hpost : post a m') : x.Safe m post := by
  constructor <;> rw [hx]
  · rintro _ _ ⟨⟩
    exact hpost
  · rintro _ ⟨⟩

theorem of_failed {e : StepError} (hx : x m = (.error (.failed e), m')) : x.Safe m post := by
  constructor <;> rw [hx]
  · rintro _ _ ⟨⟩
  · rintro _ ⟨⟩

theorem of_crashed (hx : x m = (.error .crashed, m')) (hmany : Heap.addressable < m'.heap.nodes.size) :
    x.Safe m post := by
  constructor <;> rw [hx]
  · rintro _ _ ⟨⟩
  · rintro _ ⟨⟩
    exact hmany

theorem after {post : β → Machine → Prop} {a : α} (hx : x m = (.ok a, m')) (hf : (f a).Safe m' post) :
    (x >>= f).Safe m post := by
  constructor <;> rw [bind_ok hx]
  · exact hf.ok
  · exact hf.alive

theorem bind {post : β → Machine → Prop} (hx : x.Safe m fun a m' => (f a).Safe m' post) : (x >>= f).Safe m post := by
  match hrun : x m with
  | (.ok a, m') => exact .after hrun (hx.ok a m' hrun)
  | (.error (.failed e), m') => exact .of_failed (bind_error hrun)
  | (.error .crashed, m') => exact .of_crashed (bind_error hrun) (hx.alive m' hrun)

theorem imp (hx : x.Safe m post) (himp : ∀ a m', post a m' → post' a m') : x.Safe m post' :=
  ⟨fun a m' hrun => himp a m' (hx.ok a m' hrun), hx.alive⟩

theorem pure {a : α} (hpost : post a m) : (Pure.pure a : MachineM α).Safe m post := of_ok (pure_apply a) hpost

theorem fail (e : StepError) : (MachineM.fail e : MachineM α).Safe m post := of_failed (fail_apply e)

theorem modify {post : Unit → Machine → Prop} {g : Machine → Machine} (hpost : post () (g m)) :
    (MonadState.modifyGet fun s => ((), g s) : MachineM Unit).Safe m post := of_ok (modify_apply g) hpost

theorem onHeap {act : HeapM α} (hact : act.Safe (rootsOf m) m.heap fun a h => post a { m with heap := h }) :
    (MachineM.onHeap act).Safe m post := by
  match hrun : act (rootsOf m) m.heap with
  | (.ok a, h') => exact .of_ok (onHeap_ok hrun) (hact.ok a h' hrun)
  | (.error (.failed e), h') => exact .of_failed (onHeap_error hrun)
  | (.error .crashed, h') => exact .of_crashed (onHeap_error hrun) (hact.alive h' hrun)

end Safe

/-- An operation that pushes what it yields. -/
theorem push_safe {x : MachineM Address} (hx : x.Safe m m.Yields) :
    (x >>= push).Safe m fun _ m' => m'.WellFormed :=
  .bind (hx.imp fun _ _ hy => .modify (hy.wellFormed.push hy.inside))

theorem peek_safe (hm : m.WellFormed) : peek.Safe m fun a m' => m' = m ∧ a < m.heap.nodes.size := by
  refine .after rfl ?_
  split
  next a htop => exact .pure ⟨rfl, hm.operands.top? htop⟩
  · exact .fail _

theorem pop_safe (hm : m.WellFormed) :
    pop.Safe m fun a m' => m'.WellFormed ∧ m'.heap = m.heap ∧ a < m.heap.nodes.size := by
  refine .bind ((peek_safe hm).imp ?_)
  rintro a _ ⟨rfl, ha⟩
  exact .after (modify_apply _) (.pure ⟨hm.dropTop, rfl, ha⟩)

/-! ## Values -/

theorem leaf_safe (hm : m.WellFormed) (content : Content)
    (hsuits : (Node.fresh content 0).Suits m.operands.cells.size m.heap.nodes) (hs : ∀ t, content ≠ .string t) :
    (HeapM.allocate (.fresh content 0)).Safe (rootsOf m) m.heap fun a h => m.Yields a { m with heap := h } :=
  (hm.heap.leaf hm.roots hsuits hs).imp fun _ _ hmade => hm.makes hmade

theorem newNumber_safe (hm : m.WellFormed) (n : Number) : (newNumber n).Safe m m.Yields :=
  .onHeap (leaf_safe hm (.number n) trivial fun _ => Content.noConfusion)

theorem literal_safe (hm : m.WellFormed) (l : Literal) : (onHeap (HeapM.ofLiteral l)).Safe m m.Yields := by
  refine .onHeap ?_
  have hpermanent : ∀ a, a < bottom →
      (Pure.pure a : HeapM Address).Safe (rootsOf m) m.heap fun a h => m.Yields a { m with heap := h } :=
    fun a ha => .of_ok (HeapM.pure_apply a) (hm.yields (hm.bottom_lt ha))
  unfold HeapM.ofLiteral
  split
  · exact hpermanent _ (by decide)
  split
  · exact hpermanent _ (by cases l.bool <;> decide)
  split
  · exact leaf_safe hm _ trivial fun _ => Content.noConfusion
  split
  · exact leaf_safe hm _ trivial fun _ => Content.noConfusion
  split
  · exact leaf_safe hm _ trivial fun _ => Content.noConfusion
  split
  · exact (hm.heap.string hm.roots l.str).imp fun _ _ hmade => hm.makes hmade
  · exact .of_failed rfl

theorem ofResult_safe {α : Type} (r : Except StepError α) : (ofResult r).Safe m fun _ m' => m' = m := by
  cases r with
  | ok a => exact .pure rfl
  | error e => exact .fail e

variable {x y : Address}

theorem equal_safe (hm : m.WellFormed) (hx : x < m.heap.nodes.size) (hy : y < m.heap.nodes.size) :
    (equal x y).Safe m fun _ m' => m' = m := by
  obtain ⟨nx, hnx, -⟩ := hm.node hx
  obtain ⟨ny, hny, -⟩ := hm.node hy
  unfold equal
  split
  · exact .pure rfl
  · refine .after (nodeAt_apply hnx) (.after (nodeAt_apply hny) ?_)
    split <;> exact .pure rfl

theorem onTruths_safe (hm : m.WellFormed) (symbol : Text) (hx : x < m.heap.nodes.size) (hy : y < m.heap.nodes.size)
    (f : Bool → Bool → Bool) : (onTruths symbol x y f).Safe m m.Yields := by
  obtain ⟨nx, hnx, -⟩ := hm.node hx
  obtain ⟨ny, hny, -⟩ := hm.node hy
  refine .after (nodeAt_apply hnx) (.after (nodeAt_apply hny) ?_)
  split
  · exact .pure (hm.yields (hm.ofBool_lt _))
  · exact .fail _

theorem onValues_safe (hm : m.WellFormed) (symbol : Text) (hx : x < m.heap.nodes.size) (hy : y < m.heap.nodes.size) :
    (onValues symbol x y).Safe m m.Yields := by
  obtain ⟨nx, hnx, -⟩ := hm.node hx
  obtain ⟨ny, hny, -⟩ := hm.node hy
  refine .after (nodeAt_apply hnx) (.after (nodeAt_apply hny) ?_)
  split
  · split
    · exact .pure (hm.yields (hm.ofBool_lt _))
    · exact .fail _
  · split
    · exact .pure (hm.yields (hm.ofBool_lt _))
    · refine .bind ((ofResult_safe _).imp ?_)
      rintro n _ rfl
      exact newNumber_safe hm n
  · exact .fail _

theorem binary_safe (hm : m.WellFormed) (symbol : Text) (hx : x < m.heap.nodes.size) (hy : y < m.heap.nodes.size) :
    (binary symbol x y).Safe m m.Yields := by
  have hequal : ∀ f : Bool → Bool, (do let b ← equal x y; Pure.pure (Heap.ofBool (f b)) : MachineM Address).Safe m m.Yields :=
    fun f => .bind ((equal_safe hm hx hy).imp fun b m' hsame => by
      obtain rfl := hsame
      exact .pure (hm.yields (hm.ofBool_lt _)))
  unfold binary
  split
  · exact hequal id
  split
  · exact hequal not
  split
  · exact onTruths_safe hm symbol hx hy _
  split
  · exact onTruths_safe hm symbol hx hy _
  split
  · obtain ⟨n, hn, -⟩ := hm.node hx
    have hkind : kindAt x m = (.ok n.kind, m) := by rw [kindAt, bind_ok (nodeAt_apply hn)]; rfl
    refine .after hkind ?_
    split
    · exact onValues_safe hm symbol hx hy
    split
    · exact onTruths_safe hm symbol hx hy _
    split
    · exact onTruths_safe hm symbol hx hy _
    · exact onTruths_safe hm symbol hx hy _
  · exact onValues_safe hm symbol hx hy

theorem unary_safe (hm : m.WellFormed) (symbol : Text) (hx : x < m.heap.nodes.size) :
    (unary symbol x).Safe m m.Yields := by
  obtain ⟨n, hn, -⟩ := hm.node hx
  unfold unary
  split
  · refine .after (nodeAt_apply hn) ?_
    split
    · exact newNumber_safe hm _
    · exact .fail _
  split
  · refine .after (nodeAt_apply hn) ?_
    split
    · exact .pure (hm.yields (hm.bottom_lt (by decide)))
    · exact .pure (hm.yields (hm.bottom_lt (by decide)))
    · exact newNumber_safe hm _
    · exact .fail _
  · exact .fail _

end MachineM

end Tenure
