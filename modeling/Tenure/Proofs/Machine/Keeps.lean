import Tenure.Proofs.Machine.Steps
import Tenure.Proofs.Semantics.Integers

/-!
# Properties that a heap keeps

If a property of heaps survives collections, pins, new nodes and new children of old nodes, it survives every operation
of the heap and every instruction of the machine: `Heap.Kept`, `MachineM.execute_keeps`. A property may admit only some
contents of new nodes. Strings are made by an operation of their own, integers by literals and by arithmetic, which gives
32 bits; whatever else is made is made of addresses.

Nothing is asked of the operations otherwise. They may fail or crash on their way, and may be given addresses of any nodes.
-/

set_option autoImplicit false

namespace Tenure

/-! ## Arithmetic -/

/-- The integer of a number has 32 bits. -/
def Number.Fits : Number → Prop
  | .int n => Integer.Fits n
  | .float _ => True

theorem Number.operate_fits {symbol : Text} {a b r : Number} (h : a.operate symbol b = .ok r) : r.Fits := by
  have hmade : ∀ {α : Type} {x : Except StepError α} {f : α → Number}, x.map f = .ok r → ∃ v, f v = r := by
    intro α x f hx
    cases x with
    | error e => cases hx
    | ok v => exact ⟨v, Except.ok.inj hx⟩
  unfold Number.operate at h
  split at h
  · obtain ⟨w, rfl⟩ := hmade h
    exact Integer.fits_toInt w
  · obtain ⟨x, rfl⟩ := hmade h
    trivial

theorem Number.negate_fits (n : Number) : n.negate.Fits := by
  cases n with
  | int n => exact Integer.fits_toInt _
  | float x => trivial

theorem Number.magnitude_fits (n : Number) : n.magnitude.Fits := by
  cases n with
  | int n => exact Integer.fits_toInt _
  | float x => trivial

/-! ## Operations of the heap -/

/-- A property of heaps that survives what operations do, as long as new nodes have contents that it admits. -/
structure Heap.Kept (P : Heap → Prop) (Admits : Content → Prop) : Prop where
  pins : ∀ (h : Heap) (pins : Array Link), P h → P { h with pins := pins }
  collect : ∀ (h : Heap) (roots : List Link), P h → P (h.collect roots).2
  take : ∀ (h : Heap) (n : Node), P h → Admits n.content → P (h.take? n).2
  string : ∀ (t : Text) (roots : Roots) (h : Heap), P h → P (HeapM.string t roots h).2
  rewrite : ∀ (h : Heap) (a : Address) (n : Node) (children : Children), P h → h.nodes[a]? = some n →
    P (h.setNode a { n with children := children })
  number : ∀ n : Number, n.Fits → Admits (.number n)
  other : ∀ c : Content, c ≠ .free → (∀ n, c ≠ .number n) → (∀ t, c ≠ .string t) → Admits c

namespace HeapM

/-- An operation that a property of heaps survives, however it ends. -/
def Keeps {α : Type} (P : Heap → Prop) (act : HeapM α) : Prop :=
  ∀ (roots : Roots) (h : Heap), P h → P (act roots h).2

namespace Keeps

section Combinators

variable {α β : Type} {P : Heap → Prop} {act act' : HeapM α} {f : α → HeapM β}

theorem pure (a : α) : (Pure.pure a : HeapM α).Keeps P := fun _ _ hh => hh

theorem fail (e : HeapError) : (HeapM.fail e : HeapM α).Keeps P := fun _ _ hh => hh

theorem crash : (HeapM.crash : HeapM α).Keeps P := fun _ _ hh => hh

theorem get : (MonadState.get : HeapM Heap).Keeps P := fun _ _ hh => hh

theorem need (o : Option α) : (HeapM.need o).Keeps P := by
  cases o with
  | none => exact crash
  | some a => exact pure a

theorem modify {g : Heap → Heap} (hg : ∀ h, P h → P (g h)) : (modify g : HeapM Unit).Keeps P := fun _ h hh => hg h hh

theorem bind (hact : act.Keeps P) (hf : ∀ a, (f a).Keeps P) : (act >>= f).Keeps P := by
  intro roots h hh
  have hfirst := hact roots h hh
  match hrun : act roots h with
  | (.ok a, h') =>
    rw [hrun] at hfirst
    rw [bind_ok hrun]
    exact hf a roots h' hfirst
  | (.error e, h') =>
    rw [hrun] at hfirst
    rw [bind_error hrun]
    exact hfirst

theorem ite {c : Prop} [Decidable c] (hact : act.Keeps P) (hact' : act'.Keeps P) :
    (if c then act else act').Keeps P := by
  split
  · exact hact
  · exact hact'

theorem nodeAt (a : Address) : (HeapM.nodeAt a).Keeps P := .bind .get fun _ => .need _

theorem follow (l : Link) : (HeapM.follow l).Keeps P := .bind (.need l) fun a => .nodeAt a

theorem child (a : Address) (i : Int) : (HeapM.child a i).Keeps P := .bind (.nodeAt a) fun _ => .need _

theorem frameAt (env : Link) (pos : Position) : (HeapM.frameAt env pos).Keeps P :=
  .bind (.follow env) fun _ => .bind (.need _) fun _ => .need _

theorem lookup (env : Link) (pos : Position) : (HeapM.lookup env pos).Keeps P :=
  .bind (.frameAt env pos) fun _ => .child _ _

theorem collect (hcollect : ∀ h roots, P h → P (h.collect roots).2) : HeapM.collect.Keeps P := by
  intro roots h hh
  have hafter := hcollect h roots.get hh
  unfold HeapM.collect
  split
  next hrun => rwa [hrun] at hafter
  next hrun => rwa [hrun] at hafter

theorem take {n : Node} (htake : ∀ h, P h → P (h.take? n).2) : (HeapM.take n).Keeps P := by
  intro roots h hh
  have hafter := htake h hh
  unfold HeapM.take
  split
  next hrun => rwa [hrun] at hafter
  next hrun => rwa [hrun] at hafter

theorem allocate {n : Node} (hcollect : ∀ h roots, P h → P (h.collect roots).2)
    (htake : ∀ h, P h → P (h.take? n).2) : (HeapM.allocate n).Keeps P := by
  refine .ite (.fail _) (.bind .get fun h => ?_)
  split
  · exact .bind (.collect hcollect) fun _ => .take htake
  · exact .take htake

end Combinators

section Operations

variable {α : Type} {P : Heap → Prop} {Admits : Content → Prop} (hP : Heap.Kept P Admits)
include hP

theorem pinning {act : HeapM α} (links : List Link) (hact : act.Keeps P) : (HeapM.pinning links act).Keeps P := by
  intro roots h hh
  apply hP.pins
  apply hact
  exact hP.pins h _ hh

theorem holding {act : HeapM α} (links : List Link) (hact : act.Keeps P) : (HeapM.holding links act).Keeps P := by
  intro roots h hh
  have hafter := hact roots _ (hP.pins h (h.pins ++ links.toArray) hh)
  unfold HeapM.holding
  simp only
  split
  next hrun => rwa [hrun] at hafter
  next hrun =>
    rw [hrun] at hafter
    exact hP.pins _ _ hafter

theorem new {n : Node} (hn : Admits n.content) : (HeapM.allocate n).Keeps P :=
  .allocate hP.collect fun h hh => hP.take h n hh hn

theorem allocateOver {content : Content} (hc : Admits content) (slots : Int) (children : List Link) :
    (HeapM.allocateOver content slots children).Keeps P := .pinning hP _ (.new hP hc)

theorem frame (slots : Int) : (HeapM.frame slots).Keeps P :=
  .bind (.new hP (hP.other .frame nofun nofun nofun)) fun _ => .ite .crash (.pure _)

theorem environment (frames : Int) : (HeapM.environment frames).Keeps P :=
  .new hP (hP.other .environment nofun nofun nofun)

theorem setChild (a : Address) (i : Int) (v : Link) : (HeapM.setChild a i v).Keeps P := by
  intro roots h hh
  cases hn : h.nodes[a]? with
  | none =>
    have hrun : HeapM.nodeAt a roots h = (.error .crashed, h) := by simp [HeapM.nodeAt, Heap.node?, hn, HeapM.need]; rfl
    rw [HeapM.setChild, bind_error hrun]
    exact hh
  | some n =>
    rw [HeapM.setChild, bind_ok (nodeAt_apply hn)]
    unfold Node.setChild?
    split
    · exact hP.rewrite h a n _ hh hn
    · exact hh

theorem store (env : Link) (pos : Position) (v : Link) : (HeapM.store env pos v).Keeps P :=
  .bind (.frameAt env pos) fun _ => .setChild hP _ _ _

theorem extend (frame env : Link) : (HeapM.extend frame env).Keeps P := by
  refine .pinning hP _ (.bind (.follow env) fun outer => .bind (.environment hP _) fun a => .ite .crash ?_)
  refine .bind (.modify fun h hh => ?_) fun _ => .pure a
  split
  next n hn => exact hP.rewrite h a n _ hh hn
  · exact hh

theorem closure (arity entry : Int) (env : Link) : (HeapM.closure arity entry env).Keeps P :=
  .allocateOver hP (hP.other (.closure arity entry) nofun nofun nofun) _ _

theorem blockframe (env : Link) : (HeapM.blockframe env).Keeps P :=
  .allocateOver hP (hP.other .blockframe nofun nofun nofun) _ _

theorem callframe (env : Link) (back height : Int) : (HeapM.callframe env back height).Keeps P :=
  .allocateOver hP (hP.other (.callframe back height) nofun nofun nofun) _ _

theorem reference (pos : Position) (mutable : Bool) (env : Link) : (HeapM.reference pos mutable env).Keeps P :=
  .allocateOver hP (hP.other (.reference pos mutable) nofun nofun nofun) _ _

theorem builtin (id : Int) : (HeapM.builtin id).Keeps P := .new hP (hP.other (.builtin id) nofun nofun nofun)

theorem argumentFrame (arguments : List Address) : (HeapM.argumentFrame arguments).Keeps P :=
  .new hP (hP.other .frame nofun nofun nofun)

theorem string (t : Text) : (HeapM.string t).Keeps P := fun roots h hh => hP.string t roots h hh

theorem number {n : Number} (hn : Admits (.number n)) : (HeapM.number n).Keeps P := .new hP hn

theorem char (code : Int) : (HeapM.char code).Keeps P := .new hP (hP.other (.char code) nofun nofun nofun)

theorem pair (head tail : Link) : (HeapM.pair head tail).Keeps P :=
  .allocateOver hP (hP.other .pair nofun nofun nofun) _ _

theorem ofLiteral {l : Literal} (hl : Admits (.number (.ofInt l.int))) : (HeapM.ofLiteral l).Keeps P :=
  .ite (.pure _) (.ite (.pure _) (.ite (.number hP hl) (.ite (.number hP (hP.number _ trivial))
    (.ite (.char hP _) (.ite (.string hP _) (.fail _))))))

theorem ofHost (hnumber : ∀ n, Admits (.number n)) (v : Host) : (HeapM.ofHost v).Keeps P := by
  induction v with
  | null => exact .pure _
  | undefined => exact .pure _
  | bool b => exact .pure _
  | int n => exact .number hP (hnumber _)
  | word n => exact .number hP (hnumber _)
  | float x => exact .number hP (hnumber _)
  | single x => exact .number hP (hnumber _)
  | charCode n => exact .char hP n
  | str t => exact .string hP t
  | pair head tail ihead itail => exact .bind ihead fun a => .bind (.holding hP _ itail) fun b => .pair hP _ _
  | ref mutable target => exact .fail _

end Operations

end Keeps

end HeapM

/-! ## Instructions -/

namespace MachineM

/-- An operation that a property of heaps survives, however it ends, and that leaves the code alone. -/
def Keeps {α : Type} (P : Heap → Prop) (x : MachineM α) : Prop :=
  ∀ m : Machine, P m.heap → P (x m).2.heap ∧ (x m).2.code = m.code

namespace Keeps

section Combinators

variable {α β : Type} {P : Heap → Prop} {x x' : MachineM α} {f : α → MachineM β}

theorem pure (a : α) : (Pure.pure a : MachineM α).Keeps P := fun _ hm => ⟨hm, rfl⟩

theorem fail (e : StepError) : (MachineM.fail e : MachineM α).Keeps P := fun _ hm => ⟨hm, rfl⟩

theorem crash : (MachineM.crash : MachineM α).Keeps P := fun _ hm => ⟨hm, rfl⟩

theorem get : (MonadState.get : MachineM Machine).Keeps P := fun _ hm => ⟨hm, rfl⟩

theorem need (o : Option α) : (MachineM.need o).Keeps P := by
  cases o with
  | none => exact crash
  | some a => exact pure a

/-- A change of the registers. -/
theorem modify {g : Machine → Machine} (hg : ∀ m, (g m).heap = m.heap ∧ (g m).code = m.code) :
    (modify g : MachineM Unit).Keeps P := by
  intro m hm
  obtain ⟨hheap, hcode⟩ := hg m
  exact ⟨hheap.symm ▸ hm, hcode⟩

theorem bind (hx : x.Keeps P) (hf : ∀ a, (f a).Keeps P) : (x >>= f).Keeps P := by
  intro m hm
  have hfirst := hx m hm
  match hrun : x m with
  | (.ok a, m') =>
    rw [hrun] at hfirst
    rw [bind_ok hrun]
    obtain ⟨hheap, hcode⟩ := hf a m' hfirst.1
    exact ⟨hheap, hcode.trans hfirst.2⟩
  | (.error e, m') =>
    rw [hrun] at hfirst
    rw [bind_error hrun]
    exact hfirst

theorem ite {c : Prop} [Decidable c] (hx : x.Keeps P) (hx' : x'.Keeps P) : (if c then x else x').Keeps P := by
  split
  · exact hx
  · exact hx'

theorem onHeap {act : HeapM α} (hact : act.Keeps P) : (MachineM.onHeap act).Keeps P := by
  intro m hm
  have hafter := hact (rootsOf m) m.heap hm
  match hrun : act (rootsOf m) m.heap with
  | (.ok a, h) =>
    rw [hrun] at hafter
    rw [onHeap_ok hrun]
    exact ⟨hafter, rfl⟩
  | (.error e, h) =>
    rw [hrun] at hafter
    rw [onHeap_error hrun]
    exact ⟨hafter, rfl⟩

theorem nodeAt (a : Address) : (MachineM.nodeAt a).Keeps P := .bind .get fun _ => .need _

theorem kindAt (a : Address) : (MachineM.kindAt a).Keeps P := .bind (.nodeAt a) fun _ => .pure _

theorem push (a : Address) : (MachineM.push a).Keeps P := .modify fun _ => ⟨rfl, rfl⟩

theorem peek : MachineM.peek.Keeps P := by
  refine .bind .get fun m => ?_
  split
  · exact .pure _
  · exact .fail _

theorem pop : MachineM.pop.Keeps P := .bind .peek fun _ => .bind (.modify fun _ => ⟨rfl, rfl⟩) fun _ => .pure _

theorem pushing {y : MachineM Address} (hy : y.Keeps P) : (y >>= MachineM.push).Keeps P := .bind hy fun a => .push a

theorem checkSlot (env : Address) (pos : Position) : (MachineM.checkSlot env pos).Keeps P := by
  refine .bind (.nodeAt env) fun e => .ite (.fail _) ?_
  exact .bind (.need _) fun _ => .bind (.need _) fun f => .bind (.nodeAt f) fun _ => .ite (.fail _) (.pure _)

theorem load (env : Address) (pos : Position) : (MachineM.load env pos).Keeps P :=
  .bind (.checkSlot env pos) fun _ => .bind (.onHeap (.lookup _ _)) fun _ => .bind (.need _) fun _ =>
    .ite (.fail _) (.pure _)

theorem equal (a b : Address) : (MachineM.equal a b).Keeps P := by
  refine .ite (.pure _) (.bind (.nodeAt a) fun na => .bind (.nodeAt b) fun nb => ?_)
  split <;> exact .pure _

theorem onTruths (symbol : Text) (a b : Address) (g : Bool → Bool → Bool) :
    (MachineM.onTruths symbol a b g).Keeps P := by
  refine .bind (.nodeAt a) fun na => .bind (.nodeAt b) fun nb => ?_
  split
  · exact .pure _
  · exact .fail _

theorem numberArgument (b : Builtin) (a : Address) : (b.numberArgument a).Keeps P := by
  refine .bind (.nodeAt a) fun n => ?_
  split
  · exact .pure _
  · exact .fail _

theorem pick (b : Builtin) (x y : Address) (keepFirst : Number → Number → Bool) : (b.pick x y keepFirst).Keeps P :=
  .bind (.numberArgument b x) fun _ => .bind (.numberArgument b y) fun _ => .pure _

theorem reset : MachineM.reset.Keeps P := by
  refine .bind .get fun m => ?_
  split
  · exact .fail _
  next top rest _ =>
    refine .bind (.modify fun _ => ⟨rfl, rfl⟩) fun _ => .bind (.nodeAt top) fun n => ?_
    split
    · exact .modify fun _ => ⟨rfl, rfl⟩
    · refine .bind .get fun m => .bind .get fun m' => ?_
      exact .ite (.bind (.need _) fun env => .modify fun _ => ⟨rfl, rfl⟩) .crash
    · exact .fail _

theorem exitScope : MachineM.exitScope.Keeps P := by
  refine .bind .get fun m => ?_
  split
  · exact .fail _
  next top rest _ =>
    refine .bind (.nodeAt top) fun n => .ite (.bind (.modify fun _ => ⟨rfl, rfl⟩) fun _ => ?_) (.fail _)
    exact .bind (.need _) fun env => .modify fun _ => ⟨rfl, rfl⟩

theorem dereference : MachineM.dereference.Keeps P := by
  refine .bind .pop fun r => .bind (.nodeAt r) fun n => ?_
  split
  · exact .bind (.need _) fun env => pushing (.load env _)
  · exact .fail _

theorem jumpUnless (target : Int) : (MachineM.jumpUnless target).Keeps P :=
  .bind .pop fun c => .ite (.modify fun _ => ⟨rfl, rfl⟩) (.ite (.pure _) (.bind (.kindAt c) fun _ => .fail _))

end Combinators

section Operations

variable {P : Heap → Prop} {Admits : Content → Prop} (hP : Heap.Kept P Admits)
include hP

theorem newNumber {n : Number} (hn : n.Fits) : (MachineM.newNumber n).Keeps P := .onHeap (.number hP (hP.number n hn))

/-- A new number for the result of a computation. -/
theorem newResult {r : Except StepError Number} (hr : ∀ n, r = .ok n → n.Fits) :
    (MachineM.ofResult r >>= MachineM.newNumber).Keeps P := by
  intro m hm
  cases r with
  | error e =>
    rw [bind_error (show MachineM.ofResult (.error e : Except StepError Number) m = _ from fail_apply e)]
    exact ⟨hm, rfl⟩
  | ok n =>
    rw [bind_ok (show MachineM.ofResult (.ok n : Except StepError Number) m = _ from pure_apply n)]
    exact newNumber hP (hr n rfl) m hm

theorem onValues (symbol : Text) (a b : Address) : (MachineM.onValues symbol a b).Keeps P := by
  refine .bind (.nodeAt a) fun na => .bind (.nodeAt b) fun nb => ?_
  split
  · split
    · exact .pure _
    · exact .fail _
  · split
    · exact .pure _
    · exact newResult hP fun n hn => Number.operate_fits hn
  · exact .fail _

theorem binary (symbol : Text) (a b : Address) : (MachineM.binary symbol a b).Keeps P := by
  have htruths := fun g => onTruths (P := P) symbol a b g
  refine .ite (.bind (.equal a b) fun _ => .pure _) (.ite (.bind (.equal a b) fun _ => .pure _) (.ite (htruths _)
    (.ite (htruths _) (.ite (.bind (.kindAt a) fun k => ?_) (onValues hP symbol a b)))))
  exact .ite (onValues hP symbol a b) (.ite (htruths _) (.ite (htruths _) (htruths _)))

theorem unary (symbol : Text) (a : Address) : (MachineM.unary symbol a).Keeps P := by
  refine .ite (.bind (.nodeAt a) fun n => ?_) (.ite (.bind (.nodeAt a) fun n => ?_) (.fail _))
  · split
    · exact newNumber hP (Number.negate_fits _)
    · exact .fail _
  · split
    · exact .pure _
    · exact .pure _
    · exact newNumber hP (Integer.fits_toInt _)
    · exact .fail _

theorem apply (b : Builtin) (arguments : List Address) : (b.apply arguments).Keeps P := by
  unfold Builtin.apply
  split
  · exact .bind (.numberArgument _ _) fun n => newNumber hP n.magnitude_fits
  · exact pick _ _ _ _
  · exact pick _ _ _ _
  · exact .bind (.numberArgument _ _) fun n => newNumber hP trivial
  · exact .crash

theorem callBuiltin (id arity : Int) (base : Nat) (arguments : List Address) :
    (MachineM.callBuiltin id arity base arguments).Keeps P := by
  refine .bind (.need _) fun b => .ite (.fail _) (.bind (apply hP b arguments) fun r => ?_)
  exact .bind (.modify fun _ => ⟨rfl, rfl⟩) fun _ => .push r

theorem callClosure (entry : Int) (env : Link) (base : Nat) (arguments : List Address) :
    (MachineM.callClosure entry env base arguments).Keeps P := by
  refine .bind (.onHeap (.argumentFrame hP arguments)) fun frame => .bind .get fun m => ?_
  refine .bind (.onHeap (.pinning hP _ (.callframe hP _ _ _))) fun saved => .bind (.modify fun _ => ⟨rfl, rfl⟩) fun _ => ?_
  exact .bind (.onHeap (.extend hP _ _)) fun inner => .modify fun _ => ⟨rfl, rfl⟩

theorem call (arity : Int) : (MachineM.call arity).Keeps P := by
  refine .bind .get fun m => .ite .crash (.ite (.fail _) (.bind (.need _) fun callee => .bind (.nodeAt callee) fun n => ?_))
  split
  · exact callBuiltin hP _ _ _ _
  · exact .ite (.fail _) (callClosure hP _ _ _ _)
  · exact .fail _

theorem enterScope (slots : Int) : (MachineM.enterScope slots).Keeps P := by
  refine .bind .get fun m => .bind (.onHeap (.blockframe hP _)) fun saved => .bind (.modify fun _ => ⟨rfl, rfl⟩) fun _ => ?_
  refine .bind (.onHeap (.frame hP slots)) fun frame => ?_
  exact .bind (.onHeap (.extend hP _ _)) fun inner => .modify fun _ => ⟨rfl, rfl⟩

theorem drop (pos : Position) : (MachineM.drop pos).Keeps P :=
  .bind .get fun _ => .bind (.checkSlot _ pos) fun _ => .onHeap (.store hP _ _ _)

theorem assign (pos : Position) : (MachineM.assign pos).Keeps P :=
  .bind .get fun _ => .bind (.checkSlot _ pos) fun _ => .bind .peek fun _ => .onHeap (.store hP _ _ _)

theorem reference (pos : Position) (mutable : Bool) : (MachineM.reference pos mutable).Keeps P :=
  .bind .get fun _ => .bind (.checkSlot _ pos) fun _ => pushing (.onHeap (.reference hP _ _ _))

theorem updateReference : MachineM.updateReference.Keeps P := by
  refine .bind .pop fun v => .bind .pop fun r => .bind (.nodeAt r) fun n => ?_
  split
  · refine .ite (.bind (.need _) fun env => .bind (.checkSlot env _) fun _ => ?_) (.fail _)
    exact .bind (.onHeap (.store hP _ _ _)) fun _ => .push v
  · exact .fail _

end Operations

end Keeps

section Execution

variable {P : Heap → Prop} {Admits : Content → Prop} (hP : Heap.Kept P Admits)
include hP

/-- Every instruction, if the integer of its literal is admitted. -/
theorem execute_keeps {i : Instr} (hi : Admits (.number (.ofInt i.val.int))) : (execute i).Keeps P := by
  unfold execute
  split
  next o _ =>
    cases o with
    | loadConstant => exact .pushing (.onHeap (.ofLiteral hP hi))
    | load => exact .bind .get fun m => .pushing (.load m.env i.pos)
    | assign => exact .assign hP i.pos
    | drop => exact .drop hP i.pos
    | reference => exact .reference hP i.pos i.mutable
    | dereference => exact .dereference
    | updateReference => exact .updateReference hP
    | jumpUnless => exact .jumpUnless i.addr
    | jump => exact .modify fun _ => ⟨rfl, rfl⟩
    | unary => exact .bind .pop fun x => .pushing (.unary hP i.sym x)
    | binary => exact .bind .pop fun y => .bind .pop fun x => .pushing (.binary hP i.sym x y)
    | call => exact .call hP i.arity
    | reset => exact .reset
    | loadFunction => exact .bind .get fun m => .pushing (.onHeap (.closure hP _ _ _))
    | enterScope => exact .enterScope hP i.num
    | exitScope => exact .exitScope
    | pop => exact .bind .pop fun _ => .pure _
    | done => exact .fail _
  · exact .fail _

theorem fillPrelude_keeps (frame : Address) : (fillPrelude frame).Keeps P := by
  unfold fillPrelude
  induction List.range Builtin.all.length with
  | nil => exact .pure _
  | cons i rest ih => exact .bind (.bind (.builtin hP _) fun _ => .setChild hP _ _ _) fun _ => ih

theorem loadPrelude_keeps : loadPrelude.Keeps P := by
  refine .bind (.onHeap (.environment hP 0)) fun empty => .bind (.modify fun _ => ⟨rfl, rfl⟩) fun _ => ?_
  refine .bind (.onHeap (.frame hP _)) fun frame => .bind (.onHeap (.pinning hP _ ?_)) fun env => .modify fun _ => ⟨rfl, rfl⟩
  exact .bind (fillPrelude_keeps hP frame) fun _ => .extend hP _ _

end Execution

end MachineM

/-! ## Runs -/

namespace Machine

variable {P : Heap → Prop} {Admits : Content → Prop} (hP : Heap.Kept P Admits) {limits : Limits} {start m m' : Machine}
include hP

theorem create_keeps {digest : Text → UInt64} {program : Program} {words : Int}
    (h : create digest program words = .ok m) (hnew : ∀ heap, Heap.create digest words = .ok heap → P heap) :
    P m.heap ∧ m.code = program.toArray := by
  unfold create at h
  split at h
  · cases h
  next heap hheap =>
    have hprelude := MachineM.loadPrelude_keeps hP { code := program.toArray, heap := heap } (hnew heap hheap)
    split at h
    next m' hrun =>
      obtain rfl := Except.ok.inj h
      rwa [hrun] at hprelude
    · cases h

theorem advance_keeps (hcode : ∀ i ∈ m.code, Admits (.number (.ofInt i.val.int))) (hm : P m.heap)
    (h : advance limits m = .running m') : P m'.heap ∧ m'.code = m.code := by
  unfold advance at h
  split at h
  · cases h
  next i hfetch =>
    have hi : i ∈ m.code := by
      unfold fetch? at hfetch
      split at hfetch
      · exact Array.mem_of_getElem? hfetch
      · cases hfetch
    have hrun := MachineM.execute_keeps hP (hcode i hi) { m with pc := m.pc + 1, steps := m.steps + 1 } hm
    simp only at h
    split at h
    · cases h
    split at h
    · cases h
    split at h
    · cases h
    unfold executed at h
    split at h
    next hexecute =>
      cases h
      rwa [hexecute] at hrun
    · cases h
    · cases h

end Machine

end Tenure
