import Tenure.Proofs.Endless.Host
import Tenure.Proofs.Endless.Run
import Tenure.Proofs.Mirror.Calls

/-!
# Runs

The machine follows the endless machine instruction by instruction: `Matches.execute_follows`. As long as the demands of
the instructions fit into its heap it stays in step, whatever its size, and it ends as the endless machine ends.
-/

set_option autoImplicit false

namespace Tenure

open MachineM

/-- A reachable object looks from outside like its node. -/
theorem Mirrors.host {φ : Address → Address} {s : Endless} {held : List Address} {h : Heap}
    (hm : Mirrors φ s.objs held h) {depth : Nat} {a : Address} {v : Host} (ha : Reach s.objs held a)
    (hv : s.hostOf? depth a = some v) : Host.ofLink? h depth (some (φ a)) = some v := by
  induction depth generalizing a v with
  | zero => simpa [Endless.hostOf?, Host.ofLink?] using hv
  | succ depth ih =>
    obtain ⟨o, ho, hv⟩ := Option.bind_eq_some_iff.mp hv
    obtain ⟨n, hn, hmirrors⟩ := hm.get ha ho
    simp only [Host.ofLink?, Heap.node?, hn, hmirrors.content, Option.bind_eq_bind, Option.bind_some]
    cases hc : o.content with
    | reference pos mutable =>
      simp only [hc, Endless.cell?, Endless.frameAt?, Option.bind_eq_bind, Option.bind_eq_some_iff] at hv
      obtain ⟨link, hlink, target, ⟨f, ⟨env, henv, hf⟩, frame, hframe, hslot⟩, w, hw, hv⟩ := hv
      cases hv
      have hreach : Reach s.objs held link := ha.link ho (List.mem_of_getElem? hlink)
      have hreachf : Reach s.objs held f := hreach.link henv (Obj.of_link? hf).2
      have hreacht : Reach s.objs held target := hreachf.link hframe (Obj.of_link? hslot).2
      obtain ⟨n₁, hn₁, hmirrors₁⟩ := hm.get hreach henv
      obtain ⟨n₂, hn₂, hmirrors₂⟩ := hm.get hreachf hframe
      simp only [hmirrors.firstChild hlink, Option.bind_some, hn₁, hmirrors₁.child? hf, hn₂, hmirrors₂.child? hslot,
        ih hreacht hw]
    | pair => simp [hc, Content.host?] at hv
    | _ =>
      simp only [hc, Content.host?] at hv
      exact hv

namespace Matches

variable {φ : Address → Address} {s : Endless} {m : Machine} {e : Effect}

/-- The machine does with an instruction what the endless machine does with it. -/
theorem execute_follows (hm : Matches φ s.next m) (ht : Texts s.objs) {i : Instr} (he : s.step i = some e) :
    Follows s.objs φ (execute i) m e := by
  obtain ⟨o, ho, he⟩ := Option.bind_eq_some_iff.mp he
  unfold execute
  simp only [ho]
  cases o <;> simp only [Endless.stepOperation] at he
  case loadConstant => exact hm.literal_follows ht he
  case load => exact .bind (k := m) rfl (.refl m) rfl (hm.load_follows he)
  case assign =>
    simp only [Option.bind_eq_bind, Option.bind_eq_some_iff, Option.some.injEq] at he
    obtain ⟨v, hv, s', hs, rfl⟩ := he
    exact hm.assign_follows hv hs
  case drop =>
    obtain ⟨s', hs, he⟩ := Option.bind_eq_some_iff.mp he
    cases he
    exact hm.drop_follows hs
  case reference =>
    obtain ⟨v, hv, he⟩ := Option.bind_eq_some_iff.mp he
    cases he
    exact hm.reference_follows hv i.mutable
  case dereference => exact hm.dereference_follows he
  case updateReference => exact hm.updateReference_follows he
  case jumpUnless =>
    split at he
    next hpos =>
      have htarget : i.addr = (i.addr.toNat : Int) := by omega
      unfold executeOperation
      rw [htarget]
      exact hm.jumpUnless_follows he
    · cases he
  case jump =>
    split at he
    next hpos =>
      cases he
      refine .ok (φ := φ) rfl ⟨hm.mirrors, ⟨hm.registers.operands, hm.registers.env, hm.registers.frames⟩, hm.pins, ?_⟩
        ⟨rfl, rfl, rfl⟩
      simp only
      omega
    · cases he
  case unary =>
    split at he
    · cases he
    next x rest hops =>
      obtain ⟨v, hv, he⟩ := Option.bind_eq_some_iff.mp he
      cases he
      exact hm.unary_follows hops hv i.sym
  case binary =>
    split at he
    next y x rest hops =>
      simp only [Option.bind_eq_bind, Option.bind_eq_some_iff, Option.some.injEq] at he
      obtain ⟨u, hu, v, hv, rfl⟩ := he
      exact hm.binary_follows hops hu hv i.sym
    · cases he
  case call => exact hm.call_follows he
  case reset => exact hm.reset_follows he
  case loadFunction =>
    cases he
    exact hm.closure_follows i.arity i.addr
  case enterScope => exact hm.enterScope_follows he
  case exitScope => exact hm.exitScope_follows he
  case pop =>
    split at he
    · cases he
    next a rest hops =>
      cases he
      obtain ⟨hpop, hm', -⟩ := hm.pop (s := s.next) hops
      exact .bind hpop ⟨rfl, rfl, rfl⟩ rfl (.ok (φ := φ) rfl hm' (.refl _))
  case done => cases he

end Matches

end Tenure
