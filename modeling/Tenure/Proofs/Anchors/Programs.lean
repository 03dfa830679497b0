import Tenure.Proofs.Anchors.Images

/-!
# Compiled programs hold no dangling addresses

A function that was compiled leaves the operands of its caller alone, so its return never goes back to a height above the
current one, `Tree.reachesWithin`. A compiled program whose instructions all pass the check of images is anchored wherever
its run comes to: `Tree.reaches_anchored`.
-/

set_option autoImplicit false

namespace Tenure

open Machine

namespace Matches

variable {φ : Address → Address} {s : Endless} {m : Machine} {eff : Effect}

/-- The endless machine returns to a height only if it is not above the current one. -/
theorem heightKept (hm : Matches φ s m) (h : s.reset = some eff) : m.HeightKept := by
  intro a rest n back height hframes hn hc
  rw [hm.registers.frames] at hframes
  cases hs : s.frames with
  | nil => simp [hs] at hframes
  | cons top below =>
    rw [hs, List.map_cons, List.cons.injEq] at hframes
    obtain ⟨rfl, -⟩ := hframes
    simp only [Endless.reset, hs, Option.bind_eq_bind, Option.bind_eq_some_iff] at h
    obtain ⟨o, ho, h⟩ := h
    have hreach : Reach s.objs s.roots top := .root (by simp [Endless.roots, hs])
    obtain ⟨n', hn', hmirrors⟩ := hm.mirrors.get hreach ho
    obtain rfl := Option.some.inj (hn.symm.trans hn')
    rw [hmirrors.content] at hc
    obtain ⟨content, links⟩ := o
    simp only at hc
    subst hc
    split at h
    next heq => cases heq
    next heq =>
      cases heq
      simp only [Option.bind_eq_some_iff] at h
      obtain ⟨result, -, h⟩ := h
      split at h
      next hheight =>
        have hlength := hm.registers.operands.length
        rw [List.length_map] at hlength
        omega
      · cases h
    · cases h

end Matches

/-- No return of a compiled program brings back operands that were given up. -/
theorem Tree.reachesWithin {t : Tree} {code : Emissions} (h : t.emissions = .ok code) (hsize : code.length < 2 ^ 63)
    {digest : Text → UInt64} {words : Int} {start m : Machine} {limits : Limits}
    (hstart : Machine.create digest code.program words = .ok start) (hm : Reaches limits start m) :
    ReachesWithin limits start m := by
  induction hm with
  | refl => exact .refl
  | @next m m' hm hadvance ih =>
    refine ih.next (fun i hfetch hreset => ?_) hadvance
    obtain ⟨φ, s, htracks⟩ := hm.tracks h hsize hstart
    obtain ⟨v, hv⟩ := Tree.emissions_course h hsize htracks.steps limits start.heap.nodes.size
    have hcourse := (htracks.advance hv).resolve_left fun ⟨_, _, hcrash⟩ => by cases hadvance.symm.trans hcrash
    cases hv with
    | goes he _ _ heff _ =>
      cases hfetch.symm.trans (htracks.fetch? he)
      rw [Endless.step, hreset] at heff
      exact htracks.state.heightKept heff
    | limited | fails | exhausted | done =>
      obtain ⟨m'', hrun, -⟩ := hcourse
      cases hadvance.symm.trans hrun

/-- Wherever the run of a compiled program comes to, its registers lead to allocated nodes. -/
theorem Tree.reaches_anchored {t : Tree} {program : Program} (h : t.compile = .ok program)
    (hsize : program.length < 2 ^ 63) (hchecked : ∀ i ∈ program, i.Checked) {digest : Text → UInt64} {words : Int}
    {start m : Machine} {limits : Limits} (hstart : Machine.create digest program words = .ok start)
    (hm : Reaches limits start m) : m.Anchored := by
  obtain ⟨code, hcode, rfl⟩ := Tree.compile_eq_ok h
  replace hsize : code.length < 2 ^ 63 := by simpa [Emissions.program] using hsize
  exact (Tree.reachesWithin hcode hsize hstart hm).anchored (create_wellFormed hstart hchecked) (create_anchored hstart)

end Tenure
