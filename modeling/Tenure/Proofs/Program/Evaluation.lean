import Tenure.Proofs.Program.Assignment

/-!
# Runs and evaluation

A run of compiled code gives the value that the evaluation of the program gives. The evaluation empties no cell, but the code
drops the variables of a block when it leaves the block. So the two agree as long as the evaluation reads only variables of
blocks and calls that have not been left, `Tree.staysOpen`, and then a run that does not end with the value has run out of
memory: `Tree.run_agrees`.
-/

set_option autoImplicit false

namespace Tenure

open Endless Machine

section Along

variable {code : Emissions} {start m : Machine} {φ : Address → Address} {s s' : Endless} {n : Nat}

/-- A machine ends as the course of its last instruction says. -/
theorem Tracks.run_ends (hfew : start.heap.nodes.size ≤ Heap.addressable) (hm : Tracks code start φ s m) {o : Outcome}
    (h : Course {} code start.heap.nodes.size m.steps s (.ends o)) : (run {} 1 m).1 = o := by
  obtain ⟨m', hadvance, -⟩ := (hm.advance h).resolve_left (hm.not_strays hfew)
  simp only [run, hadvance]

/-- A machine goes along with a run of the endless machine, unless it runs out of memory. -/
theorem Tracks.along (hfew : start.heap.nodes.size ≤ Heap.addressable) (hm : Tracks code start φ s m)
    (hs : Steps code n s s') :
    (∃ fuel, (run {} fuel m).1.Exhausted) ∨
    ∃ φ' m', Tracks code start φ' s' m' ∧ ∀ fuel, run {} (fuel + n) m = run {} fuel m' := by
  induction hs generalizing m φ with
  | refl s => exact .inr ⟨φ, m, hm, fun _ => rfl⟩
  | @step n k s t s' e he hfits hstep hrest ih =>
    by_cases hk : k ≤ start.heap.nodes.size
    · have hgoes : Course {} code start.heap.nodes.size m.steps s (.goes t) := .goes he rfl hfits hstep hk
      obtain ⟨φ₁, m₁, hadvance, -, hm₁⟩ := (hm.advance hgoes).resolve_left (hm.not_strays hfew)
      have hrun : ∀ fuel, run {} (fuel + 1) m = run {} fuel m₁ := fun fuel => by simp only [run, hadvance]
      rcases ih hm₁ with ⟨fuel, hex⟩ | ⟨φ', m', hm', hrest⟩
      · exact .inl ⟨fuel + 1, by rwa [hrun]⟩
      · exact .inr ⟨φ', m', hm', fun fuel => by rw [← Nat.add_assoc, hrun, hrest]⟩
    · exact .inl ⟨1, _, _, hm.run_ends hfew (.exhausted he rfl hstep (Nat.lt_of_not_le hk))⟩

/-- A machine that ends with a value has come to the end of the program. -/
theorem Tracks.run_value {t : Tree} (h : t.emissions = .ok code) (hsize : code.length < 2 ^ 63) {limits : Limits}
    {fuel : Nat} (hm : Tracks code start φ s m) {w : Host} (hrun : (run limits fuel m).1 = .value w) :
    ∃ n s' a, Steps code n Endless.initial s' ∧ DoneWith code s' a ∧ s'.hostOf? (Host.maxDepth + 1) a = some w := by
  induction fuel generalizing s m φ with
  | zero => cases hrun
  | succ fuel ih =>
    obtain ⟨v, hv⟩ := Tree.emissions_course h hsize hm.steps limits start.heap.nodes.size
    have hcourse := hm.advance hv
    cases v with
    | goes s' =>
      obtain ⟨-, m', hadvance⟩ | ⟨φ', m', hadvance, -, hm'⟩ := hcourse
      · simp only [run, hadvance] at hrun
        cases hrun
      · simp only [run, hadvance] at hrun
        exact ih hm' hrun
    | ends o =>
      obtain ⟨-, m', hadvance⟩ | ⟨m', hadvance, -⟩ := hcourse
      · simp only [run, hadvance] at hrun
        cases hrun
      simp only [run, hadvance] at hrun
      subst hrun
      cases hv with
      | done hdone hlimit hw => exact ⟨m.steps, s, _, hm.steps, hdone, hw⟩

end Along

/-- A run that has ended goes no further, however much longer it is looked at. -/
theorem Machine.run_ended {limits : Limits} {fuel : Nat} {m : Machine} (h : (run limits fuel m).1 ≠ .unfinished)
    (more : Nat) : run limits (fuel + more) m = run limits fuel m := by
  induction fuel generalizing m with
  | zero => exact absurd rfl h
  | succ fuel ih =>
    rw [Nat.add_right_comm]
    simp only [run] at h ⊢
    split
    next m' hm =>
      simp only [hm] at h
      exact ih h
    · rfl

/-- A run has one end. -/
theorem Machine.run_unique {limits : Limits} {fuel fuel' : Nat} {m : Machine} (h : (run limits fuel m).1 ≠ .unfinished)
    (h' : (run limits fuel' m).1 ≠ .unfinished) : run limits fuel m = run limits fuel' m := by
  rw [← run_ended h fuel', Nat.add_comm, run_ended h' fuel]

/-- A run of compiled code agrees with the evaluation of its program, without limits. If the run gives a value that is not a
reference, so does the evaluation, in a heap of any size in which the machine can be set up. If the evaluation gives such a
value and reads only variables of blocks and calls that have not been left, the run ends with the value or exhausts the heap,
provided that every node has an address. -/
theorem Tree.run_agrees {t : Tree} {program : Program} (h : t.compile = .ok program) (hsize : program.length < 2 ^ 63)
    {digest : Text → UInt64} {words : Int} {start : Machine} (hstart : create digest program words = .ok start) :
    (∀ fuel w, (run {} fuel start).1 = .value w → w.plain?.isSome →
      ∃ fuel' v, t.evaluate? fuel' = some v ∧ v.host? = some w) ∧
    (Heap.nodesFor words ≤ Heap.addressable →
      ∀ fuel v w, t.evaluate? fuel = some v → v.host? = some w → t.staysOpen fuel = true →
        ∃ fuel', (run {} fuel' start).1 = .value w ∨ (run {} fuel' start).1.Exhausted) := by
  obtain ⟨code, hcode, rfl⟩ := Tree.compile_eq_ok h
  replace hsize : code.length < 2 ^ 63 := by simpa [Emissions.program] using hsize
  obtain ⟨φ, hm⟩ := Tracks.create hstart
  have hplain : ∀ {u w : Host}, u.plain? = some w → u = w := by
    intro u w hu
    cases u with
    | ref => cases hu
    | _ => exact Option.some.inj hu
  refine ⟨fun fuel w hrun hw => ?_, fun hfew fuel v w hev hv hopen => ?_⟩
  · obtain ⟨n, s, a, hs, hdone, hhost⟩ := hm.run_value hcode hsize hrun
    obtain ⟨x, fuel', v, σ, hx, hev, hall⟩ := Tree.emissions_done hcode hsize hs hdone
    obtain ⟨w', hw', hv⟩ := hall (Host.maxDepth + 1)
    obtain rfl : w' = w := Option.some.inj (hw'.symm.trans hhost)
    obtain ⟨u, hu⟩ := Option.isSome_iff_exists.mp hw
    refine ⟨fuel', v.head, by simp [Tree.evaluate?, hx, hev], ?_⟩
    rw [hv (Nat.succ_pos _), hu, hplain hu]
  · obtain ⟨-, -, -, hnodes, -⟩ := create_matches hstart
    replace hfew : start.heap.nodes.size ≤ Heap.addressable := hnodes ▸ hfew
    obtain ⟨x, hx, hsim⟩ := Tree.emissions_guarded hcode hsize
    rcases hsim .all fuel with ⟨-, _, _, _, _, -, -, -, hfree⟩ | hsim
    · -- every access is guarded
      rcases hfree with ⟨-, hloads⟩ | ⟨-, hreferences⟩
      · cases hloads
      · cases hreferences
    rw [Tree.staysOpen_guarded hopen hx] at hsim
    simp only [Tree.evaluate?, hx, Option.bind_eq_bind, Option.bind_some] at hev
    split at hev
    next vs σ heval =>
      cases hev
      rw [heval] at hsim
      obtain ⟨n, W, s, a, hs, hdone, hA, hshows⟩ := hsim
      obtain ⟨w', hw', hhost⟩ := hshows.hostOf? hA (Host.maxDepth + 1)
      obtain rfl : w' = w := hplain ((hhost (Nat.succ_pos _)).symm.trans hv)
      rcases hm.along hfew hs with ⟨fuel', hex⟩ | ⟨φ', m', hm', hrun⟩
      · exact ⟨fuel', .inr hex⟩
      · refine ⟨1 + n, .inl ?_⟩
        rw [hrun]
        exact hm'.run_ends hfew (.done hdone rfl hw')
    · cases hev

/-- The choosing program evaluates to `y` in open blocks, and in a heap of a hundred nodes that is what its run gives. -/
theorem Tree.run_agrees_chooser : ∃ program start, chooser.compile = .ok program ∧
    create Heap.defaultDigest program 1000 = .ok start ∧ chooser.evaluate? 2 = some (.char 121) ∧
    chooser.staysOpen 2 = true ∧ (∃ fuel v, chooser.evaluate? fuel = some v ∧ v.host? = some (.str "y")) ∧
    ∃ fuel, (run {} fuel start).1 = .value (.str "y") ∧ ¬ (run {} fuel start).1.Exhausted := by
  obtain ⟨program, start, hprogram, hlength, hstart, hrun⟩ := chooser_shows
  have hvalue : chooser.evaluate? 2 = some (.char 121) := by rfl
  have hopen : chooser.staysOpen 2 = true := by rfl
  obtain ⟨hfound, hreached⟩ := Tree.run_agrees hprogram (by omega) hstart
  obtain ⟨fuel, hfuel⟩ := hreached (by decide) 2 _ (.str "y") hvalue rfl hopen
  refine ⟨program, start, hprogram, hstart, hvalue, hopen, hfound 100 _ hrun rfl, fuel, ?_⟩
  rcases hfuel with hy | ⟨pc, i, hexhausted⟩
  · refine ⟨hy, ?_⟩
    rintro ⟨pc, i, hexhausted⟩
    cases hy.symm.trans hexhausted
  · -- the run has ended with `y` already
    have hone : run {} 100 start = run {} fuel start := run_unique (by simp [hrun]) (by simp [hexhausted])
    cases (hone ▸ hrun).symm.trans hexhausted

/-- The program that assigns a reference further out evaluates to `true`, but its run in a heap of a hundred nodes
neither gives that value nor exhausts the heap, however long it is looked at. -/
theorem Tree.lendingOutward_disagrees : ∃ program start, lendingOutward.compile = .ok program ∧
    create Heap.defaultDigest program 1000 = .ok start ∧ lendingOutward.evaluate? 2 = some (.bool true) ∧
    (Value.bool true).host? = some (.bool true) ∧
    ∀ fuel, (run {} fuel start).1 ≠ .value (.bool true) ∧ ¬ (run {} fuel start).1.Exhausted := by
  obtain ⟨program, hprogram, hends⟩ := lendingOutward_ends
  obtain ⟨start, hstart, hunassigned⟩ := of_endsWith hends
  refine ⟨program, start, hprogram, hstart, rfl, rfl, fun fuel => ?_⟩
  obtain ⟨pc, i, pos, hfailed, -⟩ := Outcome.unassignedAt_iff.mp hunassigned
  have hone : ∀ {o : Outcome}, (run {} fuel start).1 = o → o ≠ .unfinished → o = .failed (.step pc i (.unassigned pos)) := by
    intro o ho hend
    have hrun : run {} fuel start = run {} 100 start := run_unique (by rwa [ho]) (by simp [hfailed])
    rw [← ho, hrun, hfailed]
  refine ⟨fun hvalue => ?_, ?_⟩
  · cases hone hvalue (by simp)
  · rintro ⟨pc', i', hexhausted⟩
    cases hone hexhausted (by simp)

end Tenure
