import Tenure.Proofs.Heap.Interning
import Tenure.Proofs.Mirror.Course

/-!
# Strings in the machine

The machine compares strings by address. Since the heap of a machine keeps its strings interned through all that its
instructions do, that is equality of the texts: `Heap.strings_interned`.
-/

set_option autoImplicit false

namespace Tenure

open MachineM

namespace Machine

variable {limits : Limits} {start m : Machine} {i : Instr} {x y : Address} {t u : Text}

/-- The strings of a machine are interned wherever its run comes to, whatever the hash and the program are. -/
theorem Reaches.interned {digest : Text → UInt64} {program : Program} {words : Int}
    (hstart : create digest program words = .ok start) (hm : Reaches limits start m) : m.heap.Interned := by
  induction hm with
  | refl => exact (create_keeps Heap.interned_kept hstart fun heap hnew => Heap.create_interned hnew).1
  | next _ hadvance ih => exact (advance_keeps Heap.interned_kept (by simp) ih hadvance).1

/-- Two strings are the same value exactly if their texts are the same. -/
theorem equal_texts (hc : m.heap.Canonical) (hx : Heap.IsString m.heap.nodes x t) (hy : Heap.IsString m.heap.nodes y u) :
    equal x y m = (.ok (decide (t = u)), m) := by
  by_cases hxy : x = y
  · subst hxy
    have htu : t = u := hx.text_eq hy
    simp [equal, htu]
  · have htu : t ≠ u := hc.distinct x y t u hx hy hxy
    obtain ⟨n, hn, hcx⟩ := hx
    obtain ⟨n', hn', hcy⟩ := hy
    simp only [equal, if_neg hxy, bind_ok (nodeAt_apply hn), bind_ok (nodeAt_apply hn'), hcx, pure_apply,
      decide_eq_false htu]

theorem pop_apply (htop : m.operands.top? = some x) :
    pop m = (.ok x, { m with operands := m.operands.dropTop }) := by
  have hpeek : peek m = (.ok x, m) := by simp [peek, htop]
  rw [pop, bind_ok hpeek]
  rfl

/-- The operator `==` on two strings pushes whether their texts are the same. -/
theorem advance_equal (hc : m.heap.Canonical) (hfetch : m.fetch? = some i) (hlimit : limit? limits m.steps m.pc = none)
    (hop : i.op.operation? = some .binary) (hsym : i.sym = "==") (hy : m.operands.top? = some y)
    (hx : m.operands.dropTop.top? = some x) (ht : Heap.IsString m.heap.nodes x t) (hu : Heap.IsString m.heap.nodes y u) :
    advance limits m = .running
      { m.fetched with operands := m.operands.dropTop.dropTop.push (Heap.ofBool (decide (t = u))) } := by
  have hpops : ∀ f : Address → Address → MachineM Unit, (do let y ← pop; let x ← pop; f x y : MachineM Unit) m.fetched =
      f x y { m.fetched with operands := m.operands.dropTop.dropTop } := by
    intro f
    have hfirst : pop m.fetched = (.ok y, { m.fetched with operands := m.operands.dropTop }) := pop_apply hy
    have hsecond : pop { m.fetched with operands := m.operands.dropTop } =
        (.ok x, { m.fetched with operands := m.operands.dropTop.dropTop }) := pop_apply hx
    rw [bind_ok hfirst, bind_ok hsecond]
  have hequal : equal x y { m.fetched with operands := m.operands.dropTop.dropTop } =
      (.ok (decide (t = u)), { m.fetched with operands := m.operands.dropTop.dropTop }) := equal_texts hc ht hu
  have hbinary : binary "==" x y { m.fetched with operands := m.operands.dropTop.dropTop } =
      (.ok (Heap.ofBool (decide (t = u))), { m.fetched with operands := m.operands.dropTop.dropTop }) := by
    simp only [binary, if_true]
    exact bind_ok hequal
  have hexecute : execute i m.fetched =
      (.ok (), { m.fetched with operands := m.operands.dropTop.dropTop.push (Heap.ofBool (decide (t = u))) }) := by
    simp only [execute, hop, executeOperation]
    rw [hpops, hsym]
    exact bind_ok hbinary
  rw [advance_free hfetch hlimit, if_neg (by rw [hop]; nofun), executed, hexecute]

end Machine

/-- String interning is canonical, whatever hash the pool uses. It is in every heap that a new one becomes by any
operations. And it is in the heap of a machine wherever the run of any program comes to, so there `==` on two strings is
equality of their texts. -/
theorem Heap.strings_interned :
    (∀ h : Heap, Occurs h → h.Canonical) ∧
    ∀ (digest : Text → UInt64) (program : Program) (words : Int) (limits : Limits) (start m : Machine),
      Machine.create digest program words = .ok start → Machine.Reaches limits start m →
        m.heap.Canonical ∧ ∀ x y t u, IsString m.heap.nodes x t → IsString m.heap.nodes y u →
          equal x y m = (.ok (decide (t = u)), m) ∧
          ∀ i, m.fetch? = some i → Machine.limit? limits m.steps m.pc = none → i.op.operation? = some .binary →
            i.sym = "==" → m.operands.top? = some y → m.operands.dropTop.top? = some x →
            Machine.advance limits m = .running
              { m.fetched with operands := m.operands.dropTop.dropTop.push (ofBool (decide (t = u))) } := by
  refine ⟨fun h ho => ho.interned.canonical, ?_⟩
  intro digest program words limits start m hstart hm
  have hc : m.heap.Canonical := (hm.interned hstart).canonical
  refine ⟨hc, fun x y t u ht hu => ⟨Machine.equal_texts hc ht hu, ?_⟩⟩
  intro i hfetch hlimit hop hsym hy hx
  exact Machine.advance_equal hc hfetch hlimit hop hsym hy hx ht hu

/-- A literal that is a string pushes the node of its text. -/
theorem Machine.Reaches.text {limits : Limits} {start m : Machine} {t : Text} {x : Address} {h : Heap}
    (hm : Reaches limits start m) (hfetch : m.fetch? = some (.loadConstant (.ofText t)))
    (hlimit : limit? limits m.steps m.pc = none)
    (hstring : HeapM.string t (rootsOf m.fetched) m.heap = (.ok x, h)) :
    ∃ m', Reaches limits start m' ∧ m'.heap = h ∧ m'.operands = m.operands.push x ∧ m'.code = m.code ∧
      m'.pc = m.pc + 1 := by
  have hliteral : onHeap (HeapM.ofLiteral (.ofText t)) m.fetched = (.ok x, { m.fetched with heap := h }) :=
    onHeap_ok hstring
  have hexecute : execute (.loadConstant (.ofText t)) m.fetched =
      (.ok (), { m.fetched with heap := h, operands := m.operands.push x }) := bind_ok hliteral
  have hop : (Instr.loadConstant (.ofText t)).op.operation? ≠ some .done := by
    change Opcode.operation? (.of .loadConstant) ≠ some .done
    decide
  have hadvance : advance limits m = .running { m.fetched with heap := h, operands := m.operands.push x } := by
    rw [advance_free hfetch hlimit, if_neg hop, executed, hexecute]
  exact ⟨_, hm.next hadvance, rfl, rfl, rfl, rfl⟩

/-- A program that compares a string with the same string. -/
def reflexive : Program := [.loadConstant (.ofText "a"), .loadConstant (.ofText "a"), .binary "=="]

/-- A heap with a string, and a machine that has made that string twice and finds it equal to itself. -/
theorem Heap.strings_interned_reflexive :
    (∃ h a, Occurs h ∧ IsString h.nodes a "a" ∧ h.Canonical) ∧
      ∃ start m x, Machine.create defaultDigest reflexive 1000 = .ok start ∧ Machine.Reaches {} start m ∧
        IsString m.heap.nodes x "a" ∧ m.heap.Canonical ∧ equal x x m = (.ok true, m) ∧
        Machine.advance {} m =
          .running { m.fetched with operands := m.operands.dropTop.dropTop.push truth } := by
  obtain ⟨hheaps, hmachines⟩ := strings_interned
  constructor
  · have hcreate : create defaultDigest 60 = .ok (new defaultDigest 6) := rfl
    have hnew : Occurs (new defaultDigest 6) := .create hcreate
    have hmade := hnew.perform (Thunk.pure []) (.string "a")
    obtain ⟨a, h, hrun, -, hstring⟩ := hnew.interned.string_of_free (a := 5) rfl (by decide) "a" (Thunk.pure [])
    have hperform : (Action.string "a").perform (Thunk.pure []) (new defaultDigest 6) = (.ok (), h) :=
      HeapM.bind_ok hrun
    rw [hperform] at hmade
    exact ⟨h, a, hmade, hstring, hheaps h hmade⟩
  · have hcomes : Machine.comesTo reflexive 1000 0 (fun m => m.code = reflexive.toArray && m.pc = 0 &&
        m.operands.height = 0 && m.operands.cells = #[] && m.heap.free = some 12 && 12 < m.heap.nodes.size) = true := by
      decide +kernel
    obtain ⟨start, m, hstart, hreach, hready⟩ := Machine.of_comesTo hcomes
    simp only [Bool.and_eq_true, decide_eq_true_eq] at hready
    obtain ⟨⟨⟨⟨⟨hcode, hpc⟩, hheight⟩, hcells⟩, hfree⟩, hroom⟩ := hready
    -- the node of the text is made by the first instruction and found by the second
    obtain ⟨x, h, hmade, -, hx⟩ := (hreach.interned hstart).string_of_free hfree hroom "a" (rootsOf m.fetched)
    obtain ⟨m₁, hreach₁, rfl, hoperands₁, hcode₁, hpc₁⟩ :=
      hreach.text (by simp [Machine.fetch?, hpc, hcode, reflexive]) rfl hmade
    have hfound := (hmachines _ _ _ _ _ _ hstart hreach₁).1.existing (rootsOf m₁.fetched) x "a" hx
    obtain ⟨m₂, hreach₂, hheap₂, hoperands₂, hcode₂, hpc₂⟩ :=
      hreach₁.text (by simp [Machine.fetch?, hpc₁, hpc, hcode₁, hcode, reflexive]) rfl hfound
    have hx₂ : IsString m₂.heap.nodes x "a" := hheap₂ ▸ hx
    have hfetch₂ : m₂.fetch? = some (.binary "==") := by
      simp [Machine.fetch?, hpc₂, hpc₁, hpc, hcode₂, hcode₁, hcode, reflexive]
    have hstack : m₂.operands = ⟨#[x, x], 2⟩ := by
      rw [hoperands₂, hoperands₁]
      simp [Operands.push, hheight, hcells]
    obtain ⟨hc, hequal⟩ := hmachines _ _ _ _ _ _ hstart hreach₂
    obtain ⟨hsame, hadvance⟩ := hequal x x "a" "a" hx₂ hx₂
    exact ⟨start, m₂, x, hstart, hreach₂, hx₂, hc, hsame,
      hadvance _ hfetch₂ rfl rfl rfl (by rw [hstack]; rfl) (by rw [hstack]; rfl)⟩

end Tenure
