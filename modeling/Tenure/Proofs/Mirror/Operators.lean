import Mathlib.Data.List.Forall2
import Tenure.Proofs.Machine.Steps
import Tenure.Proofs.Semantics.Operators

/-!
# Operators

The operators and builtins of the machine compute what `Operand.unary`, `Operand.binary` and `Operand.builtin` say about
the contents of their operands.
-/

set_option autoImplicit false

namespace Tenure

open MachineM

/-- An operation computes a truth value or a new number, or fails, and touches nothing else. -/
def Computes (x : MachineM Address) (m : Machine) : Except StepError (Bool ⊕ Number) → Prop
  | .ok (.inl b) => x m = (.ok (Heap.ofBool b), m)
  | .ok (.inr n) => x m = newNumber n m
  | .error e => x m = (.error (.failed e), m)

theorem Computes.of_eq {x y : MachineM Address} {m : Machine} {r : Except StepError (Bool ⊕ Number)} (hxy : x m = y m)
    (h : Computes y m r) : Computes x m r := by
  rcases r with e | b | n <;> exact hxy.trans h

section Operators

variable {m : Machine} {a b : Address} {na nb : Node}

theorem truthOf?_eq (n : Node) :
    truthOf? n = match Operand.ofContent n.content with
      | .truth b => some b
      | _ => none := by
  unfold truthOf?
  cases n.content <;> rfl

theorem equal_run (ha : m.heap.nodes[a]? = some na) (hb : m.heap.nodes[b]? = some nb) :
    equal a b m =
      (.ok (decide (a = b) || (Operand.ofContent na.content).equal (Operand.ofContent nb.content)), m) := by
  unfold equal
  by_cases hab : a = b
  · simp [hab]
  · rw [if_neg hab, bind_ok (nodeAt_apply ha), bind_ok (nodeAt_apply hb)]
    simp only [hab, decide_false, Bool.false_or]
    cases na.content <;> cases nb.content <;> rfl

theorem onTruths_computes (ha : m.heap.nodes[a]? = some na) (hb : m.heap.nodes[b]? = some nb) (symbol : Text)
    (f : Bool → Bool → Bool) :
    Computes (onTruths symbol a b f) m
      (Operand.onTruths symbol f (.ofContent na.content) (.ofContent nb.content)) := by
  refine .of_eq (bind_ok (nodeAt_apply ha)) (.of_eq (bind_ok (nodeAt_apply hb)) ?_)
  have hka : na.kind = (Operand.ofContent na.content).kind := (Operand.kind_ofContent _).symm
  have hkb : nb.kind = (Operand.ofContent nb.content).kind := (Operand.kind_ofContent _).symm
  rw [truthOf?_eq, truthOf?_eq, hka, hkb]
  generalize Operand.ofContent na.content = x
  generalize Operand.ofContent nb.content = y
  cases x <;> cases y <;> rfl

theorem onValues_computes (ha : m.heap.nodes[a]? = some na) (hb : m.heap.nodes[b]? = some nb) (symbol : Text) :
    Computes (onValues symbol a b) m (Operand.onValues symbol (.ofContent na.content) (.ofContent nb.content)) := by
  refine .of_eq (bind_ok (nodeAt_apply ha)) (.of_eq (bind_ok (nodeAt_apply hb)) ?_)
  simp only [Node.kind]
  generalize na.content = x
  generalize nb.content = y
  cases x with
  | char x =>
    cases y with
    | char y =>
      simp only [Operand.ofContent, Operand.onValues]
      cases ordering? symbol (x < y) (x ≤ y) (y < x) (y ≤ x) <;> rfl
    | _ => rfl
  | number x =>
    cases y with
    | number y =>
      simp only [Operand.ofContent, Operand.onValues]
      cases ordering? symbol (x.less y) (x.atMost y) (y.less x) (y.atMost x) with
      | some r => rfl
      | none => cases x.operate symbol y <;> rfl
    | _ => rfl
  | _ => cases y <;> rfl

theorem unary_computes (ha : m.heap.nodes[a]? = some na) (symbol : Text) :
    Computes (unary symbol a) m (Operand.unary symbol (.ofContent na.content)) := by
  unfold unary Operand.unary
  by_cases hneg : symbol = "-"
  · rw [if_pos hneg, if_pos hneg]
    refine .of_eq (bind_ok (nodeAt_apply ha)) ?_
    simp only [Node.kind]
    cases na.content <;> rfl
  rw [if_neg hneg, if_neg hneg]
  by_cases hnot : symbol = "!"
  · rw [if_pos hnot, if_pos hnot]
    refine .of_eq (bind_ok (nodeAt_apply ha)) ?_
    simp only [Node.kind]
    cases na.content with
    | number n => cases n <;> rfl
    | _ => rfl
  · rw [if_neg hnot, if_neg hnot]
    rfl

theorem binary_computes (ha : m.heap.nodes[a]? = some na) (hb : m.heap.nodes[b]? = some nb) (symbol : Text) :
    Computes (binary symbol a b) m
      (Operand.binary symbol (decide (a = b)) (.ofContent na.content) (.ofContent nb.content)) := by
  unfold binary Operand.binary
  by_cases heq : symbol = "=="
  · rw [if_pos heq, if_pos heq]
    exact bind_ok (equal_run ha hb)
  rw [if_neg heq, if_neg heq]
  by_cases hne : symbol = "!="
  · rw [if_pos hne, if_pos hne]
    exact bind_ok (equal_run ha hb)
  rw [if_neg hne, if_neg hne]
  by_cases hand : symbol = "&&"
  · rw [if_pos hand, if_pos hand]
    exact onTruths_computes ha hb symbol _
  rw [if_neg hand, if_neg hand]
  by_cases hor : symbol = "||"
  · rw [if_pos hor, if_pos hor]
    exact onTruths_computes ha hb symbol _
  rw [if_neg hor, if_neg hor]
  by_cases hbits : symbol = "&" ∨ symbol = "|" ∨ symbol = "^"
  · rw [if_pos hbits, if_pos hbits]
    have hkind : kindAt a m = (.ok na.kind, m) := bind_ok (nodeAt_apply ha)
    refine .of_eq (bind_ok hkind) ?_
    have hk : (Operand.ofContent na.content).kind = na.kind := Operand.kind_ofContent _
    rw [hk]
    by_cases hnum : na.kind = .number
    · rw [if_pos hnum, if_pos hnum]
      exact onValues_computes ha hb symbol
    rw [if_neg hnum, if_neg hnum]
    by_cases hband : symbol = "&"
    · rw [if_pos hband, if_pos hband]
      exact onTruths_computes ha hb symbol _
    rw [if_neg hband, if_neg hband]
    by_cases hbor : symbol = "|"
    · rw [if_pos hbor, if_pos hbor]
      exact onTruths_computes ha hb symbol _
    · rw [if_neg hbor, if_neg hbor]
      exact onTruths_computes ha hb symbol _
  · rw [if_neg hbits, if_neg hbits]
    exact onValues_computes ha hb symbol

theorem numberArgument_run (ha : m.heap.nodes[a]? = some na) (f : Builtin) :
    f.numberArgument a m = match (Operand.ofContent na.content).toNumber f with
      | .ok v => (.ok v, m)
      | .error e => (.error (.failed e), m) := by
  refine (bind_ok (nodeAt_apply ha)).trans ?_
  simp only [Node.kind]
  cases na.content <;> rfl

/-- What operators see of a node. -/
def Sees (m : Machine) (a : Address) (x : Operand) : Prop :=
  ∃ n, m.heap.nodes[a]? = some n ∧ Operand.ofContent n.content = x

/-- An operation on arguments picks the first or the second of them, computes a new number, or fails, and touches nothing
else. -/
def Picks (x : MachineM Address) (arguments : List Address) (m : Machine) : Except StepError (Bool ⊕ Number) → Prop
  | .ok (.inl first) => ∃ a, arguments[if first then 0 else 1]? = some a ∧ x m = (.ok a, m)
  | .ok (.inr n) => x m = newNumber n m
  | .error e => x m = (.error (.failed e), m)

theorem number_picks {x : Operand} (hx : Sees m a x) (f : Builtin) (g : Number → Number) (arguments : List Address) :
    Picks (do newNumber (g (← f.numberArgument a))) arguments m ((x.toNumber f).map fun n => .inr (g n)) := by
  obtain ⟨n, hn, rfl⟩ := hx
  have hrun := numberArgument_run hn f
  cases hv : (Operand.ofContent n.content).toNumber f with
  | ok v =>
    rw [hv] at hrun
    exact bind_ok hrun
  | error e =>
    rw [hv] at hrun
    exact bind_error hrun

theorem pick_picks {x y : Operand} (hx : Sees m a x) (hy : Sees m b y) (f : Builtin)
    (keepFirst : Number → Number → Bool) :
    Picks (f.pick a b keepFirst) [a, b] m (Operand.pick f keepFirst x y) := by
  obtain ⟨n, hn, rfl⟩ := hx
  obtain ⟨n', hn', rfl⟩ := hy
  have hfirst := numberArgument_run hn f
  have hsecond := numberArgument_run hn' f
  cases hu : (Operand.ofContent n.content).toNumber f with
  | error e =>
    rw [hu] at hfirst
    simp only [Operand.pick, hu]
    exact bind_error hfirst
  | ok u =>
    rw [hu] at hfirst
    cases hv : (Operand.ofContent n'.content).toNumber f with
    | error e =>
      rw [hv] at hsecond
      simp only [Operand.pick, hu, hv]
      exact (bind_ok hfirst).trans (bind_error hsecond)
    | ok v =>
      rw [hv] at hsecond
      simp only [Operand.pick, hu, hv]
      refine ⟨_, ?_, (bind_ok hfirst).trans (bind_ok hsecond)⟩
      cases keepFirst u v <;> rfl

/-- What a builtin does with as many arguments as it takes. -/
theorem apply_picks (f : Builtin) {arguments : List Address} {xs : List Operand} (hlen : f.arity = arguments.length)
    (hargs : List.Forall₂ (Sees m) arguments xs) :
    Picks (f.apply arguments) arguments m (Operand.builtin f xs) := by
  cases hargs with
  | nil => cases f <;> simp [Builtin.arity] at hlen
  | cons hx hrest =>
    cases hrest with
    | nil =>
      cases f with
      | abs => exact number_picks hx .abs _ _
      | sqrt => exact number_picks hx .sqrt _ _
      | min => simp [Builtin.arity] at hlen
      | max => simp [Builtin.arity] at hlen
    | cons hy hrest =>
      cases hrest with
      | nil =>
        cases f with
        | abs => simp [Builtin.arity] at hlen
        | sqrt => simp [Builtin.arity] at hlen
        | min => exact pick_picks hx hy .min _
        | max => exact pick_picks hx hy .max _
      | cons _ _ =>
        simp only [List.length_cons] at hlen
        cases f <;> simp only [Builtin.arity] at hlen <;> omega

end Operators

end Tenure
