import Tenure.Machine.Operator

/-!
# Operators on values

What an operator or a builtin does with its operands depends only on what it sees of them: a truth value, a number, a
character, or the kind of anything else, and for equality on whether both operands are the very same value. The
functions here say what comes out, without a heap: a truth value, a new number, one of the arguments, or an error.
-/

set_option autoImplicit false

namespace Tenure

/-- A value as operators see it. -/
inductive Operand where
  | truth (b : Bool)
  | number (n : Number)
  | char (code : Int)
  /-- A value that no operator looks into. -/
  | other (kind : Kind)

namespace Operand

/-- The kind of an operand. -/
def kind : Operand → Kind
  | .truth true => .truth
  | .truth false => .falsity
  | .number _ => .number
  | .char _ => .char
  | .other k => k

/-- The content of a node as operators see it. -/
def ofContent : Content → Operand
  | .truth => .truth true
  | .falsity => .truth false
  | .number n => .number n
  | .char c => .char c
  | c => .other c.kind

@[simp] theorem kind_ofContent (c : Content) : (ofContent c).kind = c.kind := by cases c <;> rfl

/-- Whether two operands are equal in value. -/
def equal : Operand → Operand → Bool
  | .number a, .number b => a.equal b
  | .char a, .char b => a = b
  | _, _ => false

/-- An operator on two truth values. -/
def onTruths (symbol : Text) (f : Bool → Bool → Bool) : Operand → Operand → Except StepError (Bool ⊕ Number)
  | .truth a, .truth b => .ok (.inl (f a b))
  | x, y => .error (.binaryOperands x.kind symbol y.kind)

/-- An operator on two characters or two numbers. -/
def onValues (symbol : Text) : Operand → Operand → Except StepError (Bool ⊕ Number)
  | .char a, .char b =>
    match MachineM.ordering? symbol (a < b) (a ≤ b) (b < a) (b ≤ a) with
    | some r => .ok (.inl r)
    | none => .error (.binaryOperands .char symbol .char)
  | .number a, .number b =>
    match MachineM.ordering? symbol (a.less b) (a.atMost b) (b.less a) (b.atMost a) with
    | some r => .ok (.inl r)
    | none => (a.operate symbol b).map .inr
  | x, y => .error (.binaryOperands x.kind symbol y.kind)

/-- The outcome of a binary operator: a truth value or a new number. The flag says whether both operands are the very
same value, which then is equal to itself. -/
def binary (symbol : Text) (same : Bool) (x y : Operand) : Except StepError (Bool ⊕ Number) :=
  if symbol = "==" then .ok (.inl (same || x.equal y))
  else if symbol = "!=" then .ok (.inl !(same || x.equal y))
  else if symbol = "&&" then onTruths symbol (· && ·) x y
  else if symbol = "||" then onTruths symbol (· || ·) x y
  else if symbol = "&" ∨ symbol = "|" ∨ symbol = "^" then
    if x.kind = .number then onValues symbol x y
    else if symbol = "&" then onTruths symbol (· && ·) x y
    else if symbol = "|" then onTruths symbol (· || ·) x y
    else onTruths symbol (· != ·) x y
  else onValues symbol x y

/-- The outcome of a unary operator: a truth value or a new number. -/
def unary (symbol : Text) (x : Operand) : Except StepError (Bool ⊕ Number) :=
  if symbol = "-" then
    match x with
    | .number v => .ok (.inr v.negate)
    | x => .error (.unaryOperand symbol x.kind)
  else if symbol = "!" then
    match x with
    | .truth b => .ok (.inl !b)
    | .number (.int v) => .ok (.inr (.int (~~~(wordOf v)).toInt))
    | x => .error (.unaryOperand symbol x.kind)
  else .error (.unknownOperator symbol)

/-- An argument that has to be a number. -/
def toNumber (b : Builtin) : Operand → Except StepError Number
  | .number n => .ok n
  | x => .error (.builtinOperand (Text.ofString b.name) x.kind)

/-- Which of two arguments a test prefers: the first or the second. -/
def pick (b : Builtin) (keepFirst : Number → Number → Bool) (x y : Operand) : Except StepError (Bool ⊕ Number) := do
  let u ← x.toNumber b
  let v ← y.toNumber b
  return .inl (keepFirst u v)

/-- The outcome of a builtin on as many arguments as it takes: a new number, or the first (`true`) or the second
(`false`) argument. -/
def builtin : Builtin → List Operand → Except StepError (Bool ⊕ Number)
  | .abs, [x] => (x.toNumber .abs).map fun n => .inr n.magnitude
  | .min, [x, y] => pick .min (fun u v => u.atMost v) x y
  | .max, [x, y] => pick .max (fun u v => v.atMost u) x y
  | .sqrt, [x] => (x.toNumber .sqrt).map fun n => .inr n.squareRoot
  | b, xs => .error (.builtinArity (Text.ofString b.name) b.arity xs.length)

end Operand

/-! ## Errors -/

/-- Whether an error says that the machine reached for an operand, a frame, a slot or an instruction that is not
there. -/
def StepError.isStructural : StepError → Bool
  | .heap e => e ≠ .exhausted
  | .unboundFrame _ | .unboundSlot _ | .unknownInstruction _ => true
  | .stackUnderflow | .noBlockFrame | .resetOutsideCall | .resetOn _ => true
  | _ => false

/-- Whether an error says that an operator or a builtin does not apply to its operands. -/
def StepError.isOperation : StepError → Bool
  | .divisionByZero | .unknownOperator _ | .binaryOperands _ _ _ | .unaryOperand _ _ => true
  | .builtinOperand _ _ | .builtinArity _ _ _ => true
  | _ => false

/-- A result is no error of the machine's structure. -/
def Benign {α : Type} (r : Except StepError α) : Prop := ∀ e, r = .error e → e.isStructural = false

namespace Benign

theorem ok {α : Type} (a : α) : Benign (.ok a) := fun _ h => by cases h

theorem error {α : Type} {e : StepError} (h : e.isStructural = false) : Benign (.error e : Except StepError α) :=
  fun _ h' => by cases h'; exact h

end Benign

/-- A result is a value or the error of an operator. -/
def Computed {α : Type} (r : Except StepError α) : Prop := ∀ e, r = .error e → e.isOperation = true

namespace Computed

theorem benign {α : Type} {r : Except StepError α} (h : Computed r) : Benign r := by
  intro e he
  have := h e he
  cases e with
  | divisionByZero | unknownOperator | binaryOperands | unaryOperand | builtinOperand | builtinArity => rfl
  | _ => cases this

theorem ok {α : Type} (a : α) : Computed (.ok a) := fun _ h => by cases h

theorem error {α : Type} {e : StepError} (h : e.isOperation = true) : Computed (.error e : Except StepError α) :=
  fun _ h' => by cases h'; exact h

theorem map {α β : Type} {r : Except StepError α} (h : Computed r) (f : α → β) : Computed (r.map f) := by
  cases r with
  | ok a => exact .ok (f a)
  | error e => exact .error (h e rfl)

theorem operate (symbol : Text) (a b : Number) : Computed (a.operate symbol b) := by
  have hword : ∀ u v, Computed (wordOperator symbol u v) := by
    intro u v
    unfold wordOperator
    repeat' split
    all_goals first | exact .ok _ | exact .error rfl
  have hfloat : ∀ u v, Computed (floatOperator symbol u v) := by
    intro u v
    unfold floatOperator
    repeat' split
    all_goals first | exact .ok _ | exact .error rfl
  unfold Number.operate
  split
  · exact (hword _ _).map _
  · exact (hfloat _ _).map _

theorem onTruths (symbol : Text) (f : Bool → Bool → Bool) (x y : Operand) : Computed (Operand.onTruths symbol f x y) := by
  unfold Operand.onTruths
  split
  · exact .ok _
  · exact .error rfl

theorem onValues (symbol : Text) (x y : Operand) : Computed (Operand.onValues symbol x y) := by
  unfold Operand.onValues
  split
  · split
    · exact .ok _
    · exact .error rfl
  · split
    · exact .ok _
    · exact (operate _ _ _).map _
  · exact .error rfl

theorem binary (symbol : Text) (same : Bool) (x y : Operand) : Computed (Operand.binary symbol same x y) := by
  unfold Operand.binary
  repeat' split
  all_goals first | exact .ok _ | exact onTruths _ _ _ _ | exact onValues _ _ _

theorem unary (symbol : Text) (x : Operand) : Computed (Operand.unary symbol x) := by
  unfold Operand.unary
  repeat' split
  all_goals first | exact .ok _ | exact .error rfl

theorem builtin (b : Builtin) (xs : List Operand) : Computed (Operand.builtin b xs) := by
  have hnumber : ∀ b (x : Operand), Computed (x.toNumber b) := by
    intro b x
    unfold Operand.toNumber
    split
    · exact .ok _
    · exact .error rfl
  have hpick : ∀ b keepFirst (x y : Operand), Computed (Operand.pick b keepFirst x y) := by
    intro b keepFirst x y
    unfold Operand.pick
    cases hx : x.toNumber b with
    | error e => exact .error (hnumber b x e hx)
    | ok u => exact (hnumber b y).map _
  unfold Operand.builtin
  split
  · exact (hnumber _ _).map _
  · exact hpick _ _ _ _
  · exact hpick _ _ _ _
  · exact (hnumber _ _).map _
  · exact .error rfl

end Computed

end Tenure
