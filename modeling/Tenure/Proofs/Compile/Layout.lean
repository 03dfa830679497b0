import Tenure.Proofs.Compile.Places

/-!
# The code of a term

`Layout t shape start code` says that `code`, placed at the address `start`, is code for the term `t` inside frames of
the given numbers of slots. Code that carries a position was emitted in an environment of exactly that shape, and every
position is one of it. What is dropped at the end of a scope depends on ownership and is left open: any slots of the
innermost frame may be.
-/

set_option autoImplicit false

namespace Tenure

/-- A slot is there in frames of the given sizes. -/
def Within (shape : List Nat) (frame slot : Nat) : Prop := ∃ n, shape[frame]? = some n ∧ slot < n

/-- Code that drops slots of the innermost frame. -/
def Drops (shape : List Nat) (code : Emissions) : Prop :=
  ∀ e ∈ code, e.env.shape = shape ∧
    ∃ slot : Nat, Within shape (shape.length - 1) slot ∧
      e.instr = .drop (Environment.positionOf (shape.length - 1 : Nat) slot)

/-- A literal of one of the kinds that have a value, with an integer of 32 bits. -/
structure Literal.Known (l : Literal) : Prop where
  kind : l.kind ∈ [unitKind, boolKind, intKind, floatKind, charKind, stringKind]
  int : -0x80000000 ≤ l.int ∧ l.int < 0x80000000

namespace Literal.Known

theorem unit : Literal.unit.Known := ⟨by simp [Literal.unit], by simp [Literal.unit]⟩

theorem ofBool (b : Bool) : (Literal.ofBool b).Known := ⟨by simp [Literal.ofBool], by simp [Literal.ofBool]⟩

theorem ofInt {n : Int} (h : -0x80000000 ≤ n ∧ n < 0x80000000) : (Literal.ofInt n).Known :=
  ⟨by simp [Literal.ofInt], h⟩

theorem ofFloat (x : Float) : (Literal.ofFloat x).Known := ⟨by simp [Literal.ofFloat], by simp [Literal.ofFloat]⟩

theorem ofCode {n : Int} (h : -0x80000000 ≤ n ∧ n < 0x80000000) : (Literal.ofCode n).Known :=
  ⟨by simp [Literal.ofCode], h⟩

theorem ofText (t : Text) : (Literal.ofText t).Known := ⟨by simp [Literal.ofText], by simp [Literal.ofText]⟩

end Literal.Known

/-- One more frame fits around code. -/
def Opens (shape : List Nat) (slots : Nat) : Prop := slots ≤ maxFrameSlots ∧ shape.length + 1 ≤ maxFrames

/-- Code at an address is the code of a term. -/
def Layout : {n : Nat} → Term n → List Nat → Nat → Emissions → Prop
  | _, .nothing, _, _, code => code = []
  | _, .seq first rest, shape, start, code =>
    ∃ one two, code = one ++ two ∧ Layout first shape start one ∧ Layout rest shape (start + one.length) two
  | _, .also first rest, shape, start, code =>
    ∃ one two, code = one ++ two ∧ Layout first shape start one ∧ Layout rest shape (start + one.length) two
  | _, .constant l, _, _, code => l.Known ∧ ∃ env, code = [⟨.loadConstant l, env⟩]
  | _, .load frame slot, shape, _, code =>
    Within shape frame slot ∧ ∃ env, env.shape = shape ∧ code = [⟨.load (Environment.positionOf frame slot), env⟩]
  | _, .store frame slot value, shape, start, code =>
    Within shape frame slot ∧ ∃ one env env', code =
        one ++ [⟨.assign (Environment.positionOf frame slot), env⟩, ⟨.plain .pop, env'⟩] ∧
      env.shape = shape ∧ Layout value shape start one
  | _, .discard value, shape, start, code =>
    ∃ one env, code = one ++ [⟨.plain .pop, env⟩] ∧ Layout value shape start one
  | _, .unary symbol operand, shape, start, code =>
    ∃ one env, code = one ++ [⟨.unary symbol, env⟩] ∧ Layout operand shape start one
  | _, .binary symbol left right, shape, start, code =>
    ∃ one two env, code = one ++ two ++ [⟨.binary symbol, env⟩] ∧ Layout left shape start one ∧
      Layout right shape (start + one.length) two
  | _, .conditional condition thenBranch elseBranch, shape, start, code =>
    ∃ test one two env env', code =
        test ++ [⟨.jumpUnless (start + test.length + 1 + one.length + 1 : Nat), env⟩] ++ one ++
          [⟨.jump (start + test.length + 1 + one.length + 1 + two.length : Nat), env'⟩] ++ two ∧
      Layout condition shape start test ∧ Layout thenBranch shape (start + test.length + 1) one ∧
      Layout elseBranch shape (start + test.length + 1 + one.length + 1) two
  | _, .loop condition body, shape, start, code =>
    ∃ test one env env' env'' env''', code =
        test ++ [⟨.jumpUnless (start + test.length + one.length + 3 : Nat), env⟩] ++ one ++
          [⟨.plain .pop, env'⟩, ⟨.jump (start : Nat), env''⟩, ⟨Compile.pushUnit, env'''⟩] ∧
      Layout condition shape start test ∧ Layout body shape (start + test.length + 1) one
  | _, @Term.call n callee arguments, shape, start, code =>
    ∃ one two env, code = one ++ two ++ [⟨.call n, env⟩] ∧ Layout callee shape start one ∧
      Layout arguments shape (start + one.length) two
  | _, .returning value, shape, start, code =>
    ∃ one env, code = one ++ [⟨.plain .reset, env⟩] ∧ Layout value shape start one
  | _, .borrow frame slot mutable, shape, _, code =>
    Within shape frame slot ∧
      ∃ env, env.shape = shape ∧ code = [⟨.reference (Environment.positionOf frame slot) mutable, env⟩]
  | _, .dereference reference, shape, start, code =>
    ∃ one env, code = one ++ [⟨.plain .dereference, env⟩] ∧ Layout reference shape start one
  | _, .update reference value, shape, start, code =>
    ∃ one two env, code = one ++ two ++ [⟨.plain .updateReference, env⟩] ∧ Layout reference shape start one ∧
      Layout value shape (start + one.length) two
  | _, .scope slots body, shape, start, code =>
    Opens shape slots ∧ ∃ one drops env env', code =
        [⟨.enterScope slots, env⟩] ++ one ++ drops ++ [⟨.plain .exitScope, env'⟩] ∧
      Layout body (shape ++ [slots]) (start + 1) one ∧ Drops (shape ++ [slots]) drops
  | _, .closure arity body, shape, start, code =>
    Opens shape arity ∧ ∃ one drops env env' env'', code =
        [⟨.loadFunction arity (start + 2 : Nat), env⟩,
          ⟨.jump (start + 2 + (one ++ drops ++ [⟨.plain .reset, env''⟩] : Emissions).length : Nat), env'⟩] ++
          (one ++ drops ++ [⟨.plain .reset, env''⟩]) ∧
      Layout body (shape ++ [arity]) (start + 2) one ∧ Drops (shape ++ [arity]) drops

/-- Every value takes at least one instruction. -/
theorem Layout.width_le {n : Nat} {t : Term n} {shape : List Nat} {start : Nat} {code : Emissions}
    (h : Layout t shape start code) : n ≤ code.length := by
  induction t generalizing shape start code with
  | nothing => exact Nat.zero_le _
  | seq first rest _ ih =>
    obtain ⟨one, two, rfl, -, htwo⟩ := h
    have := ih htwo
    simp only [List.length_append]
    omega
  | also first rest ihf ihr =>
    obtain ⟨one, two, rfl, hone, htwo⟩ := h
    have := ihf hone
    have := ihr htwo
    simp only [List.length_append]
    omega
  | constant l =>
    obtain ⟨-, env, rfl⟩ := h
    simp
  | load frame slot =>
    obtain ⟨-, env, -, rfl⟩ := h
    simp
  | store | discard => exact Nat.zero_le _
  | conditional =>
    obtain ⟨test, one, two, env, env', rfl, -⟩ := h
    simp only [List.length_append, List.length_cons, List.length_nil]
    omega
  | loop =>
    obtain ⟨test, one, env, env', env'', env''', rfl, -⟩ := h
    simp only [List.length_append, List.length_cons, List.length_nil]
    omega
  | borrow frame slot mutable =>
    obtain ⟨-, env, -, rfl⟩ := h
    simp
  | unary | returning | dereference =>
    obtain ⟨one, env, rfl, -⟩ := h
    simp
  | binary | call | update =>
    obtain ⟨one, two, env, rfl, -⟩ := h
    simp only [List.length_append, List.length_cons, List.length_nil]
    omega
  | scope =>
    obtain ⟨-, one, drops, env, env', rfl, -⟩ := h
    simp
  | closure =>
    obtain ⟨-, one, drops, env, env', env'', rfl, -⟩ := h
    simp

/-! ## Placing code -/

/-- A piece of code stands at an address of a program. -/
def Segment (whole : Emissions) (start : Nat) (piece : Emissions) : Prop :=
  ∀ i e, piece[i]? = some e → whole[start + i]? = some e

namespace Segment

variable {whole one two : Emissions} {start : Nat}

theorem refl (whole : Emissions) : Segment whole 0 whole := by
  intro i e h
  simpa using h

theorem append :
    Segment whole start (one ++ two) ↔ Segment whole start one ∧ Segment whole (start + one.length) two := by
  constructor
  · intro h
    refine ⟨fun i e hi => h i e ?_, fun i e hi => ?_⟩
    · rw [List.getElem?_append_left (List.getElem?_eq_some_iff.mp hi).1]
      exact hi
    · rw [Nat.add_assoc]
      refine h (one.length + i) e ?_
      rw [List.getElem?_append_right (by omega)]
      simpa using hi
  · rintro ⟨hone, htwo⟩ i e hi
    by_cases hlt : i < one.length
    · rw [List.getElem?_append_left hlt] at hi
      exact hone i e hi
    · rw [List.getElem?_append_right (by omega)] at hi
      have := htwo (i - one.length) e hi
      rwa [show start + one.length + (i - one.length) = start + i by omega] at this

theorem cons {e : Emission} {rest : Emissions} :
    Segment whole start (e :: rest) ↔ whole[start]? = some e ∧ Segment whole (start + 1) rest := by
  rw [← List.singleton_append, append]
  refine and_congr_left fun _ => ?_
  constructor
  · intro h
    simpa using h 0 e rfl
  · intro h i e' hi
    cases i with
    | zero => simpa using h.trans (by simpa using hi)
    | succ i => simp at hi

@[simp] theorem nil : Segment whole start [] := by
  intro i e h
  simp at h

end Segment

end Tenure
