import Tenure.Compile.Rules
import Tenure.Proofs.Check.Plain

/-!
# Code of trees without numerals

A plain tree has the code of the tree, or is refused with the same error: `Tree.compile_plain`. As with checking, a rule
on a plain tree is the rule on the tree, with the nodes below made plain before their code is generated.
-/

set_option autoImplicit false

namespace Tenure

namespace Compile

variable {α β γ : Type}

/-- A step that looks at a changed result of inspecting a tree looks at the result and changes it. -/
@[simp] theorem lift_map_bind (g : α → β) (x : Inspect α) (f : β → Compile γ) :
    (liftM (g <$> x) : Compile β) >>= f = (liftM x : Compile α) >>= fun a => f (g a) := by
  cases x with
  | ok a => rfl
  | error e => cases e; rfl

theorem names_plain (trees : List Tree) : names (trees.map Tree.plain) = names trees := by
  induction trees with
  | nil => rfl
  | cons t trees ih => rw [List.map_cons, names, names, Tree.name_plain, ih]

theorem declarations_plain (trees : List Tree) : declarations (trees.map Tree.plain) = declarations trees := by
  induction trees with
  | nil => rfl
  | cons t trees ih => simp only [List.map_cons, declarations, Tree.form_plain, Tree.name_plain, ih]

theorem tail?_plain (t : Tree) : tail? t.plain = (tail? t).map Tree.plain := by
  rw [tail?, tail?, Tree.children_plain, List.getLast?_map]
  cases t.children.getLast? with
  | none => rfl
  | some last =>
    simp only [Option.map_some, Tree.tag_plain]
    cases Form.ofTag last.tag <;> rfl

section

variable (visit : Visit)

/-! ## Items -/

theorem function_plain (start : Nat) (t : Tree) :
    function visit start t.plain = function (fun start t use => visit start t.plain use) start t := by
  simp only [function, Tree.name_plain, Tree.child_plain, Tree.parametersOf_plain, lift_map_bind, names_plain]
  refine bind_congr fun name => bind_congr fun body => ?_
  cases body <;> rfl

theorem functions_plain (start : Nat) (trees : List Tree) :
    functions visit start (trees.map Tree.plain) =
      functions (fun start t use => visit start t.plain use) start trees := by
  induction trees generalizing start with
  | nil => rfl
  | cons t trees ih => simp only [List.map_cons, functions, function_plain, ih]

theorem crate_plain (start : Nat) (t : Tree) :
    crate visit start t.plain = crate (fun start t use => visit start t.plain use) start t := by
  simp only [crate, Tree.childrenOf_plain, lift_map_bind, names_plain, functions_plain]

/-! ## Statements and blocks -/

theorem letStatement_plain (start : Nat) (t : Tree) :
    letStatement visit start t.plain = letStatement (fun start t use => visit start t.plain use) start t := by
  simp only [letStatement, Tree.name_plain, Tree.initializer_plain, lift_map_bind]
  refine bind_congr fun name => bind_congr fun s => ?_
  cases (s.env.innermost?.getD []).hidden? name 0 with
  | none => rfl
  | some found =>
    refine bind_congr fun initial => ?_
    cases initial <;> rfl

theorem effect_plain (start : Nat) (e : Tree) :
    effect visit start e.plain = effect (fun start t use => visit start t.plain use) start e := rfl

theorem statement_plain (start : Nat) (t : Tree) :
    statement visit start t.plain = statement (fun start t use => visit start t.plain use) start t := by
  simp only [statement, Tree.form_plain, Tree.last_plain, Tree.isPresent_plain, letStatement_plain, effect_plain]

theorem statements_plain (start : Nat) (trees : List Tree) :
    statements visit start (trees.map Tree.plain) =
      statements (fun start t use => visit start t.plain use) start trees := by
  induction trees generalizing start with
  | nil => rfl
  | cons t trees ih => simp only [List.map_cons, statements, statement_plain, ih]

theorem block_plain (start : Nat) (t : Tree) :
    block visit start t.plain = block (fun start t use => visit start t.plain use) start t := by
  have hothers : (if (tail? t).isSome then (t.children.map Tree.plain).dropLast else t.children.map Tree.plain) =
      (if (tail? t).isSome then t.children.dropLast else t.children).map Tree.plain := by
    rw [← List.map_dropLast, apply_ite (List.map Tree.plain)]
  simp only [block, tail?_plain, Option.isSome_map, Tree.children_plain, hothers, Tree.childrenOf_plain,
    Tree.select_plain, lift_map_bind, declarations_plain, functions_plain, statements_plain]
  cases tail? t <;> rfl

/-! ## Expressions -/

theorem literal_plain {t : Tree} (h : Form.ofTag t.tag = .literal) : literal t.plain = literal t := by
  rw [literal, literal, Literal.source_plain, lift_map_bind]
  cases hsource : Literal.source t with
  | error e => cases e; rfl
  | ok source =>
    have hform := Literal.form_source h hsource
    have hok {f : Tree → Compile Emissions} :
        (liftM (Except.ok source : Inspect Tree) : Compile Tree) >>= f = f source := rfl
    rw [hok, hok, Literal.read_plain hform]

theorem binary_plain (start : Nat) (t : Tree) :
    binary visit start t.plain = binary (fun start t use => visit start t.plain use) start t := by
  simp only [binary, Tree.operands_plain, Tree.operator_plain, Tree.tag_plain, lift_map_bind]
  refine bind_congr fun operands => ?_
  rcases operands with _ | ⟨a, _ | ⟨b, _ | _⟩⟩ <;> rfl

theorem unary_plain (start : Nat) (t : Tree) :
    unary visit start t.plain = unary (fun start t use => visit start t.plain use) start t := by
  simp only [unary, Tree.operands_plain, Tree.operator_plain, Tree.tag_plain, lift_map_bind]
  refine bind_congr fun operands => ?_
  rcases operands with _ | ⟨a, _ | _⟩ <;> rfl

theorem conditional_plain (start : Nat) (t : Tree) :
    conditional visit start t.plain = conditional (fun start t use => visit start t.plain use) start t := by
  simp only [conditional, Tree.operands_plain, Tree.tag_plain, lift_map_bind]
  refine bind_congr fun operands => ?_
  rcases operands with _ | ⟨a, _ | ⟨b, _ | _⟩⟩ <;> rfl

theorem loop_plain (start : Nat) (t : Tree) :
    loop visit start t.plain = loop (fun start t use => visit start t.plain use) start t := by
  simp only [loop, Tree.operands_plain, Tree.tag_plain, lift_map_bind]
  refine bind_congr fun operands => ?_
  rcases operands with _ | ⟨a, _ | ⟨b, _ | _⟩⟩ <;> rfl

theorem arguments_plain (start : Nat) (trees : List Tree) :
    arguments visit start (trees.map Tree.plain) =
      arguments (fun start t use => visit start t.plain use) start trees := by
  induction trees generalizing start with
  | nil => rfl
  | cons t trees ih => simp only [List.map_cons, arguments, ih]

theorem call_plain (start : Nat) (t : Tree) :
    call visit start t.plain = call (fun start t use => visit start t.plain use) start t := by
  simp only [call, Tree.operands_plain, Tree.tag_plain, lift_map_bind]
  refine bind_congr fun operands => ?_
  cases operands with
  | nil => rfl
  | cons callee rest => simp only [List.map_cons, arguments_plain, List.length_map]

theorem returning_plain (start : Nat) (t : Tree) :
    returning visit start t.plain = returning (fun start t use => visit start t.plain use) start t := by
  simp only [returning, Tree.last_plain, Tree.isPresent_plain]

theorem assignment_plain (start : Nat) (t : Tree) :
    assignment visit start t.plain = assignment (fun start t use => visit start t.plain use) start t := by
  simp only [assignment, Tree.operands_plain, Tree.tag_plain, lift_map_bind]
  refine bind_congr fun operands => ?_
  rcases operands with _ | ⟨target, _ | ⟨value, _ | _⟩⟩
  · rfl
  · rfl
  · simp only [List.map_cons, List.map_nil, Tree.unwrapped_plain, Tree.form_plain, Tree.name_plain, Tree.last_plain,
      Tree.tag_plain]
  · rfl

theorem compoundAssignment_plain (start : Nat) (t : Tree) :
    compoundAssignment visit start t.plain =
      compoundAssignment (fun start t use => visit start t.plain use) start t := by
  simp only [compoundAssignment, Tree.operands_plain, Tree.operator_plain, Tree.tag_plain, lift_map_bind]
  refine bind_congr fun op => bind_congr fun operands => ?_
  rcases operands with _ | ⟨target, _ | ⟨value, _ | _⟩⟩
  · rfl
  · rfl
  · simp only [List.map_cons, List.map_nil, Tree.unwrapped_plain, Tree.form_plain, Tree.name_plain, Tree.last_plain,
      Tree.tag_plain]
  · rfl

theorem borrow_plain (t : Tree) : borrow t.plain = borrow t := by
  simp only [borrow, Tree.last_plain, Tree.unwrapped_plain, Tree.tag_plain, Tree.name_plain, Tree.isMutable_plain]

theorem dereference_plain (start : Nat) (t : Tree) :
    dereference visit start t.plain = dereference (fun start t use => visit start t.plain use) start t := by
  simp only [dereference, Tree.last_plain, Tree.isPresent_plain, Tree.tag_plain]

theorem group_plain (start : Nat) (t : Tree) (use : Use) :
    group visit start t.plain use = group (fun start t use => visit start t.plain use) start t use := by
  simp only [group, Tree.children_plain, List.isEmpty_map, Tree.last_plain]

theorem wrapper_plain (start : Nat) (t : Tree) (use : Use) :
    wrapper visit start t.plain use = wrapper (fun start t use => visit start t.plain use) start t use := by
  rw [wrapper, wrapper, Tree.children_plain, Tree.tag_plain]
  rcases t.children with _ | ⟨a, _ | _⟩ <;> rfl

/-- The rule for a form, on a plain tree of that form. -/
theorem rule_plain {t : Tree} {f : Form} (h : Form.ofTag t.tag = f) (start : Nat) (use : Use) :
    rule visit start f t.plain use = rule (fun start t use => visit start t.plain use) start f t use := by
  cases f with
  | literal => exact literal_plain h
  | path | identifier => exact congrArg (fun name => (liftM name : Compile Text) >>= fun n => path n use) t.name_plain
  | block => exact block_plain visit start t
  | grouped => exact group_plain visit start t use
  | arithmetic | comparison | lazyBoolean => exact binary_plain visit start t
  | negation => exact unary_plain visit start t
  | conditional => exact conditional_plain visit start t
  | loop => exact loop_plain visit start t
  | call => exact call_plain visit start t
  | returning => exact returning_plain visit start t
  | assignment => exact assignment_plain visit start t
  | compoundAssignment => exact compoundAssignment_plain visit start t
  | borrow => exact borrow_plain t
  | dereference => exact dereference_plain visit start t
  | letStatement | expressionStatement => exact congrArg (· >>= _) (statement_plain visit start t)
  | crate | function | parameters | parameter | ascription | terminal | other => exact wrapper_plain visit start t use

end

/-- The code of a plain tree is the code of the tree, by induction on the depth. -/
theorem toDepth_plain (depth : Nat) (start : Nat) (t : Tree) (use : Use) :
    toDepth depth start t.plain use = toDepth depth start t use := by
  induction depth generalizing start t use with
  | zero => rfl
  | succ depth ih =>
    cases t with
    | absent => rfl
    | node tag children val type =>
      have hbelow : (fun start t use => toDepth depth start (Tree.plain t) use) = toDepth depth :=
        funext fun start => funext fun t => funext fun use => ih start t use
      have hrule := rule_plain (toDepth depth) (t := .node tag children val type) rfl start use
      rw [hbelow] at hrule
      rw [Tree.plain_node, toDepth, ← Tree.plain_node, toDepth]
      exact congrArg (· >>= _) hrule

theorem program_plain (t : Tree) : program t.plain = program t := by
  have hbelow : (fun start u use => toDepth t.height start (Tree.plain u) use) = toDepth t.height :=
    funext fun start => funext fun u => funext fun use => toDepth_plain t.height start u use
  rw [program, program, Tree.height_plain, crate_plain, hbelow]

end Compile

/-- A plain tree has the code of the tree, or is refused with the same error. -/
theorem Tree.compile_plain (t : Tree) : t.plain.compile = t.compile := by
  rw [compile, compile, emissions, emissions, isPresent_plain, complaints_plain, tag_plain, Compile.program_plain]

end Tenure
