import Tenure.Check.Rules
import Tenure.Proofs.Tree.Plain

/-!
# Checking trees without numerals

A check of a plain tree is the check of the tree: `Tree.complaints_plain`. Each rule looks at a tree only through what a
plain tree shows as well, and checks nodes below; so a rule on a plain tree is the rule on the tree, with the nodes
below made plain before they are checked.
-/

set_option autoImplicit false

namespace Tenure

namespace Check

variable {α β γ : Type}

/-- A step that looks at a changed result of inspecting a tree looks at the result and changes it. -/
@[simp] theorem lift_map_bind (g : α → β) (x : Inspect α) (f : β → Check γ) :
    (liftM (g <$> x) : Check β) >>= f = (liftM x : Check α) >>= fun a => f (g a) := by
  cases x <;> rfl

/-! ## Declarations -/

theorem ascription_plain (owner : Text) (written : Option Tree) :
    ascription owner (written.map Tree.plain) = ascription owner written := by
  cases written with
  | none => rfl
  | some t => rw [Option.map_some, ascription, ascription, Tree.text_plain]

theorem parameterTypes_plain (trees : List Tree) : parameterTypes (trees.map Tree.plain) = parameterTypes trees := by
  induction trees with
  | nil => rfl
  | cons p trees ih => simp [parameterTypes, ascription_plain, ih]

@[simp] theorem signature_plain (t : Tree) : signature t.plain = signature t := by
  simp only [signature, Tree.parametersOf_plain, Tree.child_plain, Tree.name_plain, lift_map_bind, parameterTypes_plain]
  refine bind_congr fun trees => bind_congr fun types => bind_congr fun written => ?_
  cases written with
  | none => rfl
  | some t => exact bind_congr fun name => congrArg (· >>= _) (ascription_plain name (some t))

theorem declareParameters_plain (parameters : List (Tree × Ty)) :
    declareParameters (parameters.map fun p => (p.1.plain, p.2)) = declareParameters parameters := by
  induction parameters with
  | nil => rfl
  | cons p parameters ih => simp [declareParameters, ih]

theorem declareFunctions_plain (trees : List Tree) :
    declareFunctions (trees.map Tree.plain) = declareFunctions trees := by
  induction trees with
  | nil => rfl
  | cons t trees ih => simp [declareFunctions, ih]

theorem declareGlobals_plain (trees : List Tree) (known : List (Text × Signature)) :
    declareGlobals (trees.map Tree.plain) known = declareGlobals trees known := by
  induction trees generalizing known with
  | nil => rfl
  | cons t trees ih => simp [declareGlobals, ih]

theorem splitNamed_plain (name : Text) (trees : List Tree) :
    splitNamed name (trees.map Tree.plain) =
      (fun found => (found.1.map Tree.plain, found.2.map Tree.plain)) <$> splitNamed name trees := by
  induction trees with
  | nil => rfl
  | cons t trees ih =>
    rw [List.map_cons, splitNamed, splitNamed, Tree.name_plain, ih, map_bind]
    refine bind_congr fun n => ?_
    split
    · rfl
    · rw [map_bind, bind_map_left]
      rfl

/-! ## Items -/

section

variable (visit : Tree → Check Ty)

theorem inOrder_plain (trees : List Tree) (last : Ty) :
    inOrder visit (trees.map Tree.plain) last = inOrder (fun t => visit t.plain) trees last := by
  induction trees generalizing last with
  | nil => rfl
  | cons t trees ih => exact bind_congr fun type => ih type

theorem all_plain (trees : List Tree) : all visit (trees.map Tree.plain) = all (fun t => visit t.plain) trees := by
  induction trees with
  | nil => rfl
  | cons t trees ih => exact bind_congr fun type => congrArg (· >>= _) ih

theorem function_plain (t : Tree) (s : Signature) :
    function visit t.plain s = function (fun t => visit t.plain) t s := by
  simp only [function, Tree.name_plain, Tree.child_plain, Tree.parametersOf_plain, lift_map_bind]
  refine bind_congr fun name => bind_congr fun body => ?_
  cases body with
  | none => rfl
  | some body =>
    simp only [Option.map_some, List.zip_map_left]
    refine bind_congr fun _ => bind_congr fun parameters => congrArg (· >>= _) ?_
    exact declareParameters_plain _

theorem blockItems_plain (trees : List Tree) (signatures : List Signature) (last : Ty) :
    blockItems visit (trees.map Tree.plain) signatures last =
      blockItems (fun t => visit t.plain) trees signatures last := by
  induction trees generalizing signatures last with
  | nil => rfl
  | cons t trees ih => simp only [List.map_cons, blockItems, Tree.form_plain, function_plain, ih]

theorem block_plain (t : Tree) : block visit t.plain = block (fun t => visit t.plain) t := by
  simp only [block, Tree.childrenOf_plain, Tree.children_plain, lift_map_bind, declareFunctions_plain, blockItems_plain]

theorem functionItem_plain (t : Tree) : functionItem visit t.plain = functionItem (fun t => visit t.plain) t := by
  simp only [functionItem, signature_plain, Tree.name_plain, function_plain]

theorem crateFunctions_plain (known : List (Text × Signature)) (trees : List Tree) :
    crateFunctions visit known (trees.map Tree.plain) = crateFunctions (fun t => visit t.plain) known trees := by
  induction trees with
  | nil => rfl
  | cons t trees ih => simp only [List.map_cons, crateFunctions, Tree.name_plain, function_plain, ih]

theorem crate_plain (t : Tree) : crate visit t.plain = crate (fun t => visit t.plain) t := by
  simp only [crate, Tree.childrenOf_plain, Tree.children_plain, Tree.select_plain, lift_map_bind, declareGlobals_plain,
    splitNamed_plain, crateFunctions_plain, inOrder_plain]
  refine bind_congr fun functions => bind_congr fun known => bind_congr fun found => bind_congr fun _ =>
    bind_congr fun trees => bind_congr fun _ => ?_
  cases found.1 with
  | none => rfl
  | some main => exact congrArg (· >>= _) (function_plain visit main _)

/-! ## Statements -/

theorem letStatement_plain (t : Tree) : letStatement visit t.plain = letStatement (fun t => visit t.plain) t := by
  simp only [letStatement, Tree.name_plain, Tree.isMutable_plain, Tree.child_plain, Tree.initializer_plain,
    lift_map_bind]
  refine bind_congr fun name => bind_congr fun mutable => bind_congr fun written => ?_
  cases written with
  | none =>
    refine bind_congr fun declared => bind_congr fun initial => ?_
    cases initial <;> rfl
  | some written =>
    simp only [Option.map_some, ascription, Tree.text_plain]
    refine bind_congr fun type => bind_congr fun declared => bind_congr fun initial => ?_
    cases initial <;> rfl

theorem expressionStatement_plain (t : Tree) :
    expressionStatement visit t.plain = expressionStatement (fun t => visit t.plain) t := by
  simp only [expressionStatement, Tree.last_plain, Tree.tag_plain]

theorem returning_plain (t : Tree) : returning visit t.plain = returning (fun t => visit t.plain) t := by
  simp only [returning, Tree.last_plain]

/-! ## Expressions -/

theorem malformed_plain (t : Tree) : malformed t.plain = malformed t := by rw [malformed, malformed, Tree.tag_plain]

theorem literal_plain {t : Tree} (h : Form.ofTag t.tag = .literal) : literal t.plain = literal t := by
  rw [literal, literal, Literal.source_plain, lift_map_bind]
  cases hsource : Literal.source t with
  | error e => rfl
  | ok source =>
    have hform := Literal.form_source h hsource
    have hok {f : Tree → Check Ty} : (liftM (Except.ok source : Inspect Tree) : Check Tree) >>= f = f source := rfl
    rw [hok, hok, Literal.kindOf_plain hform, Literal.read_plain hform]

theorem path_plain (t : Tree) : path t.plain = path t := by rw [path, path, Tree.name_plain]

theorem operation_plain (t : Tree) : operation visit t.plain = operation (fun t => visit t.plain) t := by
  simp only [operation, Tree.operands_plain, Tree.operator_plain, lift_map_bind, malformed_plain]
  refine bind_congr fun operands => ?_
  rcases operands with _ | ⟨a, _ | ⟨b, _ | _⟩⟩ <;> rfl

theorem comparison_plain (t : Tree) : comparison visit t.plain = comparison (fun t => visit t.plain) t := by
  simp only [comparison, Tree.operands_plain, Tree.operator_plain, lift_map_bind, malformed_plain]
  refine bind_congr fun operands => ?_
  rcases operands with _ | ⟨a, _ | ⟨b, _ | _⟩⟩ <;> rfl

theorem negation_plain (t : Tree) : negation visit t.plain = negation (fun t => visit t.plain) t := by
  simp only [negation, Tree.last_plain, Tree.operator_plain]

theorem branches_plain (thenBranch : Tree) (elseBranch : Option Tree) :
    branches visit thenBranch.plain (elseBranch.map Tree.plain) =
      branches (fun t => visit t.plain) thenBranch elseBranch := by
  cases elseBranch <;> rfl

theorem conditional_plain (t : Tree) : conditional visit t.plain = conditional (fun t => visit t.plain) t := by
  simp only [conditional, Tree.operands_plain, lift_map_bind, malformed_plain]
  refine bind_congr fun operands => ?_
  rcases operands with _ | ⟨a, _ | ⟨b, rest⟩⟩
  · rfl
  · rfl
  · refine bind_congr fun type => bind_congr fun _ => ?_
    rw [List.head?_map]
    exact branches_plain visit b rest.head?

theorem loop_plain (t : Tree) : loop visit t.plain = loop (fun t => visit t.plain) t := by
  simp only [loop, Tree.operands_plain, lift_map_bind, malformed_plain]
  refine bind_congr fun operands => ?_
  rcases operands with _ | ⟨a, _ | ⟨b, _ | _⟩⟩ <;> rfl

theorem call_plain (t : Tree) : call visit t.plain = call (fun t => visit t.plain) t := by
  simp only [call, Tree.operands_plain, lift_map_bind, malformed_plain]
  refine bind_congr fun operands => ?_
  cases operands with
  | nil => rfl
  | cons callee arguments => exact bind_congr fun type => congrArg (· >>= _) (all_plain visit arguments)

theorem store_plain (target : Tree) (value : Ty) (plain : Bool) :
    store visit target.plain value plain = store (fun t => visit t.plain) target value plain := by
  simp only [store, Tree.form_plain, Tree.name_plain, Tree.last_plain]

theorem assignment_plain (t : Tree) : assignment visit t.plain = assignment (fun t => visit t.plain) t := by
  simp only [assignment, Tree.operands_plain, lift_map_bind, malformed_plain]
  refine bind_congr fun operands => ?_
  rcases operands with _ | ⟨target, _ | ⟨value, _ | _⟩⟩
  · rfl
  · rfl
  · simp only [List.map_cons, List.map_nil, Tree.unwrapped_plain, store_plain]
  · rfl

theorem compoundAssignment_plain (t : Tree) :
    compoundAssignment visit t.plain = compoundAssignment (fun t => visit t.plain) t := by
  simp only [compoundAssignment, Tree.operands_plain, Tree.operator_plain, lift_map_bind, malformed_plain]
  refine bind_congr fun operands => bind_congr fun op => ?_
  rcases operands with _ | ⟨target, _ | ⟨value, _ | _⟩⟩
  · rfl
  · rfl
  · cases compoundOperator? op with
    | none => rfl
    | some op => simp only [List.map_cons, List.map_nil, Tree.unwrapped_plain, store_plain]
  · rfl

theorem borrow_plain (t : Tree) : borrow visit t.plain = borrow (fun t => visit t.plain) t := by
  simp only [borrow, Tree.last_plain, Tree.isPresent_plain, Tree.isMutable_plain, Tree.unwrapped_plain, Tree.form_plain,
    Tree.name_plain, malformed_plain]

theorem dereference_plain (t : Tree) : dereference visit t.plain = dereference (fun t => visit t.plain) t := by
  simp only [dereference, Tree.last_plain]

/-- The rule for a form, on a plain tree of that form. -/
theorem rule_plain {t : Tree} {f : Form} (h : Form.ofTag t.tag = f) :
    rule visit f t.plain = rule (fun t => visit t.plain) f t := by
  cases f with
  | crate => exact crate_plain visit t
  | function => exact functionItem_plain visit t
  | block => exact block_plain visit t
  | letStatement => exact letStatement_plain visit t
  | expressionStatement => exact expressionStatement_plain visit t
  | literal => exact literal_plain h
  | path | identifier => exact path_plain t
  | returning => exact returning_plain visit t
  | arithmetic | lazyBoolean => exact operation_plain visit t
  | comparison => exact comparison_plain visit t
  | negation => exact negation_plain visit t
  | grouped => exact congrArg visit t.last_plain
  | conditional => exact conditional_plain visit t
  | loop => exact loop_plain visit t
  | call => exact call_plain visit t
  | assignment => exact assignment_plain visit t
  | compoundAssignment => exact compoundAssignment_plain visit t
  | borrow => exact borrow_plain visit t
  | dereference => exact dereference_plain visit t
  | ascription | terminal | parameters | parameter => rfl
  | other => exact (congrArg (inOrder visit · .unit) t.children_plain).trans (inOrder_plain visit t.children .unit)

end

/-- A check of a plain tree is the check of the tree, by induction on the depth. -/
theorem toDepth_plain (depth : Nat) (t : Tree) : toDepth depth t.plain = toDepth depth t := by
  induction depth generalizing t with
  | zero => rfl
  | succ depth ih =>
    cases t with
    | absent => rfl
    | node tag children val type =>
      have hrule := rule_plain (toDepth depth) (t := .node tag children val type) rfl
      rw [funext ih] at hrule
      rw [Tree.plain_node, toDepth, ← Tree.plain_node, toDepth]
      exact hrule

end Check

/-- The complaints about a plain tree are those about the tree. -/
theorem Tree.complaints_plain (t : Tree) : t.plain.complaints = t.complaints := by
  rw [complaints, complaints, Checker.checkProgram, Checker.checkProgram, Checker.checkNode, Checker.checkNode,
    Check.node, Check.node, height_plain, Check.toDepth_plain]

end Tenure
