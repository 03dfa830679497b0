import Tenure.Compile.Rules
import Tenure.Proofs.Order.Items
import Tenure.Tree.Build

/-!
# Programs with their items in another order

What the check finds in a crate of functions does not depend on their order. Code generation does not restore what a
binding lends at the end of a function, so an assignment to an item can be felt by the functions after it.
-/

set_option autoImplicit false

namespace Tenure

/-- The check accepts a crate of functions in one order exactly if it accepts it in another. -/
theorem Tree.complaints_reordered {t t' : Tree} (h : t.Reordered t') : t.complaints = .ok [] ↔ t'.complaints = .ok [] :=
  ⟨h.complaints, h.symm.complaints⟩

/-- A program of which the last items but `main` are given. -/
def Tree.loaning (first second : Tree) : Tree :=
  crate [function "h" [] "i32" (block [int 1]), function "x" [] "i32" (block [int 2]), first, second,
    function "main" [] "i32" (block [int 0])]

/-- A function whose own function lends the item `h` to the item `x`: the local `x` is not in scope yet. -/
def Tree.lender : Tree :=
  function "a" [] "i32" (block [letStatement "x" true "" (borrow (path "h")),
    function "g" [] "i32" (block [statement (assignment (path "x") (borrow (path "h"))), int 0]),
    call (path "g") []])

/-- A function whose own function borrows the item `h` twice for change, the first time in a block with value `x`. -/
def Tree.borrower : Tree :=
  function "p" [] "i32" (block [letStatement "h" true "" (int 1),
    function "q" [] "i32" (block [
      letStatement "t" false "" (block [letStatement "s" false "" (borrowMutable (path "h")), path "x"]),
      letStatement "r" false "" (borrowMutable (path "h")),
      int 0]),
    int 0])

theorem Tree.loaning_reordered : (loaning borrower lender).Reordered (loaning lender borrower) where
  crate := rfl
  crate' := rfl
  items := .cons _ (.cons _ (.swap ..))
  functions := by
    simp only [loaning, crate, ofForm, children, List.forall_mem_cons]
    decide
  crateless := by
    simp only [loaning, crate, ofForm, children, List.forall_mem_cons]
    decide

/-- The program compiles if the borrower stands before the lender, and does not compile if it stands behind it. -/
theorem Tree.loaning_order : (loaning borrower lender).Reordered (loaning lender borrower) ∧
    (loaning borrower lender).compile.toOption.isSome = true ∧
    (loaning lender borrower).compile = .error (.failed (.mutableConflict "h" .mutable)) :=
  ⟨loaning_reordered, by decide +kernel, by decide +kernel⟩

end Tenure
