import Tenure.Text.Quoted

/-!
# Types

A type is one of six primitives, a function type or a reference. Types are written in ascriptions and shown in
messages; both use the same notation.
-/

set_option autoImplicit false

namespace Tenure

/-- A type. -/
inductive Ty where
  | unit
  | i32
  | f32
  | bool
  | char
  | str
  | function (parameters : List Ty) (result : Ty)
  | reference (target : Ty) (mutable : Bool)
deriving Repr, Inhabited

namespace Ty

mutual

/-- The text of a type. -/
def text : Ty → Text
  | .unit => "()"
  | .i32 => "i32"
  | .f32 => "f32"
  | .bool => "bool"
  | .char => "char"
  | .str => "str"
  | .function parameters result =>
    "fn(" ++ Text.join ", " (texts parameters) ++ ") -> " ++ result.text
  | .reference target mutable => (if mutable then "&mut " else "&") ++ target.text

/-- The texts of types. -/
def texts : List Ty → List Text
  | [] => []
  | t :: rest => t.text :: texts rest

end

mutual

/-- Whether two types are the same. -/
def equal : Ty → Ty → Bool
  | .unit, .unit => true
  | .i32, .i32 => true
  | .f32, .f32 => true
  | .bool, .bool => true
  | .char, .char => true
  | .str, .str => true
  | .function ps r, .function qs s => r.equal s && equalAll ps qs
  | .reference t m, .reference u n => m = n && t.equal u
  | _, _ => false

/-- Whether two lists of types are the same. -/
def equalAll : List Ty → List Ty → Bool
  | [], [] => true
  | t :: ts, u :: us => t.equal u && equalAll ts us
  | _, _ => false

end

mutual

theorem equal_iff : (t u : Ty) → (t.equal u = true ↔ t = u)
  | t, .unit => by cases t <;> simp [equal]
  | t, .i32 => by cases t <;> simp [equal]
  | t, .f32 => by cases t <;> simp [equal]
  | t, .bool => by cases t <;> simp [equal]
  | t, .char => by cases t <;> simp [equal]
  | t, .str => by cases t <;> simp [equal]
  | t, .function qs s => by
    cases t with
    | function ps r => simp [equal, equal_iff r s, equalAll_iff ps qs, and_comm]
    | _ => simp [equal]
  | t, .reference v n => by
    cases t with
    | reference w m => simp [equal, equal_iff w v, and_comm]
    | _ => simp [equal]

theorem equalAll_iff : (ts us : List Ty) → (equalAll ts us = true ↔ ts = us)
  | [], [] => by simp [equalAll]
  | [], _ :: _ => by simp [equalAll]
  | _ :: _, [] => by simp [equalAll]
  | t :: ts, u :: us => by simp [equalAll, equal_iff t u, equalAll_iff ts us]

end

instance : DecidableEq Ty := fun t u => decidable_of_iff _ (equal_iff t u)

/-- Whether a type is one of the two number types. -/
def isNumeric : Ty → Bool
  | .i32 | .f32 => true
  | _ => false

/-- Whether a type is that of truth values. -/
def isBool : Ty → Bool
  | .bool => true
  | _ => false

/-- The wider of two number types. -/
def wider (t u : Ty) : Ty := if t = .f32 ∨ u = .f32 then .f32 else .i32

end Ty

end Tenure
