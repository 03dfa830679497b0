import Mathlib
import Tenure.Typing.Literal

/-!
# Trees without numerals

A payload may be a number as it was written. Almost everywhere only its text counts, and the payload could be that text
as well: `Payload.plain`. The one exception is a literal whose kind is left out, since the kind is guessed from the way
the payload is written. So a tree in which every other numeral is replaced by its text (`Tree.plain`) looks the same
wherever a tree is inspected, and its literals are the same.
-/

set_option autoImplicit false

namespace Tenure

namespace Payload

mutual

/-- A payload with its numerals replaced by their texts. -/
def plain : Payload → Payload
  | .numeral token => .text token
  | .tagged number content => .tagged number content.plain
  | .list items => .list (plainItems items)
  | .map members => .map (plainMembers members)
  | p => p

/-- The items of a list with their numerals replaced by their texts. -/
def plainItems : List Payload → List Payload
  | [] => []
  | p :: rest => p.plain :: plainItems rest

/-- The members of a map with their numerals replaced by their texts. -/
def plainMembers : List (Payload × Payload) → List (Payload × Payload)
  | [] => []
  | (key, value) :: rest => (key.plain, value.plain) :: plainMembers rest

end

mutual

theorem nestedText_plain : (p : Payload) → p.plain.nestedText = p.nestedText
  | .none | .text _ | .numeral _ | .bool _ | .float _ | .int _ | .big _ | .bytes _ | .simple _ | .time _ => rfl
  | .tagged number content => by rw [plain, nestedText, nestedText, nestedText_plain content]
  | .list items => by rw [plain, nestedText, nestedText, itemTexts_plain items]
  | .map members => by rw [plain, nestedText, nestedText, memberTexts_plain members]

theorem itemTexts_plain : (items : List Payload) → itemTexts (plainItems items) = itemTexts items
  | [] => rfl
  | p :: rest => by rw [plainItems, itemTexts, itemTexts, nestedText_plain p, itemTexts_plain rest]

theorem memberTexts_plain : (members : List (Payload × Payload)) →
    memberTexts (plainMembers members) = memberTexts members
  | [] => rfl
  | (key, value) :: rest => by
    rw [plainMembers, memberTexts, memberTexts, nestedText_plain key, nestedText_plain value, memberTexts_plain rest]

end

theorem isSome_plain (p : Payload) : p.plain.isSome = p.isSome := by cases p <;> rfl

theorem toText_plain (p : Payload) : p.plain.toText = p.toText := by
  have h := nestedText_plain p
  cases p <;> first | rfl | exact h

end Payload

namespace Tree

/-- Whether the literal kind of a node would be guessed from the way its payload is written. -/
def guessesKind (tag type : Text) : Bool :=
  type.isEmpty && (Form.ofTag tag = .literal || Form.ofTag tag = .terminal)

/-- The payload of a node with its numerals replaced by their texts, except one that a literal kind is guessed from. -/
def plainVal (tag type : Text) : Payload → Payload
  | .numeral token => if guessesKind tag type then .numeral token else .text token
  | val => val.plain

mutual

/-- A tree with its numerals replaced by their texts, except where a literal kind is guessed from one. -/
def plain : Tree → Tree
  | .absent => .absent
  | .node tag children val type => .node tag (plainAll children) (plainVal tag type val) type

/-- Trees with their numerals replaced by their texts. -/
def plainAll : List Tree → List Tree
  | [] => []
  | t :: rest => t.plain :: plainAll rest

end

theorem plainAll_eq_map (trees : List Tree) : plainAll trees = trees.map plain := by
  induction trees with
  | nil => rfl
  | cons t trees ih => rw [plainAll, ih, List.map_cons]

/-! ## What a plain tree shows -/

theorem plain_node (tag : Text) (children : List Tree) (val : Payload) (type : Text) :
    (node tag children val type).plain = .node tag (children.map plain) (plainVal tag type val) type := by
  rw [plain, plainAll_eq_map]

@[simp] theorem tag_plain (t : Tree) : t.plain.tag = t.tag := by cases t <;> rfl

@[simp] theorem type_plain (t : Tree) : t.plain.type = t.type := by cases t <;> rfl

@[simp] theorem form_plain (t : Tree) : t.plain.form = t.form := by cases t <;> rfl

@[simp] theorem isPresent_plain (t : Tree) : t.plain.isPresent = t.isPresent := by cases t <;> rfl

@[simp] theorem children_plain (t : Tree) : t.plain.children = t.children.map plain := by
  cases t with
  | absent => rfl
  | node tag children val type => exact plainAll_eq_map children

theorem plainVal_of_ne_numeral {tag type : Text} {val : Payload} (h : ∀ token, val ≠ .numeral token) :
    plainVal tag type val = val.plain := by
  cases val with
  | numeral token => exact absurd rfl (h token)
  | _ => rfl

theorem plainVal_of_not_guessesKind {tag type : Text} {val : Payload} (h : ¬guessesKind tag type = true) :
    plainVal tag type val = val.plain := by
  cases val with
  | numeral token => exact if_neg h
  | _ => rfl

/-- The payload of a plain node is the payload with its numerals replaced, or has been kept. -/
theorem plainVal_eq_or (tag type : Text) (val : Payload) :
    plainVal tag type val = val.plain ∨ plainVal tag type val = val := by
  unfold plainVal
  split
  · split
    · exact .inr rfl
    · exact .inl rfl
  · exact .inl rfl

@[simp] theorem isSome_val_plain (t : Tree) : t.plain.val.isSome = t.val.isSome := by
  cases t with
  | absent => rfl
  | node tag children val type =>
    rcases plainVal_eq_or tag type val with h | h
    · exact (congrArg Payload.isSome h).trans val.isSome_plain
    · exact congrArg Payload.isSome h

@[simp] theorem text_plain (t : Tree) : t.plain.text = t.text := by
  cases t with
  | absent => rfl
  | node tag children val type =>
    rcases plainVal_eq_or tag type val with h | h
    · exact (congrArg Payload.toText h).trans val.toText_plain
    · exact congrArg Payload.toText h

@[simp] theorem last_plain (t : Tree) : t.plain.last = t.last.plain := by
  rw [last, last, children_plain, List.getLast?_map]
  cases t.children.getLast? <;> rfl

/-! ## Searches for children -/

theorem passes_of_firstWith {p : Form → Bool} {trees : List Tree} {t : Tree} (h : firstWith p trees = .ok (some t)) :
    p (Form.ofTag t.tag) = true := by
  induction trees with
  | nil => cases h
  | cons u trees ih =>
    cases u with
    | absent => cases h
    | node tag children val type =>
      change (if p (Form.ofTag tag) then Except.ok (some _) else firstWith p trees) = _ at h
      split at h
      next hp =>
        cases h
        exact hp
      next => exact ih h

@[simp] theorem firstWith_plain (p : Form → Bool) (trees : List Tree) :
    firstWith p (trees.map plain) = Option.map plain <$> firstWith p trees := by
  induction trees with
  | nil => rfl
  | cons t trees ih =>
    rw [List.map_cons, firstWith, firstWith, form_plain, ih, map_bind]
    refine congrArg _ (funext fun f => ?_)
    split <;> rfl

@[simp] theorem select_plain (p : Form → Bool) (trees : List Tree) :
    select p (trees.map plain) = List.map plain <$> select p trees := by
  induction trees with
  | nil => rfl
  | cons t trees ih =>
    rw [List.map_cons, select, select, form_plain, ih, map_bind]
    refine congrArg _ (funext fun f => ?_)
    rw [map_bind, bind_map_left]
    refine congrArg _ (funext fun others => ?_)
    split <;> rfl

@[simp] theorem child_plain (f : Form) (t : Tree) : t.plain.child f = Option.map plain <$> t.child f := by
  rw [child, child, children_plain, firstWith_plain]

@[simp] theorem childrenOf_plain (f : Form) (t : Tree) : t.plain.childrenOf f = List.map plain <$> t.childrenOf f := by
  rw [childrenOf, childrenOf, children_plain, select_plain]

@[simp] theorem operands_plain (t : Tree) : t.plain.operands = List.map plain <$> t.operands := by
  rw [operands, operands, children_plain, select_plain]

@[simp] theorem initializer_plain (t : Tree) : t.plain.initializer = Option.map plain <$> t.initializer := by
  rw [initializer, initializer, children_plain, firstWith_plain]

@[simp] theorem parametersOf_plain (t : Tree) : t.plain.parametersOf = List.map plain <$> t.parametersOf := by
  rw [parametersOf, parametersOf, child_plain, bind_map_left, map_bind]
  refine congrArg _ (funext fun found => ?_)
  cases found with
  | none => rfl
  | some list => exact childrenOf_plain .parameter list

@[simp] theorem name_plain (t : Tree) : t.plain.name = t.name := by
  rw [name, name, isSome_val_plain, text_plain, child_plain, bind_map_left]
  refine if_congr Iff.rfl rfl (congrArg _ (funext fun found => ?_))
  cases found with
  | none => rfl
  | some i => exact congrArg _ (text_plain i)

@[simp] theorem operator_plain (t : Tree) : t.plain.operator = t.operator := by
  rw [operator, operator, isSome_val_plain, text_plain, child_plain, bind_map_left]
  refine if_congr Iff.rfl rfl (congrArg _ (funext fun found => ?_))
  cases found with
  | none => rfl
  | some s => exact congrArg _ (text_plain s)

theorem saysMutable_plain (trees : List Tree) : saysMutable (trees.map plain) = saysMutable trees := by
  induction trees with
  | nil => rfl
  | cons t trees ih => rw [List.map_cons, saysMutable, saysMutable, form_plain, text_plain, ih]

@[simp] theorem isMutable_plain (t : Tree) : t.plain.isMutable = t.isMutable := by
  rw [isMutable, isMutable, children_plain, saysMutable_plain]

/-! ## Heights and parentheses -/

mutual

@[simp] theorem height_plain : (t : Tree) → t.plain.height = t.height
  | .absent => rfl
  | .node tag children val type => by rw [plain, height, height, heights_plain children]

theorem heights_plain : (trees : List Tree) → heights (plainAll trees) = heights trees
  | [] => rfl
  | t :: rest => by rw [plainAll, heights, heights, height_plain t, heights_plain rest]

end

theorem ungroup_plain (fuel : Nat) (t : Tree) : ungroup fuel t.plain = (ungroup fuel t).plain := by
  induction fuel generalizing t with
  | zero => rfl
  | succ fuel ih =>
    cases t with
    | absent => rfl
    | node tag children val type =>
      rw [plain_node, ungroup, ungroup, ← plain_node, last_plain, ih, List.isEmpty_map]
      split <;> rfl

@[simp] theorem unwrapped_plain (t : Tree) : t.plain.unwrapped = t.unwrapped.plain := by
  rw [unwrapped, unwrapped, height_plain, ungroup_plain]

end Tree

/-! ## Literals -/

namespace Literal

/-- A literal is carried by the literal node itself or by a terminal in it. -/
theorem form_source {t source : Tree} (ht : Form.ofTag t.tag = .literal) (h : Literal.source t = .ok source) :
    Form.ofTag source.tag = .literal ∨ Form.ofTag source.tag = .terminal := by
  rw [Literal.source] at h
  split at h
  · cases h
    exact .inl ht
  · cases hfound : t.child .terminal with
    | error e =>
      rw [hfound] at h
      cases h
    | ok found =>
      rw [hfound] at h
      cases found with
      | none =>
        cases h
        exact .inl ht
      | some inner =>
        cases h
        exact .inr (of_decide_eq_true (Tree.passes_of_firstWith hfound))

@[simp] theorem source_plain (t : Tree) : Literal.source t.plain = Tree.plain <$> Literal.source t := by
  rw [Literal.source, Literal.source, Tree.isSome_val_plain, Tree.type_plain, Tree.child_plain, bind_map_left]
  split
  · rfl
  · rw [map_bind]
    refine congrArg _ (funext fun found => ?_)
    cases found <;> rfl

theorem guessKind_plain {val : Payload} (h : ∀ token, val ≠ .numeral token) : guessKind val.plain = guessKind val := by
  cases val with
  | numeral token => exact absurd rfl (h token)
  | _ => rfl

/-- The kind of a literal does not depend on how other numerals are written. -/
theorem kindOf_plain {source : Tree} (h : Form.ofTag source.tag = .literal ∨ Form.ofTag source.tag = .terminal) :
    kindOf source.plain = kindOf source := by
  cases source with
  | absent => rfl
  | node tag children val type =>
    rw [kindOf, kindOf, Tree.type_plain]
    split
    next hempty =>
      rw [Tree.plain_node]
      show guessKind (Tree.plainVal tag type val) = guessKind val
      unfold Tree.plainVal
      split
      next token =>
        rw [if_pos (by simpa [Tree.guessesKind] using ⟨hempty, h⟩)]
      next hnumeral => exact guessKind_plain hnumeral
    next => rfl

theorem readBool_plain (val : Payload) (text : Text) : readBool val.plain text = readBool val text := by
  cases val <;> rfl

theorem read_plain {source : Tree} (h : Form.ofTag source.tag = .literal ∨ Form.ofTag source.tag = .terminal) :
    read source.plain = read source := by
  have hbool : readBool source.plain.val source.text = readBool source.val source.text := by
    cases source with
    | absent => rfl
    | node tag children val type =>
      rcases Tree.plainVal_eq_or tag type val with hval | hval
      · exact (congrArg (readBool · _) hval).trans (readBool_plain val _)
      · exact congrArg (readBool · _) hval
  rw [read, read, kindOf_plain h, Tree.text_plain, hbool]

end Literal

end Tenure
