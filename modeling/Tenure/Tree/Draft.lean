import Tenure.Tree.Basic

/-!
# Trees under construction

While a tree is read, a node may get its children more than once. Later children are put into the places of the
earlier ones, and a shorter list only hides the places behind its end: a longer list that follows finds them as they
were left. A draft is a tree together with those hidden places.
-/

set_option autoImplicit false

namespace Tenure

/-- A tree that is being read, or the place of a node that is not there. -/
inductive Draft where
  | absent
  /-- A node whose children are the first `count` of its places. -/
  | node (tag : Text) (places : List Draft) (count : Nat) (val : Payload) (type : Text)
deriving Repr, Inhabited

namespace Draft

/-- A node with nothing in it. -/
def blank : Draft := .node ∅ [] 0 .none ∅

/-- The node to read a child on top of: the one in its place, or a blank one. -/
def orBlank : Draft → Draft
  | .absent => blank
  | d => d

/-- The places of a node. -/
def places : Draft → List Draft
  | .absent => []
  | .node _ places _ _ _ => places

/-- The draft with another tag. -/
def withTag (tag : Text) : Draft → Draft
  | .absent => .absent
  | .node _ places count val type => .node tag places count val type

/-- The draft with another payload. -/
def withVal (val : Payload) : Draft → Draft
  | .absent => .absent
  | .node tag places count _ type => .node tag places count val type

/-- The draft with another literal kind. -/
def withType (type : Text) : Draft → Draft
  | .absent => .absent
  | .node tag places count val _ => .node tag places count val type

/-- The draft with other places, of which the first `count` are its children. Without children it has no places. -/
def withPlaces (places : List Draft) (count : Nat) : Draft → Draft
  | .absent => .absent
  | .node tag _ _ val type => .node tag (if count = 0 then [] else places) count val type

mutual

/-- The tree that a draft shows. -/
def tree : Draft → Tree
  | .absent => .absent
  | .node tag places count val type => .node tag (trees count places) val type

/-- The trees that the first of some places show. -/
def trees : Nat → List Draft → List Tree
  | 0, _ => []
  | _, [] => []
  | count + 1, d :: rest => d.tree :: trees count rest

end

end Draft

end Tenure
