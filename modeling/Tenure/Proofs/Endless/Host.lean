import Tenure.Heap.Host
import Tenure.Proofs.Endless.Machine

/-!
# Host values of objects

What an object of the endless heap looks like from outside. Programs make no pairs, so only references are followed.
-/

set_option autoImplicit false

namespace Tenure

/-- The host value of a content that is followed no further. -/
def Content.host? : Content → Option Host
  | .falsity => some (.bool false)
  | .truth => some (.bool true)
  | .null => some .null
  | .undefined => some .undefined
  | .unassigned => some (.str "<unassigned>")
  | .number v => some (Host.ofNumber v)
  | .string t => some (.str t)
  | .char code => some (.str (Text.ofCode code))
  | .closure _ _ => some (.str "<closure>")
  | .builtin _ => some (.str "<builtin>")
  | .frame => some (.str "<frame>")
  | .environment => some (.str "<environment>")
  | .blockframe => some (.str "<blockframe>")
  | .callframe _ _ => some (.str "<callframe>")
  | .free => some (.str "<Free>")
  | .pair | .reference _ _ => none

/-- A host value, unless it is a reference. -/
def Host.plain? : Host → Option Host
  | .ref _ _ => none
  | w => some w

namespace Endless

/-- The host value of an object, followed through at most `depth` further references. -/
def hostOf? (s : Endless) : Nat → Address → Option Host
  | 0, _ => some (.str "<...>")
  | depth + 1, a => do
    let o ← s.objs[a]?
    match o.content with
    | .reference pos mutable => do
      let target ← s.hostOf? depth (← s.cell? (← o.links[0]?) pos)
      some (.ref mutable target)
    | c => c.host?

end Endless

end Tenure
