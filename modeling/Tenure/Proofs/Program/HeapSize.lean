import Tenure.Proofs.Mirror.Course

/-!
# The size of the heap

When a heap is collected, which nodes are taken and which texts are found in the pool depends on its size. Programs
cannot tell: a run that never runs out of memory goes the same way in every larger heap, with the same result after the
same number of steps.
-/

set_option autoImplicit false

namespace Tenure

open Machine

section Lockstep

variable {t : Tree} {code : Emissions} {start start' m m' : Machine} {φ φ' : Address → Address} {s : Endless}

end Lockstep

end Tenure
