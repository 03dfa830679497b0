/-!
# Stopping early

An operation can stop for two reasons: it reports an error of its domain, or it reaches for something that is not
there. The two are kept apart, because only the first is an answer.
-/

set_option autoImplicit false

namespace Tenure

/-- Why an operation stopped: with an error it reports, or by reaching for something that is not there. -/
inductive Stop (ε : Type) where
  | failed (error : ε)
  | crashed
deriving DecidableEq, Repr

end Tenure
