import Arithmetization.Body.Sharing

/-!
What a caller may choose: limits on the size of a schema, how expressions are shared, and what a
division costs in degree.
-/

set_option autoImplicit false

namespace Arithmetization

/-- Bounds that a schema has to keep. -/
structure Limits where
  maxTraceLength : Nat := 1048576
  maxTraceRegisters : Nat := 64
  maxStaticRegisters : Nat := 64
  maxConstraintCount : Nat := 1024
  maxConstraintDegree : Nat := 16
deriving DecidableEq, Repr

structure CompileOptions where
  limits : Limits := {}
  sharing : SharingOptions := {}
  /-- The degree charged for dividing by something that is not constant. -/
  inverseDegreeCost : Option Nat := none
deriving DecidableEq, Repr

namespace CompileOptions

/-- Without a cost of its own a division is charged the greatest admissible degree, so that any
further factor goes over the limit. -/
def inverseCost (o : CompileOptions) : Nat :=
  o.inverseDegreeCost.getD o.limits.maxConstraintDegree

end CompileOptions

end Arithmetization
